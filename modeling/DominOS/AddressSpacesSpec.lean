import DominOS.AddressSpaces
import DominOS.PagingSpec

/-! What each call does to the memory of the processes, and that every live frame has one
owner. -/
namespace DominOS.AddressSpaces
open Paging Fallible
open Process (TaskPtr ustackSzMax)

variable {m m' : Mem} {t u : TaskPtr} {space space' : Space} {code ssize : Nat} {o : StartOffers}
  {shp : Shp} {key : String} {v f : Nat}

namespace Space

def blocks (space : Space) : List (Nat × Nat) :=
  (space.cr3, 1) :: ownTables space.dir ++
    [(space.stackPages, space.nbStackPages), (space.codePages, space.nbCodePages)]

def Inside (space : Space) (f : Nat) : Prop :=
  (space.codePages ≤ f ∧ f < space.codePages + space.nbCodePages * 0x1000) ∨
    (space.stackPages ≤ f ∧ f < space.stackPages + space.nbStackPages * 0x1000)

def behind (space : Space) : Nat := space.stackPages + space.nbStackPages * 0x1000

end Space

theorem offer_valid {s : Frames} {offers : List Nat} (h : s.Valid) : (s.offer offers).Valid :=
  ⟨h.apart, h.pos, h.aligned⟩

/-- What a new task has, and where its pages lead: into its code and its stack, and the last one
behind the stack, unless the stack fills its pages. -/
structure Started (m : Mem) (code ssize : Nat) (o : StartOffers) (space : Space) : Prop where
  codePages : space.codePages = o.code
  stackPages : space.stackPages = o.stack
  nbCode : space.nbCodePages = nbCodePages code
  nbStack : space.nbStackPages = nbStackPages ssize
  maps : ∀ v f, space.userFrame v = some f → space.Inside f ∨
    v / 0x1000 = 0xfff00 ∧ f = space.behind ∧ realSize ssize % 0x1000 ≠ 0

theorem code_frame (h : userStart / 0x1000 ≤ v / 0x1000 ∧
    v / 0x1000 ≤ (userStart + codeSize code) / 0x1000) :
    (v / 0x1000 - userStart / 0x1000) * 0x1000 < nbCodePages code * 0x1000 := by
  unfold nbCodePages pageSize
  unfold userStart at h ⊢
  omega

/-- The zone of a stack begins in the page of its lowest word, which is one page further down
when it does not fill its pages. -/
theorem stack_frame (hs : ssize ≤ ustackSzMax)
    (h : (userStackEnd - realSize ssize + 1) / 0x1000 ≤ v / 0x1000 ∧
      v / 0x1000 ≤ userStackEnd / 0x1000) :
    (v / 0x1000 - (userStackEnd - realSize ssize + 1) / 0x1000) * 0x1000 <
        nbStackPages ssize * 0x1000 ∨
      v / 0x1000 = 0xfff00 ∧
        (v / 0x1000 - (userStackEnd - realSize ssize + 1) / 0x1000) * 0x1000 =
          nbStackPages ssize * 0x1000 ∧ realSize ssize % 0x1000 ≠ 0 := by
  have hreal : realSize ssize < 0x10000000 ∧ realSize ssize % 4 = 0 ∧ 0 < realSize ssize := by
    unfold realSize extraStackSpace
    unfold ustackSzMax at hs
    omega
  unfold nbStackPages pageSize
  unfold userStackEnd at h ⊢
  omega

theorem startTask_spec (hv : m.frames.Valid) (hs : ssize ≤ ustackSzMax)
    (h : m.startTask code ssize o = .ok m') : ∃ space, Started m code ssize o space ∧
      m'.frames.Valid ∧ m'.frames.live.Perm (space.blocks ++ m.frames.live) ∧
      m' = { m with
        frames := m'.frames
        heap := .kernelStack m.fresh :: .task m.fresh :: m.heap
        spaces := Function.update m.spaces m.fresh (some space)
        fresh := m.fresh + 1 } := by
  unfold Mem.startTask at h
  obtain ⟨⟨cr3, dir₀, s₁⟩, hdir, h⟩ := bind_ok.mp h
  obtain ⟨⟨codePages, s₂⟩, hcode, h⟩ := bind_ok.mp h
  obtain ⟨⟨dir₁, s₃⟩, hmap, h⟩ := bind_ok.mp h
  obtain ⟨⟨stackPages, s₄⟩, hstack, h⟩ := bind_ok.mp h
  obtain ⟨⟨dir₂, s₅⟩, hmap', h⟩ := bind_ok.mp h
  cases h
  obtain ⟨⟨dirAt, s₀⟩, hdirAt, hdir⟩ := bind_ok.mp hdir
  cases hdir
  have hv₁ : s₁.Valid := (offer_valid hv).alloc hdirAt
  have hv₂ : s₂.Valid := (offer_valid hv₁).alloc hcode
  obtain ⟨hl₁, _, _⟩ := alloc_ok hdirAt
  obtain ⟨hl₂, ⟨hal₂, _, hend₂, _⟩, _⟩ := alloc_ok hcode
  obtain ⟨hl₄, ⟨hal₄, _, hend₄, _⟩, _⟩ := alloc_ok hstack
  have hcodeAt := Option.some.inj (alloc_head hcode).symm
  have hstackAt := Option.some.inj (alloc_head hstack).symm
  have hsize : codeSize code < 0x10000000 := by
    unfold nbCodePages pageSize at hend₂
    omega
  have hreal : realSize ssize < 0x10000000 ∧ realSize ssize % 4 = 0 ∧ 0 < realSize ssize := by
    unfold realSize extraStackSpace
    unfold ustackSzMax at hs
    omega
  obtain ⟨⟨new, hg⟩, he⟩ := mapZone_spec (by omega) (by unfold userStart; omega)
    (by unfold userStart; omega) hmap
  have hv₄ : s₄.Valid := (offer_valid (hg.valid (offer_valid hv₂))).alloc hstack
  obtain ⟨⟨new', hg'⟩, he'⟩ := mapZone_spec (by unfold userStackEnd; omega)
    (by unfold userStackEnd; omega) (by unfold userStackEnd; omega) hmap'
  refine ⟨_, ⟨hcodeAt, hstackAt, rfl, rfl, ?_⟩, hg'.valid (offer_valid hv₄), ?_, rfl⟩
  · intro v f hf
    unfold Space.userFrame at hf
    rw [he'] at hf
    split at hf
    · rename_i hw
      rw [Option.bind_some, if_pos rfl] at hf
      obtain rfl := Option.some.inj hf
      have hstack : align stackPages = stackPages := by
        unfold align
        omega
      have hle := stack_frame hs hw
      have hfits : nbStackPages ssize * 0x1000 + stackPages ≤ 0x10000000 := by omega
      rw [hstack, Nat.mod_eq_of_lt (by omega)]
      rcases hle with h | ⟨hv, hf, hr⟩
      · exact Or.inl (Or.inr ⟨Nat.le_add_right _ _, Nat.add_lt_add_left h _⟩)
      · exact Or.inr ⟨hv, congrArg _ hf, hr⟩
    rw [he] at hf
    split at hf
    · rename_i hw
      rw [Option.bind_some, if_pos rfl] at hf
      obtain rfl := Option.some.inj hf
      have hcode : align codePages = codePages := by
        unfold align
        omega
      have hlt := code_frame hw
      have hfits : nbCodePages code * 0x1000 + codePages ≤ 0x10000000 := by omega
      rw [hcode, Nat.mod_eq_of_lt (by omega)]
      exact Or.inl (Or.inl ⟨Nat.le_add_right _ _, Nat.add_lt_add_left hlt _⟩)
    · cases hentry : Dir.entry m.early.dir v with
      | none =>
        rw [hentry] at hf
        cases hf
      | some e =>
        rw [hentry, Option.bind_some, early_entry hentry] at hf
        cases hf
  · have htables := (hg'.tables.trans (hg.tables.append_left new'))
    rw [early_tables, List.append_nil] at htables
    refine List.perm_iff_count.mpr fun x => ?_
    have h₃ := hg.live.count_eq x
    have h₅ := hg'.live.count_eq x
    have ht := htables.count_eq x
    simp only [Space.blocks, Frames.offer, hl₁, hl₂, hl₄, List.count_append, List.count_cons,
      List.count_nil] at h₃ h₅ ht ⊢
    omega

structure Redirected (s s' : Frames) (space space' : Space) (virt : Nat) (target : Option Nat) :
    Prop where
  shape : space' = { space with dir := space'.dir }
  blocks : ∃ new, s'.live.Perm (new ++ s.live) ∧ space'.blocks.Perm (new ++ space.blocks)
  valid : s.Valid → s'.Valid
  maps : ∀ v, space'.userFrame v =
    if v / 0x1000 = virt / 0x1000 then target else space.userFrame v

theorem Redirected.inside {s s' : Frames} {virt : Nat} {target : Option Nat}
    (h : Redirected s s' space space' virt target) :
    (space'.Inside f ↔ space.Inside f) ∧ space'.behind = space.behind := by
  rw [h.shape]
  exact ⟨Iff.rfl, rfl⟩

section Shared

theorem slot_page {i : Nat} : slotAddress i / 0x1000 = 0xfff00 + i ∧
    (slotAddress i + pageSize - 1) / 0x1000 = slotAddress i / 0x1000 := by
  unfold slotAddress sharedStart pageSize
  omega

theorem slot_inj {i j : Nat} (h : slotAddress i = slotAddress j) : i = j := by
  unfold slotAddress sharedStart pageSize at h
  omega

theorem mapShp_spec {i : Nat} (hi : i < pageMax) (hslot : shp.virtualAddress = slotAddress i)
    (hal : shp.physicalAddress % 0x1000 = 0 ∧ shp.physicalAddress < 0x10000000) (h : m.mapShp t shp = .ok m') :
    ∃ space space' s, m.spaces t = some space ∧
      Redirected m.frames s space space' shp.virtualAddress (some shp.physicalAddress) ∧
      m' = { m with frames := s, spaces := Function.update m.spaces t (some space') } := by
  unfold Mem.mapShp at h
  cases hs : m.spaces t with
  | none =>
    rw [hs] at h
    cases h
  | some space =>
    rw [hs] at h
    obtain ⟨⟨dir, s⟩, hmap, h⟩ := bind_ok.mp h
    cases h
    have hpage := slot_page (i := i)
    have hlow : 0xfff00000 ≤ shp.virtualAddress ∧ shp.virtualAddress < 0x100000000 - 0xfff := by
      rw [hslot]
      unfold pageMax at hi
      unfold slotAddress sharedStart pageSize
      omega
    obtain ⟨⟨new, hg⟩, he⟩ := mapZone_spec (by unfold pageSize; omega) (by omega)
      (by unfold pageSize; omega) hmap
    refine ⟨space, { space with dir := dir }, s, rfl, ⟨rfl, ⟨new, hg.live, ?_⟩, hg.valid, ?_⟩, rfl⟩
    · refine List.perm_iff_count.mpr fun x => ?_
      have ht := hg.tables.count_eq x
      simp only [Space.blocks, List.count_append, List.count_cons] at ht ⊢
      omega
    · intro v
      have halign : align shp.physicalAddress = shp.physicalAddress := by
        unfold align
        omega
      unfold Space.userFrame
      rw [he, hslot, hpage.2]
      by_cases hv : v / 0x1000 = slotAddress i / 0x1000
      · have hphys : shp.physicalAddress % 2 ^ 32 = shp.physicalAddress :=
          Nat.mod_eq_of_lt (hal.2.trans (by decide))
        rw [if_pos ⟨hv.ge, hv.le⟩, if_pos hv, hv, Nat.sub_self, Nat.zero_mul, halign, Nat.add_zero,
          hphys]
        rfl
      · rw [if_neg fun hw => hv (le_antisymm hw.2 hw.1), if_neg hv]

theorem unmapShp_spec {i : Nat} (hslot : shp.virtualAddress = slotAddress i)
    (h : m.unmapShp t shp = .ok m') : ∃ space space', m.spaces t = some space ∧
      Redirected m.frames m.frames space space' shp.virtualAddress none ∧
      m' = { m with spaces := Function.update m.spaces t (some space') } := by
  unfold Mem.unmapShp at h
  cases hs : m.spaces t with
  | none =>
    rw [hs] at h
    cases h
  | some space =>
    rw [hs] at h
    cases h
    obtain ⟨ht, he⟩ := unmapZone_spec space.dir
      (show shp.virtualAddress ≤ shp.virtualAddress + pageSize - 1 by unfold pageSize; omega)
    refine ⟨space, _, rfl, ⟨rfl, ⟨[], .refl _, ?_⟩, id, fun v => ?_⟩, rfl⟩
    · unfold Space.blocks
      rw [ht]
      exact .refl _
    · unfold Space.userFrame
      rw [he, hslot, slot_page.2]
      by_cases hv : v / 0x1000 = slotAddress i / 0x1000
      · rw [if_pos ⟨hv.ge, hv.le⟩, if_pos hv]
        rfl
      · rw [if_neg fun hw => hv (le_antisymm hw.2 hw.1), if_neg hv]

end Shared

end DominOS.AddressSpaces
