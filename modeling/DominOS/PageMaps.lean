import DominOS.PagingSpec
import Mathlib.Order.Interval.Finset.Nat

/-! Zones of a directory, seen as a map from page numbers to entries: what `map_zone` and
`unmap_zone` make of it, and when they run to their end. -/
namespace DominOS.Paging
open Fallible

variable {s s' : Frames} {dir dir' : Dir} {flags : Flags} {n v virt virtEnd phys phyEnd last : Nat}

/-- The entry of each page, and for each 4MB the flags that its table was made with. -/
@[ext] structure PageMap where
  page : Nat → Option Entry
  table : Nat → Option Flags

namespace PageMap

/-- The pages of a zone lead to as many frames from that of `phys` on, all others are as before;
what has no table gets one. -/
def mapZone (virt virtEnd phys : Nat) (flags : Flags) (M : PageMap) : PageMap where
  page p :=
    if virt / 0x1000 ≤ p ∧ p ≤ virtEnd / 0x1000 then
      some ⟨(align phys + (p - virt / 0x1000) * 0x1000) % 2 ^ 32, flags⟩
    else M.page p
  table i :=
    if pdIndex virt ≤ i ∧ i ≤ pdIndex virtEnd then some ((M.table i).getD flags) else M.table i

theorem mapZone_page (M : PageMap) (phys : Nat) (flags : Flags) {p : Nat} (h : virt / 0x1000 ≤ p ∧ p ≤ virtEnd / 0x1000) :
    (M.mapZone virt virtEnd phys flags).page p =
      some ⟨(align phys + (p - virt / 0x1000) * 0x1000) % 2 ^ 32, flags⟩ := if_pos h

def unmapZone (virt virtEnd : Nat) (M : PageMap) : PageMap :=
  { M with page := fun p =>
      if virt / 0x1000 ≤ p ∧ p ≤ virtEnd / 0x1000 then none else M.page p }

theorem unmapZone_page (M : PageMap) {p : Nat} (h : ¬(virt / 0x1000 ≤ p ∧ p ≤ virtEnd / 0x1000)) :
    (M.unmapZone virt virtEnd).page p = M.page p := if_neg h

def missing (virt virtEnd : Nat) (M : PageMap) : Finset Nat :=
  (Finset.Icc (pdIndex virt) (pdIndex virtEnd)).filter fun i => M.table i = none

end PageMap

def Dir.pages (dir : Dir) : PageMap where
  page p := Dir.entry dir (p * 0x1000)
  table i := (dir i).map Table.flags

theorem Dir.pages_table {i : Nat} : (Dir.pages dir).table i = (dir i).map Table.flags := rfl

theorem Dir.pages_page : (Dir.pages dir).page (v / 0x1000) = Dir.entry dir v := by
  have hpage : v / 0x1000 * 0x1000 / 0x1000 = v / 0x1000 := Nat.mul_div_cancel _ (by decide)
  obtain ⟨hd, ht⟩ := same_page.mpr hpage
  change Dir.entry dir (v / 0x1000 * 0x1000) = _
  unfold Dir.entry
  rw [hd, ht]

/-- The answers that will be given are frames that are free, and no frame is given twice. -/
structure Frames.Fresh (s : Frames) : Prop where
  admitted : ∀ a ∈ s.offers, s.Admits a 1
  nodup : s.offers.Nodup

section Loops

theorem Frames.Fresh.alloc {a : Nat} {offers : List Nat} (hf : s.Fresh) (ho : s.offers = a :: offers) :
    s.alloc 1 = .ok (a, ⟨(a, 1) :: s.live, offers⟩) ∧
      (⟨(a, 1) :: s.live, offers⟩ : Frames).Fresh := by
  have hnd := List.nodup_cons.mp (ho ▸ hf.nodup)
  have ha := hf.admitted a (ho ▸ List.mem_cons_self)
  constructor
  · unfold Frames.alloc
    rw [if_neg (by decide), ho]
    exact if_pos ha
  · refine ⟨fun b hb => ?_, hnd.2⟩
    obtain ⟨hal, hlow, hhigh, hap⟩ := hf.admitted b (ho ▸ List.mem_cons_of_mem _ hb)
    refine ⟨hal, hlow, hhigh, List.forall_mem_cons.mpr ⟨?_, hap⟩⟩
    have hne : b ≠ a := fun h => hnd.1 (h ▸ hb)
    have := ha.1
    unfold Apart
    omega

theorem mapPage_table (h : mapPage virt phys flags dir s = .ok (dir', s')) (i : Nat) :
    (Dir.pages dir').table i = if i = pdIndex virt then some (((Dir.pages dir).table i).getD flags)
      else (Dir.pages dir).table i := by
  have hset {table : Table} {old : Option Table} (hd : dir (pdIndex virt) = old)
      (h : dir' = Function.update dir (pdIndex virt) (some table))
      (hf : table.flags = (old.map Table.flags).getD flags) :
      (Dir.pages dir').table i =
        if i = pdIndex virt then some (((Dir.pages dir).table i).getD flags)
        else (Dir.pages dir).table i := by
    rw [Dir.pages_table, Dir.pages_table, h]
    by_cases hi : i = pdIndex virt
    · rw [if_pos hi, hi, Function.update_self, hd, Option.map_some, hf]
    · rw [if_neg hi, Function.update_of_ne hi]
  unfold mapPage at h
  split at h
  · rename_i table hd
    cases h
    exact hset hd rfl rfl
  · rename_i hd
    obtain ⟨_, _, hrest⟩ := bind_ok.mp h
    cases hrest
    exact hset hd rfl rfl

theorem mapPage_total (phys : Nat) (flags : Flags) (hf : s.Fresh)
    (hn : dir (pdIndex virt) = none → s.offers ≠ []) :
    ∃ dir' s', mapPage virt phys flags dir s = .ok (dir', s') ∧ s'.Fresh ∧
      s.offers.length = s'.offers.length + (if dir (pdIndex virt) = none then 1 else 0) := by
  unfold mapPage
  cases hd : dir (pdIndex virt) with
  | some table =>
    refine ⟨_, _, rfl, hf, ?_⟩
    rw [if_neg (Option.some_ne_none table), Nat.add_zero]
  | none =>
    obtain ⟨a, offers, ho⟩ := List.exists_cons_of_ne_nil (hn hd)
    obtain ⟨halloc, hf'⟩ := hf.alloc ho
    simp only [halloc, ok_bind]
    refine ⟨_, _, rfl, hf', ?_⟩
    rw [if_pos trivial, ho, List.length_cons]

theorem missing_next {M M' : PageMap} {left : Nat}
    (hM : ∀ i, M'.table i = if i = pdIndex virt then some ((M.table i).getD flags) else M.table i)
    (hle : pdIndex virt ≤ pdIndex last)
    (h : (M.missing virt last).card ≤ left + if M.table (pdIndex virt) = none then 1 else 0) :
    (M'.missing (virt + pageSize) last).card ≤ left := by
  have hnext : pdIndex virt ≤ pdIndex (virt + pageSize) := by
    rw [pdIndex_eq, pdIndex_eq]
    exact Nat.div_le_div_right (Nat.le_add_right _ _)
  have hsub : M'.missing (virt + pageSize) last ⊆ (M.missing virt last).erase (pdIndex virt) := by
    intro i hi
    obtain ⟨hi, hnone⟩ := Finset.mem_filter.mp hi
    obtain ⟨hlow, hhigh⟩ := Finset.mem_Icc.mp hi
    rw [hM] at hnone
    split at hnone
    · cases hnone
    · rename_i hne
      exact Finset.mem_erase.mpr ⟨hne, Finset.mem_filter.mpr
        ⟨Finset.mem_Icc.mpr ⟨hnext.trans hlow, hhigh⟩, hnone⟩⟩
  refine (Finset.card_le_card hsub).trans ?_
  by_cases hm : M.table (pdIndex virt) = none
  · have hmem : pdIndex virt ∈ M.missing virt last :=
      Finset.mem_filter.mpr ⟨Finset.mem_Icc.mpr ⟨le_rfl, hle⟩, hm⟩
    rw [if_pos hm] at h
    rw [Finset.card_erase_of_mem hmem]
    exact Nat.sub_le_of_le_add h
  · rw [if_neg hm] at h
    exact (Finset.card_erase_le).trans h

theorem mapPages_table (hlast : virt / 0x1000 + n = last / 0x1000 + 1) (hhigh : last < 2 ^ 32)
    (h : mapPages flags n virt phys dir s = .ok (dir', s')) (i : Nat) :
    (Dir.pages dir').table i =
      if 0 < n ∧ pdIndex virt ≤ i ∧ i ≤ pdIndex last then
        some (((Dir.pages dir).table i).getD flags)
      else (Dir.pages dir).table i := by
  induction n generalizing virt phys dir s with
  | zero =>
    cases h
    rw [if_neg fun h => absurd h.1 (Nat.lt_irrefl 0)]
  | succ n ih =>
    obtain ⟨⟨dir₁, s₁⟩, hpage, hrest⟩ := bind_ok.mp h
    rw [Nat.mod_eq_of_lt (show virt < 2 ^ 32 by omega)] at hpage
    have hnext : (virt + pageSize) / 0x1000 + n = last / 0x1000 + 1 := by
      unfold pageSize
      omega
    have hnow : (0 < n + 1 ∧ pdIndex virt ≤ i ∧ i ≤ pdIndex last) ↔ i = pdIndex virt ∨
        0 < n ∧ pdIndex (virt + pageSize) ≤ i ∧ i ≤ pdIndex last := by
      rw [pdIndex_eq, pdIndex_eq, pdIndex_eq]
      unfold pageSize
      omega
    rw [ih hnext hrest, mapPage_table hpage]
    simp only [hnow]
    by_cases hi : i = pdIndex virt
    · rw [if_pos hi, if_pos (Or.inl hi), Option.getD_some, ite_self]
    · rw [if_neg hi]
      by_cases hlater : 0 < n ∧ pdIndex (virt + pageSize) ≤ i ∧ i ≤ pdIndex last
      · rw [if_pos hlater, if_pos (Or.inr hlater)]
      · rw [if_neg hlater, if_neg fun h => h.elim hi hlater]

theorem mapPages_total (phys : Nat) (flags : Flags)
    (hlast : virt / 0x1000 + n = last / 0x1000 + 1) (hhigh : last < 2 ^ 32) (hf : s.Fresh)
    (hoffers : ((Dir.pages dir).missing virt last).card ≤ s.offers.length) :
    ∃ dir' s', mapPages flags n virt phys dir s = .ok (dir', s') := by
  induction n generalizing virt dir s phys with
  | zero => exact ⟨dir, s, rfl⟩
  | succ n ih =>
    have hpd : pdIndex virt ≤ pdIndex last := by
      rw [pdIndex_eq, pdIndex_eq]
      omega
    have hvirt : virt % 2 ^ 32 = virt := Nat.mod_eq_of_lt (by omega)
    have htable : (Dir.pages dir).table (pdIndex virt) = none ↔ dir (pdIndex virt) = none :=
      Option.map_eq_none_iff
    have hneed (hnone : dir (pdIndex virt) = none) : s.offers ≠ [] := by
      have hmem : pdIndex virt ∈ (Dir.pages dir).missing virt last :=
        Finset.mem_filter.mpr ⟨Finset.mem_Icc.mpr ⟨le_rfl, hpd⟩, htable.mpr hnone⟩
      exact List.ne_nil_of_length_pos ((Finset.card_pos.mpr ⟨_, hmem⟩).trans_le hoffers)
    obtain ⟨dir₁, s₁, hpage, hf₁, hlen⟩ := mapPage_total (phys % 2 ^ 32) flags hf hneed
    simp only [← htable] at hlen
    rw [hlen] at hoffers
    have hnext : (virt + pageSize) / 0x1000 + n = last / 0x1000 + 1 := by
      unfold pageSize
      omega
    obtain ⟨dir', s', hrest⟩ := ih (phys + pageSize) hnext hf₁
      (missing_next (mapPage_table hpage) hpd hoffers)
    refine ⟨dir', s', ?_⟩
    unfold mapPages
    rw [hvirt, hpage, ok_bind]
    exact hrest

end Loops

theorem align_pd : pdIndex (align virt) = pdIndex virt := by
  rw [pdIndex_eq, pdIndex_eq, align_page]
  omega

theorem align_turns (h : virt / 0x1000 ≤ last / 0x1000) :
    align virt / 0x1000 + (last / 0x1000 - virt / 0x1000 + 1) = last / 0x1000 + 1 := by
  rw [align_page]
  omega

/-- A zone above the tables of the kernel, and as much physical memory. -/
structure Zone (virt virtEnd phys phyEnd : Nat) : Prop where
  le : virt ≤ virtEnd
  low : 0x10000000 ≤ virt
  high : virtEnd < 2 ^ 32
  same : (virtEnd : Int) - virt = phyEnd - phys

/-- The allocator answers with a free frame for each table that is missing. -/
structure Supplied (s : Frames) (M : PageMap) (virt virtEnd : Nat) : Prop where
  fresh : s.Fresh
  enough : (M.missing virt virtEnd).card ≤ s.offers.length

theorem mapZone_pages (hle : virt ≤ virtEnd) (hlow : 0x10000000 ≤ virt) (hhigh : virtEnd < 2 ^ 32)
    (h : mapZone virt virtEnd phys phyEnd flags dir s = .ok (dir', s')) :
    Dir.pages dir' = (Dir.pages dir).mapZone virt virtEnd phys flags := by
  refine PageMap.ext (funext fun p => ?_) (funext fun i => ?_)
  · have hp : p * 0x1000 / 0x1000 = p := Nat.mul_div_cancel _ (by decide)
    have he := (mapZone_spec hle hlow hhigh h).2 (p * 0x1000)
    rw [hp] at he
    exact he
  · have hpage : virt / 0x1000 ≤ virtEnd / 0x1000 := Nat.div_le_div_right hle
    unfold mapZone at h
    split at h
    · cases h
    rw [turns_pages hpage] at h
    rw [mapPages_table (align_turns hpage) hhigh h, align_pd]
    simp only [PageMap.mapZone, Nat.succ_pos, true_and]

theorem mapZone_total (flags : Flags) (hz : Zone virt virtEnd phys phyEnd)
    (hs : Supplied s (Dir.pages dir) virt virtEnd) :
    ∃ dir' s', mapZone virt virtEnd phys phyEnd flags dir s = .ok (dir', s') := by
  have hpage : virt / 0x1000 ≤ virtEnd / 0x1000 := Nat.div_le_div_right hz.le
  have hmissing : (Dir.pages dir).missing (align virt) virtEnd =
      (Dir.pages dir).missing virt virtEnd := by
    unfold PageMap.missing
    rw [align_pd]
  unfold mapZone
  rw [if_neg (not_not_intro hz.same), turns_pages hpage]
  exact mapPages_total (align phys) flags (align_turns hpage) hz.high hs.fresh (hmissing ▸ hs.enough)

theorem unmapZone_pages (hle : virt ≤ virtEnd) :
    Dir.pages (unmapZone virt virtEnd dir) = (Dir.pages dir).unmapZone virt virtEnd := by
  have htable (n virt : Nat) (dir : Dir) :
      (Dir.pages (unmapPages n virt dir)).table = (Dir.pages dir).table := by
    induction n generalizing virt dir with
    | zero => rfl
    | succ n ih =>
      unfold unmapPages
      rw [ih]
      unfold unmapPage
      split
      · rfl
      · rename_i table hd
        funext i
        rw [Dir.pages_table, Dir.pages_table]
        by_cases hi : i = pdIndex virt
        · rw [hi, Function.update_self, hd]
          rfl
        · rw [Function.update_of_ne hi]
  refine PageMap.ext (funext fun p => ?_) (htable _ _ _)
  have hp : p * 0x1000 / 0x1000 = p := Nat.mul_div_cancel _ (by decide)
  have he := (unmapZone_spec dir hle).2 (p * 0x1000)
  rw [hp] at he
  exact he

end DominOS.Paging
