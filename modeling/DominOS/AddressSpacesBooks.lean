import DominOS.AddressSpacesSpec

/-! Who owns which frame: the blocks of a task, the page of an entry, and what a call does to
both. -/
namespace DominOS.AddressSpaces
open Paging Fallible Runs
open Process (TaskPtr ustackSzMax)

variable {m m' : Mem} {t u : TaskPtr} {space space' : Space} {code ssize : Nat} {o : StartOffers}
  {shp : Shp} {key : String} {v f : Nat} {e : Event} {lost : List (Nat × Nat)}

section PerTask
variable {α : Type} {g : TaskPtr → Space → List α} {spaces : TaskPtr → Option Space} {n : Nat}

def ofTasks (g : TaskPtr → Space → List α) (spaces : TaskPtr → Option Space) (n : Nat) : List α :=
  (List.range n).flatMap fun t => (spaces t).elim [] (g t)

theorem ofTasks_update (g : TaskPtr → Space → List α) (spaces : TaskPtr → Option Space) (ht : t < n) :
    ∃ rest, ∀ x, (ofTasks g (Function.update spaces t x) n).Perm (x.elim [] (g t) ++ rest) := by
  have hmem : t ∈ List.range n := List.mem_range.mpr ht
  refine ⟨((List.range n).erase t).flatMap fun u => (spaces u).elim [] (g u), fun x => ?_⟩
  have hsame : (((List.range n).erase t).flatMap fun u => (Function.update spaces t x u).elim [] (g u)) =
      ((List.range n).erase t).flatMap fun u => (spaces u).elim [] (g u) := by
    refine List.flatMap_congr fun u hu => ?_
    have hne : u ≠ t := by
      rintro rfl
      exact List.nodup_range.not_mem_erase hu
    rw [Function.update_of_ne hne]
  have h := (List.perm_cons_erase hmem).flatMap_right
    fun u => (Function.update spaces t x u).elim [] (g u)
  rwa [List.flatMap_cons, Function.update_self, hsame] at h

theorem ofTasks_start (g : TaskPtr → Space → List α) (spaces : TaskPtr → Option Space) (n : Nat)
    (space : Space) : (ofTasks g (Function.update spaces n (some space)) (n + 1)).Perm
    (g n space ++ ofTasks g spaces n) := by
  have hsame : (List.range n).flatMap (fun t => (Function.update spaces n (some space) t).elim [] (g t)) =
      ofTasks g spaces n := by
    refine List.flatMap_congr fun t ht => ?_
    rw [Function.update_of_ne (List.mem_range.mp ht).ne]
  unfold ofTasks at hsame ⊢
  rw [List.range_succ, List.flatMap_append, hsame, List.flatMap_singleton, Function.update_self]
  exact List.perm_append_comm

theorem ofTasks_split (g : TaskPtr → Space → List α) (ht : t < n) (hs : spaces t = some space) :
    ∃ rest, (ofTasks g spaces n).Perm (g t space ++ rest) ∧
      ∀ x, (ofTasks g (Function.update spaces t x) n).Perm (x.elim [] (g t) ++ rest) := by
  obtain ⟨rest, h⟩ := ofTasks_update g spaces ht
  have hold := h (some space)
  rw [← hs, Function.update_eq_self, hs] at hold
  exact ⟨rest, hold, h⟩

theorem ofTasks_redirected {new : List α} (ht : t < n) (hs : spaces t = some space)
    (hp : (g t space').Perm (new ++ g t space)) :
    (ofTasks g (Function.update spaces t (some space')) n).Perm (new ++ ofTasks g spaces n) := by
  obtain ⟨rest, hold, h⟩ := ofTasks_split g ht hs
  have hnew := (h (some space')).trans (hp.append_right rest)
  rw [List.append_assoc] at hnew
  exact hnew.trans (hold.symm.append_left new)

theorem ofTasks_freed (ht : t < n) (hs : spaces t = some space) :
    (ofTasks g spaces n).Perm (g t space ++ ofTasks g (Function.update spaces t none) n) := by
  obtain ⟨rest, hold, h⟩ := ofTasks_split g ht hs
  exact hold.trans ((h none).symm.append_left _)

theorem ofTasks_sole (ht : t < n) (hs : spaces t = some space) (h : ∀ u, u ≠ t → spaces u = none) :
    (ofTasks g spaces n).Perm (g t space) := by
  have hrest : ofTasks g (Function.update spaces t none) n = [] := by
    refine List.flatMap_eq_nil_iff.mpr fun u _ => ?_
    have hu : Function.update spaces t none u = none := by
      by_cases hu : u = t
      · rw [hu, Function.update_self]
      · rw [Function.update_of_ne hu, h u hu]
    rw [hu]
    rfl
  have hp := ofTasks_freed (g := g) ht hs
  rwa [hrest, List.append_nil] at hp

end PerTask

def framesOf (_ : TaskPtr) (space : Space) : List (Nat × Nat) := space.blocks

def heapOf (t : TaskPtr) (_ : Space) : List HeapBlock := [.kernelStack t, .task t]

namespace Mem

def blocks (m : Mem) : List (Nat × Nat) := ofTasks framesOf m.spaces m.fresh

def shared (m : Mem) : List (Nat × Nat) := m.shpTable.map fun shp => (shp.physicalAddress, 1)

def refs (key : String) (m : Mem) : Nat := m.held.countP fun r => r.2 = key

end Mem

/-- Each live frame belongs to a task, to an entry or to nobody; and the table of entries agrees
with the slots and with the references. -/
structure Books (m : Mem) (lost : List (Nat × Nat)) : Prop where
  valid : m.frames.Valid
  live : m.frames.live.Perm (m.blocks ++ (m.shared ++ lost))
  heap : m.heap.Perm (ofTasks heapOf m.spaces m.fresh)
  fresh : ∀ t, m.fresh ≤ t → m.spaces t = none
  keys : (m.shpTable.map Shp.key).Nodup
  slot : ∀ shp ∈ m.shpTable, ∃ i < pageMax, shp.virtualAddress = slotAddress i
  slots : ∀ i, m.virtualMap i = true ↔ ∃ shp ∈ m.shpTable, shp.virtualAddress = slotAddress i
  apart : (m.shpTable.map Shp.virtualAddress).Nodup
  counts : ∀ shp ∈ m.shpTable, shp.refcount = m.refs shp.key
  registered : ∀ r ∈ m.held, ∃ shp ∈ m.shpTable, shp.key = r.2

/-- Holders release, and the 64 bits of a refcount suffice. -/
def Counted (m : Mem) (e : Event) : Prop :=
  match e with
  | .shmAcquire _ (some key) _ => ∀ shp, m.hashGet key = some shp → shp.refcount + 1 < 2 ^ 64
  | .shmRelease t (some key) _ => (m.hashGet key).isSome → (t, key) ∈ m.held
  | _ => True

theorem hashGet_some (h : m.hashGet key = some shp) : shp ∈ m.shpTable ∧ shp.key = key :=
  ⟨List.mem_of_find?_eq_some h, by simpa using List.find?_some h⟩

theorem hashGet_none (h : m.hashGet key = none) : ∀ shp ∈ m.shpTable, shp.key ≠ key := by
  intro shp hm hk
  have h' := List.find?_eq_none.mp h shp hm
  simp [hk] at h'

theorem hashGet_of_mem (hm : shp ∈ m.shpTable) (hk : shp.key = key) : (m.hashGet key).isSome := by
  refine List.find?_isSome.mpr ⟨shp, hm, ?_⟩
  simp [hk]

theorem Books.unique {shp' : Shp} (hb : Books m lost) (h : shp ∈ m.shpTable)
    (h' : shp' ∈ m.shpTable) (hk : shp.key = shp'.key) : shp = shp' :=
  List.inj_on_of_nodup_map hb.keys h h' hk

theorem Books.frame_live (hb : Books m lost) (h : shp ∈ m.shpTable) :
    (shp.physicalAddress, 1) ∈ m.frames.live := by
  refine hb.live.mem_iff.mpr (List.mem_append_right _ (List.mem_append_left _ ?_))
  exact List.mem_map_of_mem h

theorem Books.lt (hb : Books m lost) (hs : m.spaces t = some space) : t < m.fresh := by
  by_contra hge
  rw [hb.fresh t (Nat.not_lt.mp hge)] at hs
  cases hs

inductive Change (m : Mem) : Event → Mem → Prop
  | started {code ssize : Nat} {o : StartOffers} {space : Space} {s : Frames} : Started m code ssize o space → s.Valid →
      s.live.Perm (space.blocks ++ m.frames.live) →
      Change m (.start code ssize o) { m with
        frames := s
        heap := .kernelStack m.fresh :: .task m.fresh :: m.heap
        spaces := Function.update m.spaces m.fresh (some space)
        fresh := m.fresh + 1 }
  | terminated {e : Event} {t : TaskPtr} (offers : List Nat) : m.Live t →
      Change m e ((m.withFrames (m.frames.offer offers)).terminate t)
  | freed {t : TaskPtr} {space : Space} {s : Frames} {heap : List HeapBlock} : m.spaces t = some space → m.zombie t = true →
      m.frames.live.Perm (space.blocks ++ s.live) →
      m.heap.Perm ([.kernelStack t, .task t] ++ heap) →
      Change m (.free t) { m with
        frames := s
        heap := heap
        spaces := Function.update m.spaces t none }
  | same {e : Event} (offers : List Nat) : Change m e (m.withFrames (m.frames.offer offers))
  | lost {t : TaskPtr} {key : String} {offers : List Nat} {a : Nat} {s : Frames} : s.Valid → s.live = (a, 1) :: m.frames.live →
      Change m (.shmCreate t (some key) offers) (m.withFrames s)
  | created {t : TaskPtr} {key : String} {offers : List Nat} {a i : Nat} {space space' : Space} {s₁ s : Frames} : m.Live t → m.spaces t = some space →
      ¬ (m.hashGet key).isSome → m.allocateMemory = some i → offers.head? = some a → s₁.Valid → s₁.live = (a, 1) :: m.frames.live →
      Redirected s₁ s space space' (slotAddress i) (some a) →
      Change m (.shmCreate t (some key) offers) { m with
        frames := s
        spaces := Function.update m.spaces t (some space')
        shpTable := ⟨a, slotAddress i, 1, key⟩ :: m.shpTable
        virtualMap := Function.update m.virtualMap i true
        held := (t, key) :: m.held }
  | acquired {t : TaskPtr} {key : String} {offers : List Nat} {shp : Shp} {space space' : Space} {s : Frames} : m.Live t → m.spaces t = some space →
      shp ∈ m.shpTable → shp.key = key →
      Redirected m.frames s space space' shp.virtualAddress (some shp.physicalAddress) →
      Change m (.shmAcquire t (some key) offers) { m.setRefcount key (shp.refcount + 1) with
        frames := s
        spaces := Function.update m.spaces t (some space')
        held := (t, key) :: m.held }
  | released {t : TaskPtr} {key : String} {inPage : Bool} {shp : Shp} {space space' : Space} {zombie : TaskPtr → Bool} : m.Live t →
      m.spaces t = some space → shp ∈ m.shpTable → shp.key = key → (t, key) ∈ m.held →
      1 < shp.refcount ∨ shp.refcount = 1 ∧ inPage = true →
      (∀ u, zombie u = false → m.zombie u = false) →
      Redirected m.frames m.frames space space' shp.virtualAddress none →
      Change m (.shmRelease t (some key) inPage) { m.setRefcount key (shp.refcount - 1) with
        spaces := Function.update m.spaces t (some space')
        zombie := zombie
        held := m.held.erase (t, key) }
  | returned {t : TaskPtr} {key : String} {shp : Shp} {space space' : Space} {s : Frames} {i : Nat} : m.Live t → m.spaces t = some space →
      shp ∈ m.shpTable → shp.key = key → (t, key) ∈ m.held → shp.refcount = 1 →
      shp.virtualAddress = slotAddress i →
      Redirected m.frames m.frames space space' shp.virtualAddress none →
      s.live = m.frames.live.erase (shp.physicalAddress, 1) →
      Change m (.shmRelease t (some key) false) { m with
        frames := s
        spaces := Function.update m.spaces t (some space')
        shpTable := m.shpTable.filter fun shp => shp.key != key
        virtualMap := Function.update m.virtualMap i false
        held := m.held.erase (t, key) }

theorem allocateMemory_some {i : Nat} (h : m.allocateMemory = some i) :
    i < pageMax ∧ m.virtualMap i = false :=
  ⟨List.mem_range.mp (List.mem_of_find?_eq_some h), by simpa using List.find?_some h⟩

theorem memFree_head {b : HeapBlock} {rest : List HeapBlock} (h : m.heap.Perm (b :: rest)) :
    ∃ heap, m.memFree b = .ok { m with heap := heap } ∧ heap.Perm rest := by
  have hm : b ∈ m.heap := h.mem_iff.mpr List.mem_cons_self
  have h' := h.erase b
  rw [List.erase_cons_head] at h'
  exact ⟨m.heap.erase b, if_pos hm, h'⟩

theorem freeTask_spec (hb : Books m lost) (hs : m.spaces t = some space) :
    ∃ s heap, m.freeTask t = .ok { m with
        frames := s
        heap := heap
        spaces := Function.update m.spaces t none } ∧
      m.frames.live.Perm (space.blocks ++ s.live) ∧
      m.heap.Perm ([.kernelStack t, .task t] ++ heap) := by
  have ht := hb.lt hs
  have hlive := hb.live.trans ((ofTasks_freed ht hs).append_right _)
  have hheap := hb.heap.trans (ofTasks_freed ht hs)
  rw [List.append_assoc] at hlive
  generalize ofTasks framesOf (Function.update m.spaces t none) m.fresh ++ (m.shared ++ lost) = rest
    at hlive
  have hdir := hlive
  unfold framesOf Space.blocks at hdir
  rw [List.append_assoc] at hdir
  obtain ⟨s₁, h₁, hp₁, _⟩ := pageDirectoryDestroy_eq hdir
  obtain ⟨s₂, h₂, hp₂, _⟩ := free_head hp₁
  obtain ⟨s₃, h₃, hp₃, _⟩ := free_head hp₂
  obtain ⟨heap₁, h₄, hq₁⟩ := memFree_head (m := m.withFrames s₃) hheap
  obtain ⟨heap₂, h₅, hq₂⟩ := memFree_head (m := { m.withFrames s₃ with heap := heap₁ }) hq₁
  refine ⟨s₃, heap₂, ?_, hlive.trans (hp₃.symm.append_left _), hheap.trans (hq₂.symm.append_left _)⟩
  unfold Mem.freeTask
  rw [hs]
  simp only [h₁, h₂, h₃, h₄, h₅, ok_bind]
  rfl

theorem shmCreate_change (hb : Books m lost) (hl : m.Live t) {key : Option String}
    {offers : List Nat} (h : (m.withFrames (m.frames.offer offers)).shmCreate t key = .ok m') :
    Change m (.shmCreate t key offers) m' := by
  unfold Mem.shmCreate at h
  cases key with
  | none =>
    cases h
    exact .terminated offers hl
  | some key =>
    simp only at h
    split at h
    · cases h
      exact .same offers
    rename_i hkey
    obtain ⟨⟨a, s₁⟩, halloc, h⟩ := bind_ok.mp h
    have hv₁ := (offer_valid hb.valid).alloc halloc
    obtain ⟨hl₁, ⟨hal, _, hend, _⟩, _⟩ := alloc_ok halloc
    split at h
    · cases h
      exact .lost hv₁ hl₁
    · rename_i i hslot
      obtain ⟨m₁, hmap, h⟩ := bind_ok.mp h
      cases h
      obtain ⟨space, space', s, hs, hr, rfl⟩ := mapShp_spec (allocateMemory_some hslot).1 rfl
        ⟨hal, (Nat.lt_add_of_pos_right (by decide)).trans_le hend⟩ hmap
      exact .created hl hs hkey hslot (alloc_head halloc) hv₁ hl₁ hr

theorem shmAcquire_change (hb : Books m lost) (hl : m.Live t) {key : Option String}
    {offers : List Nat} (hc : Counted m (.shmAcquire t key offers))
    (h : (m.withFrames (m.frames.offer offers)).shmAcquire t key = .ok m') :
    Change m (.shmAcquire t key offers) m' := by
  unfold Mem.shmAcquire at h
  cases key with
  | none =>
    cases h
    exact .terminated offers hl
  | some key =>
    simp only at h
    split at h
    · cases h
      exact .same offers
    · rename_i shp hget
      have hget : m.hashGet key = some shp := hget
      obtain ⟨hm, hkey⟩ := hashGet_some hget
      obtain ⟨i, hi, hslot⟩ := hb.slot shp hm
      obtain ⟨m₁, hmap, h⟩ := bind_ok.mp h
      cases h
      rw [Nat.mod_eq_of_lt (hc shp hget)] at hmap
      obtain ⟨space, space', s, hs, hr, rfl⟩ := mapShp_spec hi hslot
        (hb.valid.aligned _ (hb.frame_live hm)) hmap
      exact .acquired hl hs hm hkey ⟨hr.shape, hr.blocks, fun hv => hr.valid (offer_valid hv), hr.maps⟩

theorem filter_setRefcount (m : Mem) (key : String) (n : Nat) :
    (m.setRefcount key n).shpTable.filter (fun shp => shp.key != key) =
      m.shpTable.filter fun shp => shp.key != key := by
  unfold Mem.setRefcount
  induction m.shpTable with
  | nil => rfl
  | cons shp table ih =>
    rw [List.map_cons]
    by_cases hk : shp.key = key
    · rw [if_pos hk, List.filter_cons_of_neg (by simp [hk]), List.filter_cons_of_neg (by simp [hk]), ih]
    · rw [if_neg hk, List.filter_cons_of_pos (by simp [hk]), List.filter_cons_of_pos (by simp [hk]), ih]

theorem refs_pos (h : (t, key) ∈ m.held) : 0 < m.refs key :=
  List.countP_pos_iff.mpr ⟨_, h, decide_eq_true rfl⟩

theorem shmRelease_change (hb : Books m lost) (hl : m.Live t) {key : Option String} {inPage : Bool}
    (hc : Counted m (.shmRelease t key inPage)) (h : m.shmRelease t key inPage = .ok m') :
    Change m (.shmRelease t key inPage) m' := by
  unfold Mem.shmRelease at h
  cases key with
  | none =>
    cases h
    exact .terminated m.frames.offers hl
  | some key =>
    simp only at h
    split at h
    · cases h
      exact .same m.frames.offers
    · rename_i shp hget
      obtain ⟨hm, hkey⟩ := hashGet_some hget
      obtain ⟨i, hi, hslot⟩ := hb.slot shp hm
      have hheld := hc (Option.isSome_of_eq_some hget)
      have hpos : 0 < shp.refcount := by
        rw [hb.counts shp hm, hkey]
        exact refs_pos hheld
      obtain ⟨m₁, hmap, h⟩ := bind_ok.mp h
      obtain ⟨space, space', hs, hr, rfl⟩ := unmapShp_spec hslot hmap
      rw [if_neg hpos.ne'] at h
      split at h
      case isFalse hmore =>
        cases h
        exact .released hl hs hm hkey hheld (Or.inl (by omega)) (fun _ hz => hz) hr
      rename_i hzero
      unfold Mem.cleanUp at h
      cases inPage with
      | true =>
        rw [if_pos rfl] at h
        cases h
        refine .released hl hs hm hkey hheld (Or.inr ⟨by omega, rfl⟩) (fun u hu => ?_) hr
        by_cases hut : u = t
        · rw [hut]
          exact hl.2
        · exact (Function.update_of_ne hut ..).symm.trans hu
      | false =>
        rw [if_neg Bool.false_ne_true] at h
        obtain ⟨s, hfree, h⟩ := bind_ok.mp h
        cases h
        have hone : shp.refcount = 1 := by omega
        have hindex : (shp.virtualAddress - sharedStart) / pageSize = i := by
          rw [hslot]
          unfold slotAddress
          rw [Nat.add_sub_cancel_left, Nat.mul_div_cancel_left i (by decide)]
        have hfilter := filter_setRefcount m key (shp.refcount - 1)
        have hend := Change.returned hl hs hm hkey hheld hone hslot hr (free_ok hfree).2
        rw [← hfilter, ← hindex] at hend
        exact hend

theorem step_change (hb : Books m lost) (hc : Counted m e) (h : m.step e = .ok m') :
    Change m e m' := by
  cases e with
  | start code ssize o =>
    simp only [Mem.step] at h
    split at h
    · rename_i hs
      obtain ⟨space, hstarted, hv, hp, hm⟩ := startTask_spec hb.valid hs h
      rw [hm]
      exact .started hstarted hv hp
    · cases h
  | terminate t =>
    simp only [Mem.step] at h
    split at h
    · rename_i hl
      cases h
      exact .terminated m.frames.offers hl
    · cases h
  | free t =>
    simp only [Mem.step] at h
    split at h
    · rename_i hz
      cases hs : m.spaces t with
      | none =>
        unfold Mem.freeTask at h
        rw [hs] at h
        cases h
      | some space =>
        obtain ⟨s, heap, hfree, hp, hq⟩ := freeTask_spec hb hs
        rw [hfree] at h
        cases h
        exact .freed hs hz hp hq
    · cases h
  | shmCreate t key offers =>
    simp only [Mem.step] at h
    split at h
    · rename_i hl
      exact shmCreate_change hb hl h
    · cases h
  | shmAcquire t key offers =>
    simp only [Mem.step] at h
    split at h
    · rename_i hl
      exact shmAcquire_change hb hl hc h
    · cases h
  | shmRelease t key inPage =>
    simp only [Mem.step] at h
    split at h
    · rename_i hl
      exact shmRelease_change hb hl hc h
    · cases h

theorem fresh_update {x : Option Space} (hb : Books m lost) (ht : t < m.fresh) :
    ∀ u, m.fresh ≤ u → Function.update m.spaces t x u = none := by
  intro u hu
  rw [Function.update_of_ne (ht.trans_le hu).ne']
  exact hb.fresh u hu

section Table

theorem map_setRefcount {α : Type} {n : Nat} {g : Shp → α}
    (hg : ∀ shp n, g { shp with refcount := n } = g shp) :
    (m.setRefcount key n).shpTable.map g = m.shpTable.map g := by
  unfold Mem.setRefcount
  rw [List.map_map]
  refine List.map_congr_left fun shp _ => ?_
  change g (if shp.key = key then { shp with refcount := n } else shp) = g shp
  split
  · exact hg shp n
  · rfl

theorem mem_setRefcount {n : Nat} (h : shp ∈ (m.setRefcount key n).shpTable) :
    ∃ old ∈ m.shpTable, shp.key = old.key ∧ shp.virtualAddress = old.virtualAddress ∧
      shp.physicalAddress = old.physicalAddress ∧
      shp.refcount = if old.key = key then n else old.refcount := by
  obtain ⟨old, hold, rfl⟩ := List.mem_map.mp h
  refine ⟨old, hold, ?_⟩
  split <;> exact ⟨rfl, rfl, rfl, rfl⟩

theorem mem_setRefcount_of (k : String) (n : Nat) (h : shp ∈ m.shpTable) :
    ∃ new ∈ (m.setRefcount k n).shpTable, new.key = shp.key ∧
      new.virtualAddress = shp.virtualAddress ∧ new.physicalAddress = shp.physicalAddress := by
  refine ⟨_, List.mem_map_of_mem h, ?_⟩
  split <;> exact ⟨rfl, rfl, rfl⟩

theorem mem_filter {shp' : Shp} :
    shp' ∈ m.shpTable.filter (fun shp => shp.key != key) ↔ shp' ∈ m.shpTable ∧ shp'.key ≠ key := by
  simp

theorem Books.split (hb : Books m lost) (hm : shp ∈ m.shpTable) (hk : shp.key = key) :
    m.shpTable.Perm (shp :: m.shpTable.filter fun shp => shp.key != key) := by
  have hnd : m.shpTable.Nodup := hb.keys.of_map
  refine (List.perm_ext_iff_of_nodup hnd (List.nodup_cons.mpr ⟨?_, hnd.filter _⟩)).mpr fun shp' => ?_
  · exact fun h => (mem_filter.mp h).2 hk
  · rw [List.mem_cons, mem_filter]
    refine ⟨fun h => ?_, fun h => h.elim (fun h => h ▸ hm) And.left⟩
    by_cases he : shp'.key = key
    · exact Or.inl (hb.unique h hm (he.trans hk.symm))
    · exact Or.inr ⟨h, he⟩

theorem Books.one_slot {shp' : Shp} (hb : Books m lost) (hm : shp ∈ m.shpTable)
    (hm' : shp' ∈ m.shpTable) (h : shp'.virtualAddress = shp.virtualAddress) : shp' = shp :=
  List.inj_on_of_nodup_map hb.apart hm' hm h

end Table

section Counts

theorem refs_cons (key' : String) (h : m'.held = (t, key) :: m.held) :
    m'.refs key' = m.refs key' + if key = key' then 1 else 0 := by
  unfold Mem.refs
  rw [h, List.countP_cons]
  simp

theorem refs_erase (key' : String) (r : Mem) (hm : (t, key) ∈ m.held)
    (h : r.held = m.held.erase (t, key)) :
    m.refs key' = r.refs key' + if key = key' then 1 else 0 := by
  have hp := (List.perm_cons_erase hm).countP_eq (fun r => r.2 = key')
  rw [← h, List.countP_cons] at hp
  unfold Mem.refs
  rw [hp]
  simp

end Counts

theorem Books.recounted (hb : Books m lost) (k : String) (n : Nat) (r : Mem)
    (ht : r.shpTable = (m.setRefcount k n).shpTable) (hm : r.virtualMap = m.virtualMap) :
    (r.shpTable.map Shp.key).Nodup ∧ (r.shpTable.map Shp.virtualAddress).Nodup ∧
      r.shared = m.shared ∧
      (∀ shp ∈ r.shpTable, ∃ i < pageMax, shp.virtualAddress = slotAddress i) ∧
      ∀ i, r.virtualMap i = true ↔ ∃ shp ∈ r.shpTable, shp.virtualAddress = slotAddress i := by
  unfold Mem.shared
  rw [ht, hm, map_setRefcount fun _ _ => rfl, map_setRefcount fun _ _ => rfl,
    map_setRefcount fun _ _ => rfl]
  refine ⟨hb.keys, hb.apart, rfl, fun shp hshp => ?_, fun i => (hb.slots i).trans ?_⟩
  · obtain ⟨old, hold, _, hva, _⟩ := mem_setRefcount hshp
    rw [hva]
    exact hb.slot old hold
  · constructor
    · rintro ⟨shp, hshp, hva⟩
      obtain ⟨new, hnew, _, hva', _⟩ := mem_setRefcount_of k n hshp
      exact ⟨new, hnew, hva'.trans hva⟩
    · rintro ⟨shp, hshp, hva⟩
      obtain ⟨old, hold, _, hva', _⟩ := mem_setRefcount hshp
      exact ⟨old, hold, hva'.symm.trans hva⟩

theorem Redirected.live {s s' : Frames} {virt : Nat} {target : Option Nat} {rest : List (Nat × Nat)}
    (hr : Redirected s s' space space' virt target) (ht : t < m.fresh) (hs : m.spaces t = some space)
    (hp : s.live.Perm (m.blocks ++ rest)) :
    s'.live.Perm (ofTasks framesOf (Function.update m.spaces t (some space')) m.fresh ++ rest) := by
  obtain ⟨new, hlive, hblocks⟩ := hr.blocks
  have hall := hlive.trans (hp.append_left new)
  rw [← List.append_assoc] at hall
  exact hall.trans ((ofTasks_redirected (g := framesOf) ht hs hblocks).symm.append_right rest)

theorem heap_redirected (hb : Books m lost) (hs : m.spaces t = some space) :
    m.heap.Perm (ofTasks heapOf (Function.update m.spaces t (some space')) m.fresh) :=
  hb.heap.trans (ofTasks_redirected (g := heapOf) (hb.lt hs) hs
    (show (heapOf t space').Perm ([] ++ heapOf t space) from .refl _)).symm

theorem Books.started {s : Frames} (hb : Books m lost) (hv : s.Valid)
    (hp : s.live.Perm (space.blocks ++ m.frames.live)) : Books { m with
      frames := s
      heap := .kernelStack m.fresh :: .task m.fresh :: m.heap
      spaces := Function.update m.spaces m.fresh (some space)
      fresh := m.fresh + 1 } lost := by
  refine { hb with valid := hv, live := ?_, heap := ?_, fresh := ?_ }
  · have hblocks := (ofTasks_start framesOf m.spaces m.fresh space).symm
    have hlive := hp.trans (hb.live.append_left space.blocks)
    rw [← List.append_assoc] at hlive
    exact hlive.trans (hblocks.append_right _)
  · exact ((hb.heap.cons _).cons _).trans
      (ofTasks_start heapOf m.spaces m.fresh space).symm
  · intro u hu
    have hlt : m.fresh < u := hu
    exact (Function.update_of_ne hlt.ne' ..).trans (hb.fresh u hlt.le)

theorem Books.freed {s : Frames} {heap : List HeapBlock} (hb : Books m lost)
    (hs : m.spaces t = some space) (hp : m.frames.live.Perm (space.blocks ++ s.live))
    (hq : m.heap.Perm ([.kernelStack t, .task t] ++ heap)) : Books { m with
      frames := s
      heap := heap
      spaces := Function.update m.spaces t none } lost := by
  refine { hb with
    valid := hb.valid.part hp
    live := ?_
    heap := ?_
    fresh := fresh_update hb (hb.lt hs) }
  · have hlive := hp.symm.trans (hb.live.trans ((ofTasks_freed (hb.lt hs) hs).append_right _))
    rw [List.append_assoc] at hlive
    exact (List.perm_append_left_iff _).mp hlive
  · exact (List.perm_append_left_iff _).mp
      (hq.symm.trans (hb.heap.trans (ofTasks_freed (hb.lt hs) hs)))

theorem Books.created {a i : Nat} {s₁ s : Frames} (hb : Books m lost) (hs : m.spaces t = some space)
    (hkey : ¬ (m.hashGet key).isSome) (hslot : m.allocateMemory = some i) (hv : s₁.Valid)
    (hl : s₁.live = (a, 1) :: m.frames.live)
    (hr : Redirected s₁ s space space' (slotAddress i) (some a)) : Books { m with
      frames := s
      spaces := Function.update m.spaces t (some space')
      shpTable := ⟨a, slotAddress i, 1, key⟩ :: m.shpTable
      virtualMap := Function.update m.virtualMap i true
      held := (t, key) :: m.held } lost := by
  have hnew := hashGet_none (Option.not_isSome_iff_eq_none.mp hkey)
  obtain ⟨hi, hfree⟩ := allocateMemory_some hslot
  have hslots : ∀ shp ∈ m.shpTable, shp.virtualAddress ≠ slotAddress i := by
    intro shp hm hva
    have htaken := (hb.slots i).mpr ⟨shp, hm, hva⟩
    rw [hfree] at htaken
    cases htaken
  have hnone : m.refs key = 0 := by
    refine List.countP_eq_zero.mpr fun r hr hk => ?_
    obtain ⟨shp, hm, hkey⟩ := hb.registered r hr
    exact hnew shp hm (hkey.trans (of_decide_eq_true hk))
  refine {
    valid := hr.valid hv
    live := ?_
    heap := heap_redirected hb hs
    fresh := fresh_update hb (hb.lt hs)
    keys := List.nodup_cons.mpr ⟨fun h => ?_, hb.keys⟩
    slot := List.forall_mem_cons.mpr ⟨⟨i, hi, rfl⟩, hb.slot⟩
    slots := fun j => ?_
    apart := List.nodup_cons.mpr ⟨fun h => ?_, hb.apart⟩
    counts := List.forall_mem_cons.mpr ⟨?_, fun shp hm => ?_⟩
    registered := List.forall_mem_cons.mpr ⟨⟨_, List.mem_cons_self, rfl⟩, fun r hr => ?_⟩ }
  · refine hr.live (hb.lt hs) hs ?_
    rw [hl]
    exact (hb.live.cons _).trans List.perm_middle.symm
  · obtain ⟨shp, hm, hkey⟩ := List.mem_map.mp h
    exact hnew shp hm hkey
  · by_cases hj : j = i
    · rw [hj]
      exact ⟨fun _ => ⟨_, List.mem_cons_self, rfl⟩, fun _ => Function.update_self ..⟩
    · have hsame : Function.update m.virtualMap i true j = m.virtualMap j :=
        Function.update_of_ne hj ..
      refine (iff_of_eq (congrArg (· = true) hsame)).trans ((hb.slots j).trans ?_)
      refine ⟨fun ⟨shp, hm, hva⟩ => ⟨shp, List.mem_cons_of_mem _ hm, hva⟩, fun ⟨shp, hm, hva⟩ => ?_⟩
      rcases List.mem_cons.mp hm with rfl | hm
      · exact absurd (slot_inj hva).symm hj
      · exact ⟨shp, hm, hva⟩
  · obtain ⟨shp, hm, hva⟩ := List.mem_map.mp h
    exact hslots shp hm hva
  · rw [refs_cons (m := m) (t := t) key rfl, if_pos rfl, hnone]
  · rw [refs_cons (m := m) (t := t) shp.key rfl, if_neg (hnew shp hm).symm]
    exact hb.counts shp hm
  · obtain ⟨shp, hm, hkey⟩ := hb.registered r hr
    exact ⟨shp, List.mem_cons_of_mem _ hm, hkey⟩

theorem Books.acquired {s : Frames} (hb : Books m lost) (hs : m.spaces t = some space)
    (hm : shp ∈ m.shpTable) (hk : shp.key = key)
    (hr : Redirected m.frames s space space' shp.virtualAddress (some shp.physicalAddress)) :
    Books { m.setRefcount key (shp.refcount + 1) with
      frames := s
      spaces := Function.update m.spaces t (some space')
      held := (t, key) :: m.held } lost := by
  obtain ⟨hkeys, hapart, hshared, hslot, hslots⟩ := hb.recounted key (shp.refcount + 1)
    { m.setRefcount key (shp.refcount + 1) with
      frames := s
      spaces := Function.update m.spaces t (some space')
      held := (t, key) :: m.held } rfl rfl
  refine {
    valid := hr.valid hb.valid
    live := hshared ▸ hr.live (hb.lt hs) hs hb.live
    heap := heap_redirected hb hs
    fresh := fresh_update hb (hb.lt hs)
    keys := hkeys
    slot := hslot
    slots := hslots
    apart := hapart
    counts := fun shp' hshp' => ?_
    registered := List.forall_mem_cons.mpr ⟨?_, fun r hr => ?_⟩ }
  · obtain ⟨old, hold, hkey, _, _, hcount⟩ := mem_setRefcount hshp'
    rw [refs_cons (m := m) (t := t) shp'.key rfl, hcount, hkey, ← hb.counts old hold]
    by_cases he : old.key = key
    · have hsame := hb.unique hold hm (he.trans hk.symm)
      rw [if_pos he, if_pos he.symm, hsame]
    · rw [if_neg he, if_neg (Ne.symm he), Nat.add_zero]
  · obtain ⟨new, hnew, hkey, _⟩ := mem_setRefcount_of key (shp.refcount + 1) hm
    exact ⟨new, hnew, hkey.trans hk⟩
  · obtain ⟨old, hold, hkey⟩ := hb.registered r hr
    obtain ⟨new, hnew, hkey', _⟩ := mem_setRefcount_of key (shp.refcount + 1) hold
    exact ⟨new, hnew, hkey'.trans hkey⟩

theorem Books.released (hb : Books m lost) (hs : m.spaces t = some space) (hm : shp ∈ m.shpTable)
    (hk : shp.key = key) (hheld : (t, key) ∈ m.held) (zombie : TaskPtr → Bool)
    (hr : Redirected m.frames m.frames space space' shp.virtualAddress none) :
    Books { m.setRefcount key (shp.refcount - 1) with
      spaces := Function.update m.spaces t (some space')
      zombie := zombie
      held := m.held.erase (t, key) } lost := by
  obtain ⟨hkeys, hapart, hshared, hslot, hslots⟩ := hb.recounted key (shp.refcount - 1)
    { m.setRefcount key (shp.refcount - 1) with
      spaces := Function.update m.spaces t (some space')
      zombie := zombie
      held := m.held.erase (t, key) } rfl rfl
  refine {
    valid := hb.valid
    live := hshared ▸ hr.live (hb.lt hs) hs hb.live
    heap := heap_redirected hb hs
    fresh := fresh_update hb (hb.lt hs)
    keys := hkeys
    slot := hslot
    slots := hslots
    apart := hapart
    counts := fun shp' hshp' => ?_
    registered := fun r hr => ?_ }
  · obtain ⟨old, hold, hkey, _, _, hcount⟩ := mem_setRefcount hshp'
    have hrefs := refs_erase old.key { m.setRefcount key (shp.refcount - 1) with
      spaces := Function.update m.spaces t (some space')
      zombie := zombie
      held := m.held.erase (t, key) } hheld rfl
    rw [← hb.counts old hold] at hrefs
    rw [hcount, hkey]
    by_cases he : old.key = key
    · have hsame := hb.unique hold hm (he.trans hk.symm)
      rw [if_pos he.symm, hsame] at hrefs
      rw [if_pos he, hsame]
      omega
    · rw [if_neg (Ne.symm he)] at hrefs
      rw [if_neg he]
      exact hrefs
  · obtain ⟨old, hold, hkey⟩ := hb.registered r (List.mem_of_mem_erase hr)
    obtain ⟨new, hnew, hkey', _⟩ := mem_setRefcount_of key (shp.refcount - 1) hold
    exact ⟨new, hnew, hkey'.trans hkey⟩

theorem Books.returned {s : Frames} {i : Nat} (hb : Books m lost) (hs : m.spaces t = some space)
    (hm : shp ∈ m.shpTable) (hk : shp.key = key) (hheld : (t, key) ∈ m.held) (hone : shp.refcount = 1)
    (hslot : shp.virtualAddress = slotAddress i)
    (hr : Redirected m.frames m.frames space space' shp.virtualAddress none)
    (hfree : s.live = m.frames.live.erase (shp.physicalAddress, 1)) : Books { m with
      frames := s
      spaces := Function.update m.spaces t (some space')
      shpTable := m.shpTable.filter fun shp => shp.key != key
      virtualMap := Function.update m.virtualMap i false
      held := m.held.erase (t, key) } lost := by
  have hlast : m.refs key = 1 := by
    rw [← hk, ← hb.counts shp hm, hone]
  have herase := refs_erase key { m with held := m.held.erase (t, key) } hheld rfl
  rw [if_pos rfl, hlast] at herase
  have hgone : ∀ r ∈ m.held.erase (t, key), r.2 ≠ key := fun r hr hkey =>
    (List.countP_eq_zero.mp (Nat.succ.inj herase).symm) r hr (decide_eq_true hkey)
  have hsplit := hb.split hm hk
  have hshared : m.shared.Perm ((shp.physicalAddress, 1) ::
      (m.shpTable.filter fun shp => shp.key != key).map fun shp => (shp.physicalAddress, 1)) :=
    hsplit.map _
  have hlive' := ((hr.live (hb.lt hs) hs hb.live).trans
    ((hshared.append_right lost).append_left _)).trans List.perm_middle
  have hlive'' : s.live.Perm (ofTasks framesOf (Function.update m.spaces t (some space')) m.fresh ++
      ((m.shpTable.filter fun shp => shp.key != key).map (fun shp => (shp.physicalAddress, 1)) ++
        lost)) := by
    have h' := hlive'.erase (shp.physicalAddress, 1)
    rw [List.erase_cons_head] at h'
    rw [hfree]
    exact h'
  refine {
    valid := ?_
    live := ?_
    heap := heap_redirected hb hs
    fresh := fresh_update hb (hb.lt hs)
    keys := (List.filter_sublist.map _).nodup hb.keys
    slot := fun shp' h' => hb.slot shp' (mem_filter.mp h').1
    slots := fun j => ?_
    apart := (List.filter_sublist.map _).nodup hb.apart
    counts := fun shp' h' => ?_
    registered := fun r hr => ?_ }
  · refine hb.valid.part (l := [(shp.physicalAddress, 1)]) ?_
    exact hlive'.trans (hlive''.symm.cons _)
  · exact hlive''
  · by_cases hj : j = i
    · rw [hj]
      refine iff_of_false (fun h => ?_) fun ⟨shp', h', hva⟩ => ?_
      · exact absurd ((Function.update_self i false m.virtualMap).symm.trans h) (by decide)
      · obtain ⟨hm', hkey⟩ := mem_filter.mp h'
        exact hkey ((hb.one_slot hm hm' (hva.trans hslot.symm)) ▸ hk)
    · have hsame : Function.update m.virtualMap i false j = m.virtualMap j :=
        Function.update_of_ne hj ..
      refine (iff_of_eq (congrArg (· = true) hsame)).trans ((hb.slots j).trans ?_)
      refine ⟨fun ⟨shp', hm', hva⟩ => ⟨shp', mem_filter.mpr ⟨hm', fun hkey => ?_⟩, hva⟩,
        fun ⟨shp', h', hva⟩ => ⟨shp', (mem_filter.mp h').1, hva⟩⟩
      rw [hb.unique hm' hm (hkey.trans hk.symm), hslot] at hva
      exact hj (slot_inj hva).symm
  · obtain ⟨hm', hkey⟩ := mem_filter.mp h'
    have hrefs := refs_erase shp'.key { m with
      frames := s
      spaces := Function.update m.spaces t (some space')
      shpTable := m.shpTable.filter fun shp => shp.key != key
      virtualMap := Function.update m.virtualMap i false
      held := m.held.erase (t, key) } hheld rfl
    rw [if_neg (Ne.symm hkey), ← hb.counts shp' hm'] at hrefs
    exact hrefs
  · obtain ⟨old, hold, hkey⟩ := hb.registered r (List.mem_of_mem_erase hr)
    exact ⟨old, mem_filter.mpr ⟨hold, hkey ▸ hgone r hr⟩, hkey⟩

theorem Change.books (hb : Books m lost) (h : Change m e m') : ∃ lost', Books m' lost' := by
  cases h with
  | started hstarted hv hp => exact ⟨lost, hb.started hv hp⟩
  | terminated offers hl => exact ⟨lost, { hb with valid := offer_valid hb.valid }⟩
  | freed hs hz hp hq => exact ⟨lost, hb.freed hs hp hq⟩
  | same => exact ⟨lost, { hb with valid := offer_valid hb.valid }⟩
  | @lost t key offers a s hv hl =>
    refine ⟨(a, 1) :: lost, { hb with valid := hv, live := ?_ }⟩
    have hp : s.live.Perm (m.blocks ++ (a, 1) :: (m.shared ++ lost)) := by
      rw [hl]
      exact (hb.live.cons _).trans List.perm_middle.symm
    exact hp.trans (List.perm_middle.symm.append_left _)
  | created _ hs hkey hslot _ hv hl hr => exact ⟨lost, hb.created hs hkey hslot hv hl hr⟩
  | acquired _ hs hm hk hr => exact ⟨lost, hb.acquired hs hm hk hr⟩
  | released _ hs hm hk hheld _ _ hr => exact ⟨lost, hb.released hs hm hk hheld _ hr⟩
  | returned _ hs hm hk hheld hone hslot hr hfree =>
    exact ⟨lost, hb.returned hs hm hk hheld hone hslot hr hfree⟩

end DominOS.AddressSpaces
