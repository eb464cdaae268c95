import DominOS.Runs
import DominOS.ShmSpec

/-! The shared pages over any run of the three calls by any processes. -/
namespace DominOS.Shm
open HashTable Paging Leases Runs
open AddressSpaces (slotAddress sharedStart pageMax slot_inj slot_page)
open Process (TaskPtr)

/-- The state, and what `shm_create` has returned last for each string; the latter is not in the source. -/
structure System where
  state : State
  created : CString → Nat

variable {x y : System} {s s' : State} {env : Surroundings} {book book' : CString → Option Shp} {c : Call}
  {ending : Ending} {string : CString} {key : Ptr} {shp : Shp} {i : Nat}

section Machine

def Booted (x : System) : Prop :=
  (∃ heap map, HashMap.hashInit heap map = (0, x.state.shpTable) ∧ map.refused = false) ∧
    x.state.shps = (fun _ => none) ∧ x.state.keys = (fun _ => none) ∧
    x.state.virtualMap = (fun _ => false) ∧ x.state.frames.Valid

def System.note (env : Surroundings) (c : Call) (ending : Ending) (x : System) : CString → Nat :=
  match c, ending with
  | .create key, .returns addr =>
    if addr = 0 then x.created else Function.update x.created (x.state.strings env key) addr
  | _, _ => x.created

/-- `mem_alloc` succeeds, and the table gets its slots. -/
structure Served (env : Surroundings) (s s' : State) : Prop where
  fresh : env.Fresh s
  key : env.keyAlloc.isSome
  shp : env.shpAlloc.isSome
  table : s'.shpTable.refused = false

/-- Any process calls, where `allowed` holds, and the kernel goes on. -/
inductive Step (allowed : Surroundings → Call → State → Prop) : System → System → Prop where
  | call {x : System} {s' : State} {ending : Ending} (env : Surroundings) (t : TaskPtr) (c : Call) :
      x.state.call env t c = (ending, s') → ending.Continues → Served env x.state s' →
      allowed env c x.state → Step allowed x ⟨s', x.note env c ending⟩

def State.find (env : Surroundings) (key : Ptr) (s : State) : Option Shp := do
  let p ← s.shpTable.hashGet (s.funcs env) key 0
  s.shps p

/-- No reference is taken to an entry that has 2 ^ 64 - 1 of them, and no last one is given back with a
key in the page. -/
def Careful (env : Surroundings) (c : Call) (s : State) : Prop :=
  match c with
  | .create _ => True
  | .acquire key => ∀ shp, s.find env key = some shp → shp.refcount + 1 ≠ 0
  | .release key => ∀ string shp, s.read env key = some string → s.find env key = some shp →
      shp.refcount = 1 → ¬ State.InPage shp.virtualAddress key string

end Machine

section Invariant

theorem Linked.find {pointers : Content → Option Ptr} (h : Linked s pointers book)
    (hr : s.read env key = some string) (hb : book string = some shp) : s.find env key = some shp := by
  obtain ⟨p, hp, hshp⟩ := h.booked string shp hb
  unfold State.find
  rw [h.hashGet hr, hp]
  exact hshp

def Inv (x : System) : Prop :=
  ∃ pointers book, Linked x.state pointers book ∧ Tidy x.state book ∧
    ∀ string shp, book string = some shp → x.created string = shp.virtualAddress

theorem booted_inv (h : Booted x) : Inv x := by
  obtain ⟨hmade, hshps, hkeys, hmap, hvalid⟩ := h
  have hsound (env : Surroundings) : Sound (Mode.string.content (x.state.strings env)) Content.hashed
      x.state.shpTable (fun _ => none) ∧ Light x.state.shpTable := by
    obtain ⟨heap, map, hinit, hserved⟩ := hmade
    exact made_sound (x := ⟨x.state.shpTable, x.state.strings env, fun _ => none⟩)
      ⟨heap, map, hinit, hserved, rfl⟩ .string
  let env : Surroundings := ⟨none, none, ⟨fun _ => false, nofun⟩, [], fun _ => none⟩
  refine ⟨fun _ => none, fun _ => none, ⟨fun env => (hsound env).1, (hsound env).2, ?_, nofun, nofun⟩,
    ⟨hvalid, nofun, nofun, nofun, ?_, nofun⟩, nofun⟩
  · intro i key p hash hi
    exact absurd (((hsound env).1.holds _ p).mpr ⟨i, key, hash, hi, rfl⟩) nofun
  · intro addr
    constructor
    · rintro ⟨i, _, _, htaken⟩
      rw [hmap] at htaken
      cases htaken
    · rintro ⟨_, _, hb, _⟩
      cases hb

theorem Booked.created_eq (hb : Booked env x.state book c ending book')
    (hnew : ∀ string shp, book' string = some shp → shp.virtualAddress ≠ 0)
    (h : ∀ string shp, book string = some shp → x.created string = shp.virtualAddress) :
    ∀ string shp, book' string = some shp → x.note env c ending string = shp.virtualAddress := by
  intro string shp hshp
  cases hb with
  | same hzero =>
    unfold System.note
    split
    · rw [if_pos (hzero _ rfl)]
      exact h string shp hshp
    · exact h string shp hshp
  | @created key string' shp' hr hnone =>
    have hne := hnew string' shp' (Function.update_self ..)
    unfold System.note
    simp only [if_neg hne, strings_read hr]
    rcases update_some.mp hshp with ⟨rfl, he⟩ | ⟨hs, hshp⟩
    · cases he
      exact Function.update_self ..
    · exact (Function.update_of_ne hs ..).trans (h string shp hshp)
  | acquired hr hbook =>
    have hold := h _ _ hbook
    rcases update_some.mp hshp with ⟨rfl, he⟩ | ⟨_, hshp⟩
    · cases he
      exact hold
    · exact h string shp hshp
  | released hr hbook =>
    have hold := h _ _ hbook
    rcases update_some.mp hshp with ⟨rfl, he⟩ | ⟨_, hshp⟩
    · cases he
      exact hold
    · exact h string shp hshp
  | removed hr hbook => exact h string shp ((update_some.mp hshp).resolve_left nofun).2

theorem Tidy.address (h : Tidy s book) (hb : book string = some shp) :
    shp.virtualAddress % 0x1000 = 0 ∧ 0xfff00000 ≤ shp.virtualAddress ∧
      shp.virtualAddress + 0xfff ≤ 0xffffffff := by
  obtain ⟨i, hi, hva, _⟩ := h.slot hb
  rw [hva]
  unfold pageMax at hi
  unfold slotAddress sharedStart pageSize
  omega

theorem step_inv (hs : Step Careful x y) (h : Inv x) : Inv y := by
  obtain ⟨pointers, book, hlinked, htidy, hcreated⟩ := h
  cases hs with
  | @call s' ending env t c hcall hgo hserved hcareful =>
    have hfollows : Follows env x.state book c ending s' := by
      cases c with
      | create key =>
        exact shmCreate_spec hlinked htidy hserved.fresh hserved.key hserved.shp hcall hgo hserved.table
      | acquire key =>
        apply shmAcquire_spec hlinked htidy hcall hgo
        exact fun string shp hr hb => hcareful shp (hlinked.find hr hb)
      | release key =>
        apply shmRelease_spec hlinked htidy hcall hgo hserved.table
        exact fun string shp hr hb => hcareful string shp hr (hlinked.find hr hb)
    obtain ⟨pointers', book', hlinked', htidy', hbooked⟩ := hfollows
    refine ⟨pointers', book', hlinked', htidy', hbooked.created_eq ?_ hcreated⟩
    · intro string shp hb
      have := htidy'.address hb
      omega

end Invariant

section Consistency

def Entry (s : State) (i : Nat) (key : Ptr) (shp : Shp) : Prop :=
  i < s.shpTable.size ∧ ∃ p hash, s.shpTable.table i = .active key p hash ∧ s.shps p = some shp

structure Consistent (x : System) : Prop where
  structs : ∀ i key p hash, x.state.shpTable.table i = .active key p hash → ∃ shp, Entry x.state i key shp
  keys : ∀ i j key key' shp shp', Entry x.state i key shp → Entry x.state j key' shp' →
    x.state.keys key = x.state.keys key' → i = j
  frames : ∀ i j key key' shp shp', Entry x.state i key shp → Entry x.state j key' shp' →
    shp.physicalAddress = shp'.physicalAddress → i = j
  live : ∀ i key shp, Entry x.state i key shp → (shp.physicalAddress, 1) ∈ x.state.frames.live
  addresses : ∀ i j key key' shp shp', Entry x.state i key shp → Entry x.state j key' shp' →
    shp.virtualAddress = shp'.virtualAddress → i = j
  range : ∀ i key shp, Entry x.state i key shp → shp.virtualAddress % 0x1000 = 0 ∧
    0xfff00000 ≤ shp.virtualAddress ∧ shp.virtualAddress + 0xfff ≤ 0xffffffff
  slots : ∀ n < 256, x.state.virtualMap n = true ↔
    ∃ i key shp, Entry x.state i key shp ∧ shp.virtualAddress = 0xfff00000 + 4096 * n
  counted : ∀ i key shp, Entry x.state i key shp → 1 ≤ shp.refcount.toNat
  stored : ∀ i key shp, Entry x.state i key shp →
    ∃ string, x.state.keys key = some string ∧ x.state.keys shp.key = some string
  acquired : ∀ env t p i key shp, Entry x.state i key shp → x.state.read env p = x.state.keys key →
    ∀ ending s', x.state.shmAcquire env t p = (ending, s') →
      (∃ string, x.state.keys key = some string ∧ ending = .returns (x.created string)) ∨
        ∃ fault, ending = .stops fault

variable {pointers : Content → Option Ptr} {key' : Ptr} {shp' : Shp} {j : Nat}

theorem Linked.of_entry (h : Linked s pointers book) (he : Entry s i key shp) :
    ∃ string, key ≠ 0 ∧ s.keys key = some string ∧ shp.key = key ∧ book string = some shp := by
  obtain ⟨_, p, hash, hi, hshp⟩ := he
  obtain ⟨string, shp', hshp', hown, hne, hkey, hbook, _⟩ := h.slot hi
  cases hshp.symm.trans hshp'
  exact ⟨string, hne, hkey, hown, hbook⟩

theorem Linked.one_slot (h : Linked s pointers book) (he : Entry s i key shp) (he' : Entry s j key' shp')
    (hk : s.keys key = s.keys key') : i = j := by
  obtain ⟨string, hne, hkey, _⟩ := h.of_entry he
  obtain ⟨string', hne', hkey', _⟩ := h.of_entry he'
  obtain ⟨_, p, hash, hi, _⟩ := he
  obtain ⟨_, p', hash', hj, _⟩ := he'
  rw [hkey, hkey', Option.some.injEq] at hk
  let env : Surroundings := ⟨none, none, ⟨fun _ => false, nofun⟩, [], fun _ => none⟩
  apply (h.sound env).placed.distinct i j key key' p p' hash hash' hi hj
  simp only [Mode.content, strings_key hne hkey, strings_key hne' hkey', hk]

theorem Linked.exclusive {R : Type} {of : Shp → R} (h : Linked s pointers book) (hx : Exclusive of book)
    (he : Entry s i key shp) (he' : Entry s j key' shp') (heq : of shp = of shp') : i = j := by
  obtain ⟨string, _, hkey, _, hbook⟩ := h.of_entry he
  obtain ⟨string', _, hkey', _, hbook'⟩ := h.of_entry he'
  apply h.one_slot he he'
  rw [hkey, hkey', hx string string' shp shp' hbook hbook' heq]

theorem Linked.entry_of (h : Linked s pointers book) (hb : book string = some shp) :
    ∃ i key, Entry s i key shp := by
  let env : Surroundings := ⟨none, none, ⟨fun _ => false, nofun⟩, [], fun _ => none⟩
  obtain ⟨p, hp, hshp⟩ := h.booked string shp hb
  obtain ⟨i, key, hash, hi, _⟩ := ((h.sound env).holds _ p).mp hp
  exact ⟨i, key, ((h.sound env).placed.leads i key p hash hi).lt, p, hash, hi, hshp⟩

theorem shmAcquire_returns {t : TaskPtr} (h : Linked s pointers book) (hr : s.read env key = some string)
    (hb : book string = some shp) (hc : s.shmAcquire env t key = (ending, s')) :
    ending = .returns shp.virtualAddress ∨ ∃ fault, ending = .stops fault := by
  obtain ⟨p, hp, hshp⟩ := h.booked string shp hb
  have hp0 : p ≠ 0 := by
    obtain ⟨_, _, _, hp0, _⟩ := h.entry _ p hp
    exact hp0
  have hget := h.hashGet hr
  rw [hp, Option.getD_some] at hget
  unfold State.shmAcquire at hc
  simp only [hr, hget, if_neg hp0, hshp] at hc
  split at hc
  · cases hc
    exact Or.inr ⟨_, rfl⟩
  · cases hc
    exact Or.inl rfl

/-- In a run of careful calls the table, `virtual_map`, the frames and the entries agree. -/
theorem shared_pages_consistent (h : Reachable Booted (Step Careful) x) : Consistent x := by
  have hinv : Inv x := h.invariant (fun _ => booted_inv) fun _ _ hx hs => step_inv hs hx
  obtain ⟨pointers, book, hlinked, htidy, hcreated⟩ := hinv
  constructor
  · intro i key p hash hi
    obtain ⟨_, shp, hshp, _⟩ := hlinked.slot hi
    let env : Surroundings := ⟨none, none, ⟨fun _ => false, nofun⟩, [], fun _ => none⟩
    exact ⟨shp, ((hlinked.sound env).placed.leads i key p hash hi).lt, p, hash, hi, hshp⟩
  · exact fun i j key key' shp shp' he he' hk => hlinked.one_slot he he' hk
  · exact fun i j key key' shp shp' he he' heq => hlinked.exclusive htidy.frames he he' heq
  · intro i key shp he
    obtain ⟨string, _, _, _, hb⟩ := hlinked.of_entry he
    exact htidy.live string shp hb
  · exact fun i j key key' shp shp' he he' heq => hlinked.exclusive htidy.slots he he' heq
  · intro i key shp he
    obtain ⟨string, _, _, _, hb⟩ := hlinked.of_entry he
    exact htidy.address hb
  · intro n hn
    have hslot : x.state.virtualMap n = true ↔ Taken x.state (slotAddress n) := by
      constructor
      · exact fun htaken => ⟨n, hn, rfl, htaken⟩
      · rintro ⟨j, _, hva, htaken⟩
        rw [slot_inj hva]
        exact htaken
    have haddr : slotAddress n = 0xfff00000 + 4096 * n := rfl
    rw [hslot, htidy.marked, haddr]
    constructor
    · rintro ⟨string, shp, hb, hva⟩
      obtain ⟨i, key, he⟩ := hlinked.entry_of hb
      exact ⟨i, key, shp, he, hva⟩
    · rintro ⟨i, key, shp, he, hva⟩
      obtain ⟨string, _, _, _, hb⟩ := hlinked.of_entry he
      exact ⟨string, shp, hb, hva⟩
  · intro i key shp he
    obtain ⟨string, _, _, _, hb⟩ := hlinked.of_entry he
    have hne := htidy.counted string shp hb
    bv_omega
  · intro i key shp he
    obtain ⟨string, _, hkey, hown, _⟩ := hlinked.of_entry he
    exact ⟨string, hkey, hown ▸ hkey⟩
  · intro env t p i key shp he hread ending s' hc
    obtain ⟨string, _, hkey, _, hb⟩ := hlinked.of_entry he
    rcases shmAcquire_returns hlinked (hread.trans hkey) hb hc with hret | hstop
    · exact Or.inl ⟨string, hkey, hret.trans (congrArg _ (hcreated string shp hb).symm)⟩
    · exact Or.inr hstop

end Consistency

section Kept

def keyK : CString := ⟨[107], by decide⟩

def oneProcess : State where
  shpTable := (HashMap.hashInit roomyHeap ⟨0, 0, 0, fun _ => .deleted, false⟩).2
  shps _ := none
  keys _ := none
  virtualMap _ := false
  frames := ⟨[], []⟩
  dirs _ _ := none

theorem oneProcess_booted : Booted ⟨oneProcess, fun _ => 0⟩ := by
  refine ⟨⟨roomyHeap, _, rfl, rfl⟩, rfl, rfl, rfl, ?_⟩
  exact ⟨.nil, nofun, nofun⟩

def whileCreating : Surroundings :=
  ⟨some 0x300000, some 0x300100, roomyHeap, [0x4000000, 0x4001000],
    fun p => if p = 0x40001000 then some keyK else none⟩

def whileReleasing : Surroundings :=
  ⟨some 0x300200, some 0x300300, roomyHeap, [], fun p => if p = 0xfff00000 then some keyK else none⟩

def whileSharing : Surroundings :=
  ⟨some 0x300200, some 0x300300, roomyHeap, [0x4002000],
    fun p => if p = 0x40001000 ∨ p = 0x40002000 then some keyK else none⟩

theorem Surroundings.fresh_of {k p : Ptr} (hk : env.keyAlloc = some k) (hp : env.shpAlloc = some p)
    (hkfree : k ≠ 0 ∧ s.keys k = none ∧ s.shps k = none)
    (hpfree : p ≠ 0 ∧ s.keys p = none ∧ s.shps p = none) : env.Fresh s := by
  rintro q (hq | hq)
  · cases hk.symm.trans hq
    exact hkfree
  · cases hp.symm.trans hq
    exact hpfree

def pageCreated : State := (oneProcess.call whileCreating 1 (.create 0x40001000)).2

theorem pageCreated_step (allowed : Surroundings → Call → State → Prop)
    (h : allowed whileCreating (.create 0x40001000) oneProcess) :
    ∃ created, Step allowed ⟨oneProcess, fun _ => 0⟩ ⟨pageCreated, created⟩ := by
  have hcall : oneProcess.call whileCreating 1 (.create 0x40001000) = (.returns 0xfff00000, pageCreated) :=
    Prod.ext (by decide +kernel) rfl
  have hfresh : whileCreating.Fresh oneProcess :=
    Surroundings.fresh_of rfl rfl ⟨by decide, rfl, rfl⟩ ⟨by decide, rfl, rfl⟩
  exact ⟨_, .call whileCreating 1 (.create 0x40001000) hcall trivial ⟨hfresh, rfl, rfl, by decide +kernel⟩ h⟩

def pageAcquired : State := (pageCreated.call whileSharing 2 (.acquire 0x40002000)).2

def pageLeft : State := (pageAcquired.call whileSharing 1 (.release 0x40001000)).2

/-- The second process acquires the page, and the creator releases it with a key of its own. -/
theorem pageLeft_run : ∃ created, Reachable Booted (Step Careful) ⟨pageLeft, created⟩ := by
  obtain ⟨created, hstep⟩ := pageCreated_step Careful trivial
  have hacquire : pageCreated.call whileSharing 2 (.acquire 0x40002000) = (.returns 0xfff00000, pageAcquired) :=
    Prod.ext (by decide +kernel) rfl
  have hrelease : pageAcquired.call whileSharing 1 (.release 0x40001000) = (.returns 0, pageLeft) :=
    Prod.ext (by decide +kernel) rfl
  have hfound : (pageCreated.find whileSharing 0x40002000).map Shp.refcount = some 1 := by decide +kernel
  have hshared : (pageAcquired.find whileSharing 0x40001000).map Shp.refcount = some 2 := by decide +kernel
  have hfresh : whileSharing.Fresh pageCreated := Surroundings.fresh_of rfl rfl (by decide +kernel) (by decide +kernel)
  have hfresh' : whileSharing.Fresh pageAcquired := Surroundings.fresh_of rfl rfl (by decide +kernel) (by decide +kernel)
  have hcreated := (Reachable.start oneProcess_booted).next hstep
  have hacquired := hcreated.next (.call whileSharing 2 (.acquire 0x40002000) hacquire trivial
    ⟨hfresh, rfl, rfl, by decide +kernel⟩ fun shp hshp => ?_)
  refine ⟨_, hacquired.next (.call whileSharing 1 (.release 0x40001000) hrelease trivial
    ⟨hfresh', rfl, rfl, by decide +kernel⟩ fun string shp _ hshp hlast => ?_)⟩
  · rw [hshp] at hshared
    rw [Option.map_some, hlast] at hshared
    exact absurd hshared (by decide)
  · rw [hshp] at hfound
    rw [Option.some.inj hfound]
    decide

/-- One reference is left, and only the process that has it has the page. -/
theorem shared_pages_consistent_three : ∃ x : System,
    (∃ shp, Entry x.state 6 0x300000 shp ∧ shp.refcount = 1) ∧
    Dir.entry (x.state.dirs 1) 0xfff00000 = none ∧
    Dir.entry (x.state.dirs 2) 0xfff00000 = some ⟨0x4000000, ⟨true, true⟩⟩ ∧ Consistent x := by
  obtain ⟨created, hrun⟩ := pageLeft_run
  have hshp : pageLeft.shps 0x300100 = some ⟨0x4000000, 0xfff00000, 1, 0x300000⟩ := by decide +kernel
  have hslot : pageLeft.shpTable.table 6 = .active 0x300000 0x300100 177614 := by decide +kernel
  have hsize : 6 < pageLeft.shpTable.size := by decide +kernel
  have hleft : Dir.entry (pageLeft.dirs 1) 0xfff00000 = none := by decide +kernel
  have hheld : Dir.entry (pageLeft.dirs 2) 0xfff00000 = some ⟨0x4000000, ⟨true, true⟩⟩ := by decide +kernel
  exact ⟨⟨pageLeft, created⟩, ⟨_, ⟨hsize, _, _, hslot, hshp⟩, rfl⟩, hleft, hheld,
    shared_pages_consistent hrun⟩

def pageReleased : State := (pageCreated.call whileReleasing 1 (.release 0xfff00000)).2

theorem whileReleasing_served : Served whileReleasing pageCreated pageReleased :=
  ⟨Surroundings.fresh_of rfl rfl (by decide +kernel) (by decide +kernel), rfl, rfl, by decide +kernel⟩

/-- The creator has mapped the page and writes the key into it. It releases the page with that key, which
is unmapped before `hash_del` reads it: the entry stays, with no reference. -/
theorem last_reference_stuck : Dir.entry (pageCreated.dirs 1) 0xfff00000 = some ⟨0x4000000, ⟨true, true⟩⟩ ∧
    (pageCreated.call whileReleasing 1 (.release 0xfff00000)).1 = .pageFault ∧
    ∃ x : System, Reachable Booted (Step fun _ _ _ => True) x ∧
      (∃ shp, Entry x.state 6 0x300000 shp ∧ shp.refcount = 0) ∧ ¬ Consistent x := by
  have hfault : (pageCreated.call whileReleasing 1 (.release 0xfff00000)).1 = .pageFault := by decide +kernel
  have hshp : pageReleased.shps 0x300100 = some ⟨0x4000000, 0xfff00000, 0, 0x300000⟩ := by decide +kernel
  have hslot : pageReleased.shpTable.table 6 = .active 0x300000 0x300100 177614 := by decide +kernel
  have hsize : 6 < pageReleased.shpTable.size := by decide +kernel
  obtain ⟨created, hstep⟩ := pageCreated_step (fun _ _ _ => True) trivial
  have hcreated := (Reachable.start oneProcess_booted).next hstep
  have hreleased := hcreated.next
    (.call whileReleasing 1 (.release 0xfff00000) (Prod.ext hfault rfl) trivial whileReleasing_served trivial)
  have hentry : Entry pageReleased 6 0x300000 ⟨0x4000000, 0xfff00000, 0, 0x300000⟩ :=
    ⟨hsize, _, _, hslot, hshp⟩
  refine ⟨by decide +kernel, hfault, _, hreleased, ⟨_, hentry, rfl⟩, fun h => ?_⟩
  exact absurd (h.counted 6 0x300000 _ hentry) (by decide)

end Kept
end DominOS.Shm
