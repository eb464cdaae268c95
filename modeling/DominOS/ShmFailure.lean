import DominOS.ShmRuns

/-! What a `shm_create` that fails leaves behind. -/
namespace DominOS.Shm
open HashTable Paging Runs
open AddressSpaces (slotAddress sharedStart)
open Process (TaskPtr)

variable {s s' : State} {env : Surroundings} {key q : Ptr} {t : TaskPtr} {string : CString}

/-- What a call that returns NULL is to leave as it was. -/
structure Unchanged (s s' : State) : Prop where
  table : s'.shpTable = s.shpTable
  virtualMap : s'.virtualMap = s.virtualMap
  dirs : s'.dirs = s.dirs
  live : s'.frames.live = s.frames.live
  shps : s'.shps = s.shps
  keys : s'.keys = s.keys

def FailsCleanly (s : State) (r : Ending × State) : Prop :=
  r.1 ≠ .nullDereferenced ∧ (r.1 = .returns 0 → Unchanged s r.2)

/-- The key is not NULL; and if it can be read, `mem_alloc` gives a block for its copy, it is not in the
table, and when there is a frame there is a slot and a block for the struct too. -/
def Creatable (env : Surroundings) (key : Ptr) (s : State) : Prop :=
  key ≠ 0 ∧ ∀ string, s.read env key = some string → ∃ q, env.keyAlloc = some q ∧
    ∀ isset, s.shpTable.hashIsset ((s.setKey q (some string)).funcs env) q = some isset → isset = 0 ∧
      ∀ r, (s.frames.offer env.frames).alloc 1 = .ok r → s.allocateMemory.isSome ∧ env.shpAlloc.isSome

theorem not_cleanly_of_null (s s' : State) : ¬ FailsCleanly s (.nullDereferenced, s') := fun h => h.1 rfl

theorem copy_lost (hq : s.keys q = none) (hk : s'.keys = (s.setKey q (some string)).keys) :
    ¬ FailsCleanly s (.returns 0, s') := by
  intro h
  have hkeys := congrFun (h.2 rfl).keys q
  rw [hk, hq] at hkeys
  cases (Function.update_self ..).symm.trans hkeys

theorem frame_lost {a : Nat × Nat} (hl : s'.frames.live = a :: s.frames.live) :
    ¬ FailsCleanly s (.returns 0, s') := by
  intro h
  have hlength := congrArg List.length (hl.symm.trans (h.2 rfl).live)
  rw [List.length_cons] at hlength
  omega

theorem slotAddress_ne_zero (i : Nat) : slotAddress i ≠ 0 := by
  unfold slotAddress sharedStart
  omega

theorem creatable_iff (hr : s.read env key = some string) (hq : env.keyAlloc = some q) :
    Creatable env key s ↔
      ∀ isset, s.shpTable.hashIsset ((s.setKey q (some string)).funcs env) q = some isset → isset = 0 ∧
        ∀ r, (s.frames.offer env.frames).alloc 1 = .ok r → s.allocateMemory.isSome ∧ env.shpAlloc.isSome := by
  constructor
  · intro h isset hisset
    obtain ⟨q', hq', h'⟩ := h.2 string hr
    cases hq.symm.trans hq'
    exact h' isset hisset
  · intro h
    refine ⟨read_ne_zero hr, fun string' hr' => ⟨q, hq, ?_⟩⟩
    cases hr.symm.trans hr'
    exact h

/-- A `shm_create` that returns NULL changes nothing, and none dereferences NULL, exactly when it does not
fail but for an unreadable key or a page allocator that is exhausted, where it does not return at all. -/
theorem create_fails_cleanly (hf : env.Fresh s) (t : TaskPtr) (key : Ptr) :
    FailsCleanly s (s.shmCreate env t key) ↔ Creatable env key s := by
  unfold State.shmCreate
  cases hr : s.read env key with
  | none =>
    by_cases hkey : key = 0
    · simp only [State.unreadable, if_pos hkey]
      exact iff_of_false (not_cleanly_of_null s s) fun h => h.1 hkey
    · simp only [State.unreadable, if_neg hkey]
      exact iff_of_true ⟨nofun, nofun⟩ ⟨hkey, fun string h => nomatch hr.symm.trans h⟩
  | some string =>
    have hkey := read_ne_zero hr
    cases hq : env.keyAlloc with
    | none =>
      refine iff_of_false (not_cleanly_of_null s s) fun h => ?_
      obtain ⟨q, hq', _⟩ := h.2 string hr
      cases hq.symm.trans hq'
    | some q =>
      have hfree := (hf q (Or.inl hq)).2.1
      have htable : (s.setKey q (some string)).shpTable = s.shpTable := rfl
      have hframes : (s.setKey q (some string)).frames = s.frames := rfl
      rw [creatable_iff hr hq]
      simp only [if_neg hkey, htable, hframes]
      cases hisset : s.shpTable.hashIsset ((s.setKey q (some string)).funcs env) q with
      | none => exact iff_of_true ⟨nofun, nofun⟩ nofun
      | some isset =>
        dsimp only
        by_cases hset : isset = 0
        · rw [if_neg (not_not.mpr hset)]
          cases halloc : (s.frames.offer env.frames).alloc 1 with
          | error fault => exact iff_of_true ⟨nofun, nofun⟩ fun i hi => ⟨Option.some.inj hi ▸ hset, nofun⟩
          | ok r =>
            obtain ⟨a, frames⟩ := r
            have hlive := (alloc_ok halloc).1
            have hneeds : (∀ n, some isset = some n → n = 0 ∧ ∀ r, (Except.ok (a, frames) : Except Fault _) = .ok r →
                s.allocateMemory.isSome ∧ env.shpAlloc.isSome) ↔
                s.allocateMemory.isSome ∧ env.shpAlloc.isSome := by
              constructor
              · exact fun h => (h isset rfl).2 _ rfl
              · intro h n hn
                cases hn
                exact ⟨hset, fun _ _ => h⟩
            rw [hneeds]
            dsimp only
            split
            · rename_i hslot
              change s.allocateMemory = none at hslot
              rw [hslot]
              exact iff_of_false (frame_lost hlive) fun h => nomatch h.1
            rename_i i hslot
            change s.allocateMemory = some i at hslot
            rw [hslot]
            cases hp : env.shpAlloc with
            | none => exact iff_of_false (not_cleanly_of_null s _) fun h => nomatch h.2
            | some p =>
              refine iff_of_true ?_ ⟨rfl, rfl⟩
              dsimp only
              split
              · exact ⟨nofun, nofun⟩
              split
              · exact ⟨nofun, nofun⟩
              · exact ⟨nofun, fun he => absurd (Ending.returns.inj he) (slotAddress_ne_zero i)⟩
        · rw [if_pos hset]
          exact iff_of_false (copy_lost hfree rfl) fun h => hset (h isset rfl).1

def whileCreatingAgain : Surroundings :=
  ⟨some 0x300200, some 0x300300, roomyHeap, [0x4002000], fun p => if p = 0x40001000 then some keyK else none⟩

theorem whileCreatingAgain_fresh : whileCreatingAgain.Fresh pageCreated :=
  Surroundings.fresh_of rfl rfl (by decide +kernel) (by decide +kernel)

theorem create_fails_cleanly_again : (pageCreated.shmCreate whileCreatingAgain 1 0x40001000).1 = .returns 0 ∧
    (FailsCleanly pageCreated (pageCreated.shmCreate whileCreatingAgain 1 0x40001000) ↔
      Creatable whileCreatingAgain 0x40001000 pageCreated) :=
  ⟨by decide +kernel, create_fails_cleanly whileCreatingAgain_fresh 1 0x40001000⟩

/-- A key that is there already is copied, and its copy lost; a NULL key is read. -/
theorem failed_create_leaks : ∃ x : System, Reachable Booted (Step Careful) x ∧
    (x.state.shmCreate whileCreatingAgain 1 0x40001000).1 = .returns 0 ∧
    ¬ FailsCleanly x.state (x.state.shmCreate whileCreatingAgain 1 0x40001000) ∧
    (x.state.shmCreate whileCreatingAgain 1 0).1 = .nullDereferenced := by
  have hreturns : (pageCreated.shmCreate whileCreatingAgain 1 0x40001000).1 = .returns 0 := by decide +kernel
  have hcopy : (pageCreated.shmCreate whileCreatingAgain 1 0x40001000).2.keys 0x300200 = some keyK := by
    decide +kernel
  have hfree : pageCreated.keys 0x300200 = none := by decide +kernel
  have hnull : (pageCreated.shmCreate whileCreatingAgain 1 0).1 = .nullDereferenced := by decide +kernel
  have hnot : ¬ FailsCleanly pageCreated (pageCreated.shmCreate whileCreatingAgain 1 0x40001000) := by
    intro h
    have hkeys := congrFun (h.2 hreturns).keys 0x300200
    cases (hcopy.symm.trans hkeys).trans hfree
  obtain ⟨created, hstep⟩ := pageCreated_step Careful trivial
  exact ⟨⟨pageCreated, created⟩, (Reachable.start oneProcess_booted).next hstep, hreturns, hnot, hnull⟩

end DominOS.Shm
