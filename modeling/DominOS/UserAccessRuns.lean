import DominOS.ProcessPointers
import DominOS.UserAccess

/-! What the kernel accesses through the pointers of user code. It looks at one byte behind that of
`waitpid` and at no other, and whoever calls it has to guard the calls. -/
namespace DominOS.UserAccess
open Process Fallible Relation Runs
variable {m m' : Machine} {e : Event} {c : Call} {dir : Paging.Dir} {p : Addr} {r : Reader}
  {as : List Addr} {x : Except Fault Machine} {t u : TaskPtr} {dirs : TaskPtr → Paging.Dir}

abbrev User (dir : Paging.Dir) (a : Addr) : Prop := isUserAddr dir a = true

def Safe (m : Machine) (t : TaskPtr) : Prop := ∀ a ∈ intAt (m.args t), User (m.dirs t) a

/-- What a call of `cons_read` still has to fill belongs to its caller. -/
structure Reader.Fits (dir : Paging.Dir) (r : Reader) : Prop where
  short : r.reading.charLength ≤ r.reading.length
  user : ∀ a ∈ bytes r.string r.reading.length, User dir a

structure Sound (m : Machine) : Prop where
  pointers : m.procs.Pointers (Safe m)
  readers : ∀ t r, m.readers t = some r → r.Fits (m.dirs t)

def Step (P : Machine → Event → Prop) (m m' : Machine) : Prop := ∃ e, P m e ∧ m.step e = .ok m'

abbrev Run (P : Machine → Event → Prop) (dirs : TaskPtr → Paging.Dir) : Machine → Prop :=
  Reachable (· = .boot dirs) (Step P)

theorem mem_bytes {a : Addr} {n : Nat} :
    a ∈ bytes p n ↔ ∃ i < n, p + BitVec.ofNat 32 i = a := by
  simp [bytes]

theorem present (h : User dir p) : isPresent dir p = true := by
  unfold User isUserAddr Paging.isUserAddr at h
  unfold isPresent
  cases he : dir.entry p.toNat with
  | none =>
    rw [he] at h
    cases h
  | some e => rfl

theorem storing_user (h : ∀ a ∈ as, User m.dir a) : m.storing as x = x := by
  have hp : as.all (isPresent m.dir) = true := List.all_eq_true.mpr fun a ha => present (h a ha)
  have hu : as.all (isUserAddr m.dir) = true := List.all_eq_true.mpr h
  simp only [Machine.storing, hp, hu, if_true]

theorem Reader.stores_user {k : Keyboard.Kbd} (h : r.Fits dir) : ∀ a ∈ r.stores k, User dir a := by
  intro a ha
  simp only [Reader.stores] at ha
  split at ha
  · cases ha
  · rename_i hc
    rw [List.mem_singleton] at ha
    subst ha
    have hlt : r.reading.charLength < r.reading.length :=
      lt_of_le_of_ne h.short fun he => hc (.inl he)
    exact h.user _ (mem_bytes.mpr ⟨_, hlt, rfl⟩)

theorem add_succ {s : Addr} {i : Nat} :
    s + 1 + BitVec.ofNat 32 i = s + BitVec.ofNat 32 (i + 1) := by
  rw [BitVec.add_assoc]
  congr 1
  rw [Nat.add_comm i 1, BitVec.ofNat_add]
  rfl

/-- `strnlen` reads user memory exactly when the string is in user memory as far as its end. -/
theorem strnlenReads_user {memory : Addr → Keyboard.Byte} {n : Nat} {s : Addr} :
    (∀ a ∈ strnlenReads dir memory n s, User dir a) ↔
      ∀ i < n, (∀ j < i, memory (s + BitVec.ofNat 32 j) ≠ 0) →
        User dir (s + BitVec.ofNat 32 i) := by
  induction n generalizing s with
  | zero => simp [strnlenReads]
  | succ n ih =>
    have hzero : s + BitVec.ofNat 32 0 = s := by simp
    unfold strnlenReads
    split
    · rename_i hgo
      rw [List.forall_mem_cons, ih]
      constructor
      · rintro ⟨hs, hrest⟩ i hi hj
        cases i with
        | zero => rwa [hzero]
        | succ i =>
          rw [← add_succ]
          refine hrest i (Nat.lt_of_succ_lt_succ hi) fun j hj' => ?_
          rw [add_succ]
          exact hj (j + 1) (Nat.succ_lt_succ hj')
      · intro h
        refine ⟨hzero ▸ h 0 (Nat.succ_pos n) nofun, fun i hi hj => ?_⟩
        rw [add_succ]
        refine h (i + 1) (Nat.succ_lt_succ hi) fun j hj' => ?_
        cases j with
        | zero =>
          rw [hzero]
          exact hgo.2
        | succ j =>
          rw [← add_succ]
          exact hj j (Nat.lt_of_succ_lt_succ hj')
    · rename_i hstop
      rw [List.forall_mem_singleton]
      constructor
      · intro hs i hi hj
        cases i with
        | zero => rwa [hzero]
        | succ i => exact absurd ⟨present hs, hzero ▸ hj 0 (Nat.succ_pos i)⟩ hstop
      · intro h
        exact hzero ▸ h 0 (Nat.succ_pos n) nofun

theorem preceive_used {s : Process.State} {id : Int}
    (h : storesThrough (fun message => s.preceive id message) = true) : s.mqueue id ≠ .ok none := by
  intro hq
  simp [storesThrough, Process.State.preceive, hq, Process.State.ret] at h

theorem pcount_used {s : Process.State} {id : Int}
    (h : storesThrough (fun count => s.pcount id count) = true) : s.mqueue id ≠ .ok none := by
  intro hq
  simp [storesThrough, Process.State.pcount, hq, Process.State.ret] at h

theorem givesStatus_points {k : Kont} {s : Process.State} (h : givesStatus k s = true) :
    k.Points := by
  cases k <;> trivial

theorem givesMessage_points {k : Kont} {s : Process.State} (h : givesMessage k s = true) :
    k.Points := by
  cases k <;> trivial

theorem Sound.resumed {gives : Kont → Process.State → Bool} (h : Sound m)
    (hg : ∀ k s, gives k s = true → k.Points) : ∀ a ∈ m.resumed gives, User m.dir a := by
  intro a ha
  unfold Machine.resumed at ha
  split at ha
  · rename_i task _ hk
    split at ha
    · rename_i hgives
      exact ((h.pointers.holds.tasks _ task hk).2 (hg _ _ hgives)).1 a ha
    · cases ha
  · cases ha

theorem called_user (hc : c.Guarded m) : ∀ a ∈ m.called c, User m.dir a := by
  intro a ha
  cases c with
  | pcount id p =>
    simp only [Machine.called] at ha
    split at ha
    · rename_i hs
      exact hc (pcount_used hs) a ha
    · cases ha
  | preceive id p =>
    simp only [Machine.called] at ha
    split at ha
    · rename_i hs
      exact hc (preceive_used hs) a ha
    · cases ha
  | clockSettings quartz ticks =>
    rcases List.mem_append.mp ha with ha | ha
    · exact hc.1 a ha
    · exact hc.2 a ha
  | consWrite str size memory => exact strnlenReads_user.mpr hc a ha
  | _ => cases ha

theorem Sound.accesses (h : Sound m) (he : Guarded m e) : ∀ a ∈ m.accesses e, User m.dir a := by
  intro a ha
  cases e with
  | tick => cases ha
  | type str => cases ha
  | kernel =>
    rcases List.mem_append.mp ha with ha | ha
    · exact h.resumed (fun _ _ => givesStatus_points) a ha
    · exact h.resumed (fun _ _ => givesMessage_points) a ha
  | call c =>
    simp only [Machine.accesses] at ha
    split at ha
    · exact called_user (he c rfl) a ha
    · cases ha
  | turn =>
    simp only [Machine.accesses] at ha
    split at ha
    · rename_i r _ hr
      exact Reader.stores_user (h.readers _ r hr) a ha
    · cases ha

section Steps
variable {s : Process.State} {y : Except Fault Process.State}

theorem inUser_iff : m.inUser = true ↔
    m.procs.ctl = .user ∧ m.readers m.procs.current = none := by
  simp [Machine.inUser]

theorem setProcs_ok : m.setProcs y = .ok m' ↔ ∃ s, y = .ok s ∧ { m with procs := s } = m' := by
  unfold Machine.setProcs
  rw [bind_ok]
  simp only [Except.ok.injEq]

theorem Sound.setProcs (hr : ∀ t r, m.readers t = some r → r.Fits (m.dirs t))
    (hy : Process.State.Into (Process.State.Pointers (Safe m)) y) (h : m.setProcs y = .ok m') :
    Sound m' := by
  obtain ⟨s, rfl, rfl⟩ := setProcs_ok.mp h
  exact ⟨hy, hr⟩

/-- The current task serves a call, after which its pointer or its directory may be another one. -/
theorem Sound.serves {w : Machine} (h : Sound m) (hu : m.procs.ctl = .user)
    (hsafe : ∀ t, t ≠ m.procs.current → (m.procs.tasks t).isSome → Safe m t → Safe w t) :
    Process.State.Serves (Safe w) m.procs.current m.procs :=
  (h.pointers.serves hu).mono fun t ht hp => ⟨hp.1, hsafe t hp.1 ht hp.2⟩

theorem safe_supply (ht : (m.procs.tasks t).isSome) : Safe (m.supply dir) t ↔ Safe m t := by
  simp only [Safe, Machine.supply, ht, if_true]

theorem safe_hold (ht : t ≠ m.procs.current) : Safe (m.hold p) t ↔ Safe m t := by
  simp only [Safe, Machine.hold, Function.update_of_ne ht]

theorem safe_hold_self (h : ∀ a ∈ intAt p, User m.dir a) : Safe (m.hold p) m.procs.current := by
  simp only [Safe, Machine.hold, Function.update_self]
  exact h

theorem safe_remap (ht : t ≠ m.procs.current) : Safe (m.remap dir) t ↔ Safe m t := by
  simp only [Safe, Machine.remap, Function.update_of_ne ht]

theorem Sound.supplied (h : Sound m) (hr : (m.supply dir).readers t = some r) :
    r.Fits ((m.supply dir).dirs t) := by
  simp only [Machine.supply] at hr ⊢
  split at hr
  · rename_i ht
    rw [if_pos ht]
    exact h.readers t r hr
  · cases hr

theorem Sound.remapped (h : Sound m) (hn : m.readers m.procs.current = none)
    (hr : (m.remap dir).readers t = some r) : r.Fits ((m.remap dir).dirs t) := by
  have ht : t ≠ m.procs.current := by
    rintro rfl
    rw [show (m.remap dir).readers = m.readers from rfl, hn] at hr
    cases hr
  simp only [Machine.remap, Function.update_of_ne ht]
  exact h.readers t r hr

theorem Sound.reader {o : Option Reader} (h : Sound m) (ho : ∀ r, o = some r → r.Fits m.dir) :
    Sound (m.reader o) := by
  refine ⟨h.pointers, fun t r hr => ?_⟩
  simp only [Machine.reader] at hr
  by_cases ht : t = m.procs.current
  · subst ht
    rw [Function.update_self] at hr
    exact ho r hr
  · rw [Function.update_of_ne ht] at hr
    exact h.readers t r hr

theorem checked_cases (h : checked dir p = .null ∨ checked dir p = .mapped) :
    p = 0 ∨ User dir p := by
  unfold checked at h
  split at h
  · exact .inl ‹_›
  split at h
  · exact .inr ‹_›
  · simp at h

theorem Sound.handle (h : Sound m) (hu : m.procs.ctl = .user)
    (hn : m.readers m.procs.current = none) (hc : c.Guarded m) (hs : m.handle c = .ok m') :
    Sound m' := by
  have hserves := h.serves (w := m) hu fun _ _ _ hs => hs
  cases c with
  | start a dir =>
    have hnew := h.serves (w := m.supply dir) hu fun _ _ ht => (safe_supply ht).mpr
    exact Sound.setProcs (fun _ _ => h.supplied) hnew.start hs
  | waitpid pid p =>
    have hheld := h.serves (w := m.hold p) hu fun _ ht _ => (safe_hold ht).mpr
    refine Sound.setProcs (m := m.hold p) h.readers (hheld.waitpid fun hr => safe_hold_self ?_) hs
    rcases checked_cases hr with rfl | hp
    · simp [intAt]
    · exact hc hp
  | pcount id p => exact Sound.setProcs h.readers hserves.pcount hs
  | preceive id p =>
    have hheld := h.serves (w := m.hold p) hu fun _ ht _ => (safe_hold ht).mpr
    refine Sound.setProcs (m := m.hold p) h.readers
      (hheld.preceive fun mq hq => safe_hold_self (hc ?_)) hs
    rw [hq]
    simp
  | clockSettings quartz ticks =>
    simp only [Machine.handle] at hs
    rw [storing_user (List.forall_mem_append.mpr hc)] at hs
    exact Sound.setProcs h.readers hserves.ret hs
  | consRead string length =>
    cases hs
    refine h.reader fun r hr => ?_
    cases hr
    exact ⟨Nat.zero_le _, hc⟩
  | consWrite str size memory =>
    simp only [Machine.handle] at hs
    split at hs
    · exact Sound.setProcs h.readers hserves.ret hs
    · exact Sound.setProcs h.readers hserves.pageFault hs
  | consEcho on =>
    exact Sound.setProcs (m := m.setKbd { m.kbd with echo := on }) h.readers hserves.ret hs
  | shm dir =>
    have hnew := h.serves (w := m.remap dir) hu fun _ ht _ => (safe_remap ht).mpr
    exact Sound.setProcs (fun _ _ => h.remapped hn) hnew.ret hs
  | plain x =>
    simp only [Machine.handle] at hs
    split at hs
    · refine Sound.setProcs h.readers (hserves.handle fun hlends => ?_) hs
      cases x <;> first | exact hlends.elim | contradiction
    · cases hs

theorem consRead_length {k : Keyboard.Kbd} {g : Keyboard.Reading} :
    (Keyboard.consRead k g).2.1.length = g.length := by
  unfold Keyboard.consRead
  dsimp only
  split_ifs <;> rfl

theorem consRead_short {k : Keyboard.Kbd} {g : Keyboard.Reading} (h : g.charLength ≤ g.length) :
    (Keyboard.consRead k g).2.1.charLength ≤ g.length := by
  unfold Keyboard.consRead
  dsimp only
  split_ifs with hend
  · exact h
  · exact h
  · exact h
  · exact (Nat.sub_le _ _).trans h
  · exact Nat.succ_le_of_lt (lt_of_le_of_ne h hend)

theorem consRead_fits {k : Keyboard.Kbd} (h : r.Fits dir) :
    Reader.Fits dir ⟨r.string, (Keyboard.consRead k r.reading).2.1⟩ := by
  refine ⟨?_, ?_⟩
  · rw [consRead_length]
    exact consRead_short h.short
  · rw [consRead_length]
    exact h.user

theorem Sound.readTurn (h : Sound m) (hu : m.procs.ctl = .user)
    (hr : m.readers m.procs.current = some r) (hs : m.readTurn r = .ok m') : Sound m' := by
  have hfits := h.readers _ r hr
  have hserves := h.serves (w := m) hu fun _ _ _ hs => hs
  have hreads (k : Keyboard.Kbd) {o : Option Reader} (ho : ∀ r, o = some r → r.Fits m.dir) :
      Sound ((m.setKbd k).reader o) := Sound.reader (m := m.setKbd k) ⟨h.pointers, h.readers⟩ ho
  unfold Machine.readTurn at hs
  simp only at hs
  rw [storing_user (Reader.stores_user hfits)] at hs
  split at hs
  · exact Sound.setProcs (hreads _ (by simp)).readers hserves.ret hs
  split at hs
  · exact Sound.setProcs h.readers hserves.waitClock hs
  · cases hs
    refine hreads _ fun r' hr' => ?_
    cases hr'
    exact consRead_fits hfits

theorem Sound.step (h : Sound m) (he : Guarded m e) (hs : m.step e = .ok m') : Sound m' := by
  cases e with
  | tick =>
    simp only [Machine.step] at hs
    split at hs
    · have hserves := h.serves (w := m) (inUser_iff.mp ‹_›).1 fun _ _ _ hs => hs
      exact Sound.setProcs h.readers hserves.clockHandler hs
    · cases hs
  | kernel =>
    simp only [Machine.step] at hs
    rw [storing_user (h.resumed fun _ _ => givesStatus_points)] at hs
    exact Sound.setProcs h.readers h.pointers.kernel hs
  | call c =>
    simp only [Machine.step] at hs
    split at hs
    · obtain ⟨hu, hn⟩ := inUser_iff.mp ‹_›
      exact h.handle hu hn (he c rfl) hs
    · cases hs
  | turn =>
    simp only [Machine.step] at hs
    split at hs
    · exact h.readTurn ‹_› ‹_› hs
    · cases hs
  | type str =>
    simp only [Machine.step] at hs
    split at hs
    · cases hs
    split at hs
    · cases hs
      exact ⟨h.pointers, h.readers⟩
    · cases hs

end Steps

def Call.AtOnce : Call → Prop
  | .pcount id _ => 0 ≤ id ∧ id < nbQueue
  | .clockSettings _ _ | .consWrite _ _ _ => True
  | _ => False

theorem pcount_stores {s : Process.State} {id : Int} {q : MQueue}
    (hq : s.mqueue id = .ok (some q)) :
    storesThrough (fun count => s.pcount id count) = true := by
  simp [storesThrough, Process.State.pcount, hq]

theorem guarded_exact (hu : m.inUser = true) (hc : c.AtOnce) :
    (∀ a ∈ m.accesses (.call c), User m.dir a) ↔ c.Guarded m := by
  simp only [Machine.accesses, hu, if_true]
  refine ⟨fun h => ?_, called_user⟩
  cases c with
  | pcount id p =>
    intro hne a ha
    have hid : m.procs.mqueue id = .ok (m.procs.mqueues id.toNat) := if_pos hc
    cases hq : m.procs.mqueues id.toNat with
    | none => exact absurd (hid.trans (congrArg _ hq)) hne
    | some q =>
      refine h a ?_
      simp only [Machine.called, pcount_stores (hid.trans (congrArg _ hq)), if_true]
      exact ha
  | clockSettings quartz ticks => exact List.forall_mem_append.mp h
  | consWrite str size memory => exact strnlenReads_user.mp h
  | _ => exact hc.elim

theorem boot_sound : Sound (.boot dirs) := ⟨State.boot_pointers, nofun⟩

theorem Run.replayed {P : Machine → Event → Prop} {es : List Event} (h : Run P dirs m)
    (hP : ∀ e ∈ es, ∀ m, P m e) (he : exec Machine.step es m = .ok m') : Run P dirs m' := by
  induction es generalizing m with
  | nil =>
    cases he
    exact h
  | cons e es ih =>
    unfold exec at he
    split at he
    · rename_i w hw
      exact ih (h.next ⟨e, hP e List.mem_cons_self m, hw⟩)
        (fun e he => hP e (List.mem_cons_of_mem _ he)) he
    · cases he

/-- Where callers guard the calls, the kernel accesses user memory only, whoever has waited and
whatever has happened in between. -/
theorem guarded_accesses (h : Run Guarded dirs m) (he : Guarded m e) :
    ∀ a ∈ m.accesses e, isUserAddr m.dir a = true := by
  have hs : Sound m := Reachable.invariant h (by rintro _ rfl; exact boot_sound)
    fun _ _ hs ⟨_, hg, hstep⟩ => hs.step hg hstep
  exact hs.accesses he

def onePage : Paging.Dir :=
  Function.update (Paging.EarlyMem.dir ⟨0x1000, fun _ => true⟩) 256
    (some ⟨0x4000000, ⟨true, true⟩, fun i => if i = 0 then some ⟨0x4001000, ⟨true, true⟩⟩ else none⟩)

def creates : List Event :=
  [.call (.start ⟨true, 4096, 1000, 2, true, true⟩ onePage), .kernel, .call (.plain (.pcreate 1))]

theorem guarded_accesses_count : ∃ m, Run Guarded (fun _ => onePage) m ∧
    0x40000010#32 ∈ m.accesses (.call (.pcount 0 0x40000010)) ∧
    ∀ a ∈ m.accesses (.call (.pcount 0 0x40000010)), isUserAddr m.dir a = true := by
  have hends : Ends (exec Machine.step creates (.boot fun _ => onePage)) fun m =>
      0x40000010#32 ∈ m.accesses (.call (.pcount 0 0x40000010)) ∧
        (intAt 0x40000010).all (isUserAddr m.dir) = true := by decide +kernel
  obtain ⟨m, hm, hmem, huser⟩ := hends.elim
  have hrun : Run Guarded (fun _ => onePage) m := by
    refine Run.replayed (Reachable.start rfl) (fun e he _ c hc => ?_) hm
    subst hc
    simp only [creates, List.mem_cons, Event.call.injEq, List.not_mem_nil, or_false] at he
    rcases he with rfl | hk | rfl
    · trivial
    · cases hk
    · trivial
  refine ⟨m, hrun, hmem, guarded_accesses hrun fun c hc => ?_⟩
  cases hc
  exact fun _ => List.all_eq_true.mp huser

/-- `pcount` writes to the kernel where its caller says so. -/
theorem kernel_written : ¬ ∀ (dirs : TaskPtr → Paging.Dir) (m : Machine) (e : Event),
    Run (fun _ _ => True) dirs m → ∀ a ∈ m.accesses e, isUserAddr m.dir a = true := by
  intro h
  have hends : Ends (exec Machine.step creates (.boot fun _ => onePage)) fun m =>
      0x100000#32 ∈ m.accesses (.call (.pcount 0 0x100000)) ∧
        isUserAddr m.dir 0x100000#32 = false := by decide +kernel
  obtain ⟨m, hm, hmem, huser⟩ := hends.elim
  have hrun : Run (fun _ _ => True) (fun _ => onePage) m :=
    Run.replayed (Reachable.start rfl) (fun _ _ _ => trivial) hm
  have htrue := h _ m (.call (.pcount 0 0x100000)) hrun _ hmem
  rw [huser] at htrue
  cases htrue

end DominOS.UserAccess
