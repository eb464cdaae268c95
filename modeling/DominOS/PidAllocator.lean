import DominOS.ProcessTask
import DominOS.Runs
import Mathlib.Data.Finset.Card
import Mathlib.Data.Finset.Max

/-! pid_allocator.c: the pids in use are the bits of an array of words. -/
namespace DominOS.PidAllocator
open Runs

def nbProc : Nat := 32

/-- The bound of `__pidmap`: `PID_MAX` is not in parentheses and reads `NBPROC - 1` in the middle of
a term. -/
def pidmapWords : Nat := if nbProc - 1 % 8 = 0 then nbProc - 1 / 8 else nbProc - 1 / 8 + 1

def wordOffset (b : Nat) : Nat := b / 32

def bitOffset (b : Nat) : Nat := b % 32

abbrev Pidmap := Nat → BitVec 32

variable {m m' : Pidmap} {p q : Nat}

def setPid (pid : Nat) (m : Pidmap) : Pidmap :=
  Function.update m (wordOffset pid) (m (wordOffset pid) ||| 1#32 <<< bitOffset pid)

def freePid (pid : Nat) (m : Pidmap) : Pidmap :=
  Function.update m (wordOffset pid) (m (wordOffset pid) &&& ~~~(1#32 <<< bitOffset pid))

def pidUsed (m : Pidmap) (pid : Nat) : Bool :=
  decide (m (wordOffset pid) &&& 1#32 <<< bitOffset pid ≠ 0#32)

def allocPidLoop (m : Pidmap) : Nat → Nat → Option Nat
  | 0, _ => none
  | turns + 1, pid =>
    if pidUsed m pid then
      if pid > nbProc - 1 then none else allocPidLoop m turns (pid + 1)
    else some pid

/-- `alloc_pid`, whose loop ends behind `PID_MAX`. -/
def allocPid (m : Pidmap) : Option Nat × Pidmap :=
  match allocPidLoop m (nbProc + 1) 0 with
  | none => (none, m)
  | some pid => (some pid, setPid pid m)

section Bits

theorem bit_lt : bitOffset p < 32 := Nat.mod_lt _ (by decide)

theorem same_bit : wordOffset q = wordOffset p ∧ bitOffset q = bitOffset p ↔ q = p := by
  unfold wordOffset bitOffset
  omega

theorem getLsbD_bit {i j : Nat} (hi : i < 32) : (1#32 <<< i).getLsbD j = decide (j = i) := by
  rw [← BitVec.twoPow_eq, BitVec.getLsbD_twoPow]
  by_cases hj : j = i
  · simp [hj, hi]
  · simp [hj, Ne.symm hj]

theorem pidUsed_eq : pidUsed m p = (m (wordOffset p)).getLsbD (bitOffset p) := by
  have hbit := getLsbD_bit (j := bitOffset p) (bit_lt (p := p))
  rw [decide_eq_true rfl] at hbit
  unfold pidUsed
  cases hused : (m (wordOffset p)).getLsbD (bitOffset p) with
  | false =>
    refine decide_eq_false (not_not_intro (BitVec.eq_of_getLsbD_eq fun j _ => ?_))
    rw [BitVec.getLsbD_and, getLsbD_bit bit_lt, BitVec.getLsbD_zero]
    by_cases hj : j = bitOffset p
    · rw [hj, hused, Bool.false_and]
    · simp [hj]
  | true =>
    refine decide_eq_true fun hzero => ?_
    have h := congrArg (BitVec.getLsbD · (bitOffset p)) hzero
    simp [hused, hbit] at h

theorem pidUsed_setPid : pidUsed (setPid p m) q = (decide (q = p) || pidUsed m q) := by
  rw [pidUsed_eq, pidUsed_eq]
  unfold setPid
  by_cases hw : wordOffset q = wordOffset p
  · rw [hw, Function.update_self, BitVec.getLsbD_or, getLsbD_bit bit_lt, Bool.or_comm]
    have hsame : bitOffset q = bitOffset p ↔ q = p := ⟨fun h => same_bit.mp ⟨hw, h⟩, congrArg _⟩
    simp only [hsame]
  · have hne : q ≠ p := fun h => hw (congrArg _ h)
    rw [Function.update_of_ne hw, decide_eq_false hne, Bool.false_or]

theorem pidUsed_freePid : pidUsed (freePid p m) q = (!decide (q = p) && pidUsed m q) := by
  rw [pidUsed_eq, pidUsed_eq]
  unfold freePid
  by_cases hw : wordOffset q = wordOffset p
  · rw [hw, Function.update_self, BitVec.getLsbD_and, BitVec.getLsbD_not, getLsbD_bit bit_lt,
      Bool.and_comm]
    have hsame : bitOffset q = bitOffset p ↔ q = p := ⟨fun h => same_bit.mp ⟨hw, h⟩, congrArg _⟩
    simp [hsame, bit_lt]
  · have hne : q ≠ p := fun h => hw (congrArg _ h)
    rw [Function.update_of_ne hw, decide_eq_false hne, Bool.not_false, Bool.true_and]

end Bits

theorem allocPidLoop_eq (turns pid : Nat) :
    allocPidLoop m turns pid = Process.allocPidFrom (pidUsed m) turns pid := by
  induction turns generalizing pid with
  | zero => rfl
  | succ turns ih =>
    unfold allocPidLoop Process.allocPidFrom
    rw [ih]
    rfl

theorem allocPid_refines : (allocPid m).1 = Process.allocPid (pidUsed m) ∧
    ∀ p, (allocPid m).1 = some p → (pidUsed (allocPid m).2) = Function.update (pidUsed m) p true := by
  have hloop : allocPidLoop m (nbProc + 1) 0 = Process.allocPid (pidUsed m) := allocPidLoop_eq _ _
  unfold allocPid
  rw [hloop]
  cases h : Process.allocPid (pidUsed m) with
  | none => exact ⟨rfl, nofun⟩
  | some pid =>
    refine ⟨rfl, fun p hp => funext fun q => ?_⟩
    cases hp
    rw [pidUsed_setPid]
    by_cases hq : q = pid
    · simp [hq]
    · simp [hq]

theorem allocPidLoop_some {turns pid : Nat} (ht : pid + turns = nbProc + 1)
    (h : allocPidLoop m turns pid = some p) :
    pidUsed m p = false ∧ p ≤ nbProc ∧ ∀ q, pid ≤ q → q < p → pidUsed m q = true := by
  induction turns generalizing pid with
  | zero => cases h
  | succ turns ih =>
    unfold allocPidLoop at h
    split at h
    · rename_i hused
      split at h
      · cases h
      · obtain ⟨hfree, hle, hbelow⟩ := ih (by omega) h
        refine ⟨hfree, hle, fun q hq hlt => ?_⟩
        by_cases he : q = pid
        · exact he ▸ hused
        · exact hbelow q (by omega) hlt
    · rename_i hfree
      cases h
      exact ⟨Bool.eq_false_of_not_eq_true hfree, by omega, fun q hq hlt => by omega⟩

theorem allocPidLoop_none {turns pid : Nat} (ht : pid + turns = nbProc + 1)
    (h : allocPidLoop m turns pid = none) : ∀ q, pid ≤ q → q ≤ nbProc → pidUsed m q = true := by
  induction turns generalizing pid with
  | zero => omega
  | succ turns ih =>
    intro q hq hle
    unfold allocPidLoop at h
    split at h
    · rename_i hused
      by_cases he : q = pid
      · exact he ▸ hused
      · split at h
        · omega
        · exact ih (by omega) h q (by omega) hle
    · cases h

def allocated (m : Pidmap) : Finset Nat :=
  (Finset.range (pidmapWords * 32)).filter fun pid => pidUsed m pid = true

theorem mem_allocated : p ∈ allocated m ↔ p < pidmapWords * 32 ∧ pidUsed m p = true := by
  simp [allocated]

/-- What `alloc_pid` and `free_pid` promise for one state of the bitmap. -/
structure Lawful (m : Pidmap) : Prop where
  smallest : ∀ pid, (allocPid m).1 = some pid →
    pid ≤ nbProc - 1 ∧ pidUsed m pid = false ∧ ∀ q < pid, pidUsed m q = true
  full : (allocPid m).1 = none ↔ (allocated m).card = nbProc
  bound : (allocated (allocPid m).2).card ≤ nbProc
  others : ∀ p q, q ≠ p →
    pidUsed (setPid p m) q = pidUsed m q ∧ pidUsed (freePid p m) q = pidUsed m q

/-- `alloc_pid` is called while fewer than `NBPROC` pids are in use. -/
inductive RoomyStep : Pidmap → Pidmap → Prop
  | alloc {m : Pidmap} : (allocated m).card < nbProc → RoomyStep m (allocPid m).2
  | free {m : Pidmap} {p : Nat} : pidUsed m p = true → RoomyStep m (freePid p m)

def Empty (m : Pidmap) : Prop := m = fun _ => 0#32

theorem allocPid_none (h : (allocPid m).1 = none) : nbProc < (allocated m).card := by
  have hloop : allocPidLoop m (nbProc + 1) 0 = none := by
    unfold allocPid at h
    split at h
    · assumption
    · cases h
  have hsub : Finset.range (nbProc + 1) ⊆ allocated m := by
    intro q hq
    have hlt : q < nbProc + 1 := Finset.mem_range.mp hq
    refine mem_allocated.mpr ⟨hlt.trans_le (by decide), ?_⟩
    exact allocPidLoop_none (Nat.zero_add _) hloop q (Nat.zero_le q) (Nat.le_of_lt_succ hlt)
  have hcard := Finset.card_le_card hsub
  rw [Finset.card_range] at hcard
  exact hcard

theorem allocPid_some (h : (allocPid m).1 = some p) : (allocPid m).2 = setPid p m ∧
    pidUsed m p = false ∧ p ≤ nbProc ∧ ∀ q < p, pidUsed m q = true := by
  unfold allocPid at h ⊢
  split at h
  · cases h
  · rename_i pid hloop
    cases h
    obtain ⟨hfree, hle, hbelow⟩ := allocPidLoop_some (Nat.zero_add _) hloop
    exact ⟨rfl, hfree, hle, fun q hq => hbelow q (Nat.zero_le q) hq⟩

theorem allocated_setPid (hp : p < pidmapWords * 32) (hfree : pidUsed m p = false) :
    (allocated (setPid p m)).card = (allocated m).card + 1 := by
  have hnew : allocated (setPid p m) = insert p (allocated m) := by
    ext q
    rw [Finset.mem_insert, mem_allocated, mem_allocated, pidUsed_setPid]
    by_cases hq : q = p
    · simp [hq, hp]
    · simp [hq]
  have hnot : p ∉ allocated m := fun h => by
    have hused := (mem_allocated.mp h).2
    rw [hfree] at hused
    cases hused
  rw [hnew, Finset.card_insert_of_notMem hnot]

theorem allocated_freePid : (allocated (freePid p m)).card ≤ (allocated m).card := by
  refine Finset.card_le_card fun q hq => ?_
  obtain ⟨hlt, hused⟩ := mem_allocated.mp hq
  rw [pidUsed_freePid] at hused
  exact mem_allocated.mpr ⟨hlt, (Bool.and_eq_true_iff.mp hused).2⟩

theorem allocated_alloc : (allocated (allocPid m).2).card ≤ (allocated m).card + 1 := by
  cases h : (allocPid m).1 with
  | none =>
    have hsame : (allocPid m).2 = m := by
      unfold allocPid at h ⊢
      split at h
      · rfl
      · cases h
    rw [hsame]
    exact Nat.le_succ _
  | some pid =>
    obtain ⟨hnew, hfree, hle, _⟩ := allocPid_some h
    have hlt : pid < pidmapWords * 32 := hle.trans_lt (by decide)
    rw [hnew, allocated_setPid hlt hfree]

theorem smallest_le (hroom : (allocated m).card < nbProc) (h : (allocPid m).1 = some p) :
    p ≤ nbProc - 1 := by
  by_contra hgt
  obtain ⟨_, _, _, hbelow⟩ := allocPid_some h
  have hsub : Finset.range nbProc ⊆ allocated m := by
    intro q hq
    have hlt : q < nbProc := Finset.mem_range.mp hq
    exact mem_allocated.mpr ⟨hlt.trans (by decide), hbelow q (by omega)⟩
  have hcard := Finset.card_le_card hsub
  rw [Finset.card_range] at hcard
  omega

theorem lawful_of_room (hroom : (allocated m).card < nbProc) : Lawful m where
  smallest pid h :=
    ⟨smallest_le hroom h, (allocPid_some h).2.1, (allocPid_some h).2.2.2⟩
  full := by
    constructor
    · intro h
      have := allocPid_none h
      omega
    · intro h
      omega
  bound := by
    have := allocated_alloc (m := m)
    omega
  others p q hq := by
    rw [pidUsed_setPid, pidUsed_freePid, decide_eq_false hq]
    exact ⟨Bool.false_or _, Bool.true_and _⟩

theorem Lawful.room (h : Lawful m) : (allocated m).card < nbProc := by
  by_contra hfull
  have hnot : (allocPid m).1 ≠ none := by
    intro hnone
    have hcard := h.full.mp hnone
    have := allocPid_none hnone
    omega
  obtain ⟨pid, hpid⟩ := Option.ne_none_iff_exists'.mp hnot
  obtain ⟨hnew, hfree, hle, _⟩ := allocPid_some hpid
  have hlt : pid < pidmapWords * 32 := hle.trans_lt (by decide)
  have hbound := h.bound
  rw [hnew, allocated_setPid hlt hfree] at hbound
  omega

/-- Pids are allocated by the law exactly while fewer than `NBPROC` are in use; and where they are
only asked for then, there are never more. -/
theorem alloc_pid_lawful (m : Pidmap) : (Lawful m ↔ (allocated m).card < nbProc) ∧
    (Reachable Empty RoomyStep m → (allocated m).card ≤ nbProc) := by
  refine ⟨⟨Lawful.room, lawful_of_room⟩, fun hr => ?_⟩
  refine hr.invariant (I := fun m => (allocated m).card ≤ nbProc) ?_ fun m m' hm hstep => ?_
  · rintro _ rfl
    decide +kernel
  · cases hstep with
    | alloc hroom => exact (lawful_of_room hroom).bound
    | free hused => exact allocated_freePid.trans hm

def allocs : Nat → Pidmap
  | 0 => fun _ => 0#32
  | n + 1 => (allocPid (allocs n)).2

theorem allocPid_next {n : Nat} (hn : n ≤ nbProc) (h : ∀ q, pidUsed m q = decide (q < n)) :
    (allocPid m).1 = some n := by
  cases hres : (allocPid m).1 with
  | none =>
    exfalso
    unfold allocPid at hres
    split at hres
    · rename_i hloop
      have hused := allocPidLoop_none (Nat.zero_add _) hloop n (Nat.zero_le n) hn
      rw [h, decide_eq_true_iff] at hused
      omega
    · cases hres
  | some pid =>
    obtain ⟨_, hfree, _, hbelow⟩ := allocPid_some hres
    rw [h, decide_eq_false_iff_not] at hfree
    by_cases hlt : n < pid
    · have hused := hbelow n hlt
      rw [h, decide_eq_true_iff] at hused
      omega
    · congr 1
      omega

theorem allocs_used {n : Nat} (hn : n ≤ nbProc) : ∀ q, pidUsed (allocs n) q = decide (q < n) := by
  induction n with
  | zero =>
    intro q
    have hzero : (allocs 0 (wordOffset q)).getLsbD (bitOffset q) = false := BitVec.getLsbD_zero
    rw [pidUsed_eq, hzero]
    simp
  | succ n ih =>
    intro q
    have hused := ih (by omega)
    have hnew := (allocPid_some (allocPid_next (by omega) hused)).1
    unfold allocs
    rw [hnew, pidUsed_setPid, hused, ← Bool.decide_or]
    exact decide_eq_decide.mpr (by omega)

theorem allocs_card {n : Nat} (hn : n ≤ nbProc) : (allocated (allocs n)).card = n := by
  have hrange : allocated (allocs n) = Finset.range n := by
    ext q
    have hwords : nbProc ≤ pidmapWords * 32 := by decide
    rw [mem_allocated, allocs_used hn, decide_eq_true_iff, Finset.mem_range]
    omega
  rw [hrange, Finset.card_range]

theorem allocs_run {n : Nat} (hn : n ≤ nbProc) : Reachable Empty RoomyStep (allocs n) := by
  induction n with
  | zero => exact Reachable.start rfl
  | succ n ih =>
    refine (ih (by omega)).next (.alloc ?_)
    rw [allocs_card (by omega)]
    omega

theorem alloc_pid_lawful_two : (allocated (allocs 2)).card ≤ nbProc ∧ Lawful (allocs 2) :=
  ⟨(alloc_pid_lawful (allocs 2)).2 (allocs_run (by decide)),
    (alloc_pid_lawful (allocs 2)).1.mpr (by rw [allocs_card (by decide)]; decide)⟩

/-- The call after `NBPROC` others allocates the pid behind `PID_MAX`. -/
theorem pid_beyond_max : Reachable Empty RoomyStep (allocs 32) ∧ (allocated (allocs 32)).card = nbProc ∧
    (allocPid (allocs 32)).1 = some 32 ∧ ¬ Lawful (allocs 32) := by
  have hfull : (allocated (allocs 32)).card = nbProc := allocs_card le_rfl
  exact ⟨allocs_run le_rfl, hfull, allocPid_next le_rfl (allocs_used le_rfl),
    fun h => h.room.ne hfull⟩

end DominOS.PidAllocator
