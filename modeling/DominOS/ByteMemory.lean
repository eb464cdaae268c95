import Mathlib.Logic.Function.Basic

/-! Bytes by address, with stores that fail outside a window, and the copies and fills made of
them. -/
namespace DominOS.ByteMemory

abbrev Memory := Nat → BitVec 8

/-- The addresses from `base` on that may be stored to. -/
structure Window where
  base : Nat
  size : Nat

variable {w : Window} {m m' : Memory} {a dst src n : Nat} {v : BitVec 16}

/-- `n` addresses from `a` on are in the window. -/
def Window.Holds (w : Window) (a n : Nat) : Prop := w.base ≤ a ∧ a + n ≤ w.base + w.size

instance : Decidable (w.Holds a n) := inferInstanceAs (Decidable (_ ∧ _))

def store (w : Window) (a : Nat) (b : BitVec 8) (m : Memory) : Option Memory :=
  if w.Holds a 1 then some (Function.update m a b) else none

def store16 (w : Window) (a : Nat) (v : BitVec 16) (m : Memory) : Option Memory :=
  (store w a (v.setWidth 8) m).bind (store w (a + 1) ((v >>> 8).setWidth 8))

/-- `n` bytes from `src` on to `dst`, the lowest first. -/
def copyUp (w : Window) : Nat → Nat → Nat → Memory → Option Memory
  | 0, _, _, m => some m
  | n + 1, dst, src, m => (store w dst (m src) m).bind (copyUp w n (dst + 1) (src + 1))

def copyDown (w : Window) : Nat → Nat → Nat → Memory → Option Memory
  | 0, _, _, m => some m
  | n + 1, dst, src, m => (store w (dst + n) (m (src + n)) m).bind (copyDown w n dst src)

def memmove (w : Window) (dst src n : Nat) (m : Memory) : Option Memory :=
  if dst < src then copyUp w n dst src m else copyDown w n dst src m

def fill16 (w : Window) (v : BitVec 16) : Nat → Nat → Memory → Option Memory
  | 0, _, m => some m
  | n + 1, a, m => (store16 w a v m).bind (fill16 w v n (a + 2))

theorem store_eq (h : w.Holds a 1) (b : BitVec 8) :
    store w a b m = some (Function.update m a b) := if_pos h

theorem store16_eq (h : w.Holds a 2) :
    store16 w a v m = some (Function.update (Function.update m a (v.setWidth 8)) (a + 1)
      ((v >>> 8).setWidth 8)) := by
  unfold Window.Holds at h
  have hlow : w.Holds a 1 := ⟨h.1, by omega⟩
  have hhigh : w.Holds (a + 1) 1 := ⟨by omega, by omega⟩
  unfold store16
  rw [store_eq hlow, Option.bind_some, store_eq hhigh]

def copied (dst src n : Nat) (m : Memory) : Memory :=
  fun a => if dst ≤ a ∧ a < dst + n then m (a - dst + src) else m a

theorem copyUp_eq (hlt : dst < src) (h : w.Holds dst n) :
    copyUp w n dst src m = some (copied dst src n m) := by
  unfold Window.Holds at h
  induction n generalizing dst src m with
  | zero =>
    unfold copyUp copied
    simp only [Option.some.injEq]
    funext a
    rw [if_neg (by omega)]
  | succ n ih =>
    have hone : w.Holds dst 1 := ⟨h.1, by omega⟩
    unfold copyUp
    rw [store_eq hone, Option.bind_some, ih (by omega) (by omega)]
    unfold copied
    simp only [Option.some.injEq]
    funext a
    by_cases ha : a = dst
    · subst ha
      rw [if_neg (by omega), if_pos (by omega), Function.update_self, Nat.sub_self, Nat.zero_add]
    · by_cases hin : dst + 1 ≤ a ∧ a < dst + 1 + n
      · rw [if_pos hin, if_pos (by omega), Function.update_of_ne (by omega)]
        congr 1
        omega
      · rw [if_neg hin, if_neg (by omega), Function.update_of_ne ha]

theorem copyDown_eq (hle : src ≤ dst) (h : w.Holds dst n) :
    copyDown w n dst src m = some (copied dst src n m) := by
  unfold Window.Holds at h
  induction n generalizing m with
  | zero =>
    unfold copyDown copied
    simp only [Option.some.injEq]
    funext a
    rw [if_neg (by omega)]
  | succ n ih =>
    have hone : w.Holds (dst + n) 1 := ⟨by omega, by omega⟩
    unfold copyDown
    rw [store_eq hone, Option.bind_some, ih (by omega)]
    unfold copied
    simp only [Option.some.injEq]
    funext a
    by_cases ha : a = dst + n
    · subst ha
      rw [if_neg (by omega), if_pos (by omega), Function.update_self]
      congr 1
      omega
    · by_cases hin : dst ≤ a ∧ a < dst + n
      · rw [if_pos hin, if_pos (by omega), Function.update_of_ne (by omega)]
      · rw [if_neg hin, if_neg (by omega), Function.update_of_ne ha]

theorem memmove_eq (h : w.Holds dst n) :
    memmove w dst src n m = some (copied dst src n m) := by
  unfold memmove
  split
  · rename_i hlt
    exact copyUp_eq hlt h
  · exact copyDown_eq (by omega) h

def filled (v : BitVec 16) (n a : Nat) (m : Memory) : Memory :=
  fun x => if a ≤ x ∧ x < a + 2 * n then
    if (x - a) % 2 = 0 then v.setWidth 8 else (v >>> 8).setWidth 8 else m x

theorem fill16_eq (h : w.Holds a (2 * n)) : fill16 w v n a m = some (filled v n a m) := by
  unfold Window.Holds at h
  induction n generalizing a m with
  | zero =>
    unfold fill16 filled
    simp only [Option.some.injEq]
    funext x
    rw [if_neg (by omega)]
  | succ n ih =>
    have htwo : w.Holds a 2 := ⟨h.1, by omega⟩
    unfold fill16
    rw [store16_eq htwo, Option.bind_some, ih (by omega)]
    unfold filled
    simp only [Option.some.injEq]
    funext x
    by_cases hin : a + 2 ≤ x ∧ x < a + 2 + 2 * n
    · have hin' : a ≤ x ∧ x < a + 2 * (n + 1) := by omega
      rw [if_pos hin, if_pos hin', show (x - a) % 2 = (x - (a + 2)) % 2 by omega]
    · rw [if_neg hin]
      by_cases hhigh : x = a + 1
      · subst hhigh
        rw [if_pos (by omega), Function.update_self, if_neg (by omega)]
      · rw [Function.update_of_ne hhigh]
        by_cases hlow : x = a
        · subst hlow
          rw [if_pos (by omega), Function.update_self, if_pos (by omega)]
        · rw [if_neg (by omega), Function.update_of_ne hlow]

def storeAll (w : Window) : Nat → List (BitVec 8) → Memory → Option Memory
  | _, [], m => some m
  | a, b :: bs, m => (store w a b m).bind (storeAll w (a + 1) bs)

theorem storeAll_append (bs cs : List (BitVec 8)) : storeAll w a (bs ++ cs) m =
    (storeAll w a bs m).bind (storeAll w (a + bs.length) cs) := by
  induction bs generalizing a m with
  | nil => rfl
  | cons b bs ih =>
    rw [List.cons_append, storeAll, storeAll]
    cases store w a b m with
    | none => rfl
    | some m₁ =>
      rw [Option.bind_some, Option.bind_some, ih, List.length_cons, Nat.add_assoc, Nat.add_comm 1]

def overlaid (a : Nat) (bs : List (BitVec 8)) (m : Memory) : Memory :=
  fun x => if a ≤ x then (bs[x - a]?).getD (m x) else m x

theorem overlaid_nil : overlaid a [] m = m := by
  funext x
  simp [overlaid]

theorem overlaid_cons (b : BitVec 8) (bs : List (BitVec 8)) :
    overlaid (a + 1) bs (Function.update m a b) = overlaid a (b :: bs) m := by
  funext x
  unfold overlaid
  by_cases ha : x = a
  · subst ha
    rw [if_neg (by omega), if_pos (Nat.le_refl x), Function.update_self, Nat.sub_self]
    rfl
  · rw [Function.update_of_ne ha]
    by_cases hlt : a + 1 ≤ x
    · have hsub : x - a = x - (a + 1) + 1 := by omega
      rw [if_pos hlt, if_pos (by omega), hsub, List.getElem?_cons_succ]
    · rw [if_neg hlt, if_neg (by omega)]

theorem storeAll_eq (b : BitVec 8) (bs : List (BitVec 8)) : storeAll w a (b :: bs) m =
    if w.Holds a (b :: bs).length then some (overlaid a (b :: bs) m) else none := by
  induction bs generalizing a b m with
  | nil =>
    rw [storeAll, ← overlaid_cons, overlaid_nil]
    unfold store
    rw [List.length_singleton]
    split <;> rfl
  | cons c bs ih =>
    have hsplit : w.Holds a (b :: c :: bs).length ↔ w.Holds a 1 ∧ w.Holds (a + 1) (c :: bs).length := by
      unfold Window.Holds
      simp only [List.length_cons]
      omega
    rw [storeAll]
    unfold store
    by_cases hone : w.Holds a 1
    · rw [if_pos hone, Option.bind_some, ih, overlaid_cons]
      by_cases hall : w.Holds (a + 1) (c :: bs).length
      · rw [if_pos hall, if_pos (hsplit.mpr ⟨hone, hall⟩)]
      · rw [if_neg hall, if_neg fun h => hall (hsplit.mp h).2]
    · rw [if_neg hone, if_neg fun h => hone (hsplit.mp h).1]
      rfl

end DominOS.ByteMemory
