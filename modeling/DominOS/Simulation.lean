import DominOS.Runs

/-! Two fallible computations side by side: they fail alike or give related values, as long as
the first does not fail by a `bad` error. -/
namespace DominOS.Simulation
open Runs
universe u v w
variable {ε : Type u} {α β γ δ σ τ : Type v} {bad : ε → Prop} {R : α → β → Prop}
  {x : Except ε α} {y : Except ε β}

def Sim (bad : ε → Prop) (R : α → β → Prop) (x : Except ε α) (y : Except ε β) : Prop :=
  match x, y with
  | .ok a, .ok b => R a b
  | .error e, .ok _ => bad e
  | .error e, .error e' => bad e ∨ e = e'
  | .ok _, .error _ => False

namespace Sim

theorem ok {a : α} {b : β} (h : R a b) : Sim bad R (.ok a) (.ok b) := h

theorem error (e : ε) : Sim bad R (.error e) (.error e) := Or.inr rfl

theorem of_bad {e : ε} (h : bad e) : Sim bad R (.error e) y := by
  cases y with
  | ok b => exact h
  | error e' => exact Or.inl h

theorem mono {S : α → β → Prop} (h : Sim bad R x y) (hS : ∀ a b, R a b → S a b) : Sim bad S x y := by
  cases x with
  | error e => cases y <;> exact h
  | ok a =>
    cases y with
    | error e => exact h
    | ok b => exact hS a b h

theorem bind {S : γ → δ → Prop} {f : α → Except ε γ} {g : β → Except ε δ} (h : Sim bad R x y)
    (hf : ∀ a b, R a b → Sim bad S (f a) (g b)) : Sim bad S (x >>= f) (y >>= g) := by
  cases x with
  | error e =>
    cases y with
    | error e' =>
      rcases h with h | rfl
      · exact of_bad h
      · exact error e
    | ok b => exact of_bad h
  | ok a =>
    cases y with
    | error e => exact h.elim
    | ok b => exact hf a b h

theorem ite {p q : Prop} [Decidable p] [Decidable q] {x' : Except ε α} {y' : Except ε β} (h : p ↔ q)
    (ht : q → Sim bad R x y) (hf : ¬ q → Sim bad R x' y') :
    Sim bad R (if p then x else x') (if q then y else y') := by
  by_cases hq : q
  · rw [if_pos hq, if_pos (h.mpr hq)]
    exact ht hq
  · rw [if_neg hq, if_neg (mt h.mp hq)]
    exact hf hq

theorem foldlM {f : α → γ → Except ε α} {g : β → γ → Except ε β} {a : α} {b : β} (l : List γ)
    (hf : ∀ c a b, R a b → Sim bad R (f a c) (g b c)) (h : R a b) :
    Sim bad R (l.foldlM f a) (l.foldlM g b) := by
  induction l generalizing a b with
  | nil => exact ok h
  | cons c l ih =>
    rw [List.foldlM_cons, List.foldlM_cons]
    exact (hf c a b h).bind fun a' b' h' => ih h'

/-- Nothing bad has happened: both have failed alike, or neither has. -/
theorem outcomes (h : Sim bad R x y) (hx : ∀ e, bad e → x ≠ .error e) :
    (∃ a b, x = .ok a ∧ y = .ok b ∧ R a b) ∨ ∃ e, x = .error e ∧ y = .error e := by
  cases x with
  | ok a =>
    cases y with
    | ok b => exact Or.inl ⟨a, b, rfl, rfl, h⟩
    | error e => exact h.elim
  | error e =>
    cases y with
    | ok b => exact absurd rfl (hx e h)
    | error e' =>
      rcases h with h | rfl
      · exact absurd rfl (hx e h)
      · exact Or.inr ⟨e, rfl, rfl⟩

theorem exec {E : Type w} {f : E → α → Except ε α} {g : E → β → Except ε β} {a : α} {b : β}
    (hf : ∀ e a b, R a b → Sim bad R (f e a) (g e b)) (h : R a b) (es : List E) :
    Sim bad R (Runs.exec f es a) (Runs.exec g es b) := by
  induction es generalizing a b with
  | nil => exact ok h
  | cons e es ih =>
    have hs := hf e a b h
    unfold Runs.exec
    cases hx : f e a with
    | error x =>
      rw [hx] at hs
      cases hy : g e b with
      | error y =>
        rw [hy] at hs
        exact hs
      | ok b' =>
        rw [hy] at hs
        exact of_bad hs
    | ok a' =>
      rw [hx] at hs
      cases hy : g e b with
      | error y =>
        rw [hy] at hs
        exact hs.elim
      | ok b' =>
        rw [hy] at hs
        exact ih hs

end Sim

end DominOS.Simulation
