import Mathlib.Logic.Relation

/-! Runs of a transition system over any state type, and the rule that carries an
invariant along them. -/
namespace DominOS.Runs
open Relation
universe u
variable {σ : Type u} {init : σ → Prop} {step step' : σ → σ → Prop} {s t : σ}

/-- The states of the runs that start in `init`. -/
def Reachable (init : σ → Prop) (step : σ → σ → Prop) (t : σ) : Prop :=
  ∃ s, init s ∧ ReflTransGen step s t

theorem Reachable.start (h : init s) : Reachable init step s := ⟨s, h, ReflTransGen.refl⟩

theorem Reachable.next (h : Reachable init step s) (hs : step s t) : Reachable init step t := by
  obtain ⟨r, hr, hrs⟩ := h
  exact ⟨r, hr, hrs.tail hs⟩

theorem Reachable.invariant {I : σ → Prop} (h : Reachable init step t) (h0 : ∀ s, init s → I s)
    (h1 : ∀ s t, I s → step s t → I t) : I t := by
  obtain ⟨s, hs, hst⟩ := h
  induction hst with
  | refl => exact h0 s hs
  | tail _ hbc ih => exact h1 _ _ ih hbc

theorem Reachable.mono (h : Reachable init step t) (hs : ∀ s t, step s t → step' s t) :
    Reachable init step' t := by
  obtain ⟨s, hs0, hst⟩ := h
  exact ⟨s, hs0, ReflTransGen.mono (fun a b => hs a b) _ _ hst⟩

section Exec
universe v w
variable {ε : Type v} {φ : Type w} {f : ε → σ → Except φ σ}

def exec (f : ε → σ → Except φ σ) : List ε → σ → Except φ σ
  | [], s => .ok s
  | e :: es, s =>
    match f e s with
    | .ok t => exec f es t
    | .error x => .error x

def allowing (P : σ → ε → Prop) [∀ s e, Decidable (P s e)] (x : φ) (f : ε → σ → Except φ σ) (e : ε)
    (s : σ) : Except φ σ :=
  if P s e then f e s else .error x

theorem allowing_ok {P : σ → ε → Prop} [∀ s e, Decidable (P s e)] {x : φ} {e : ε}
    (h : allowing P x f e s = .ok t) : P s e ∧ f e s = .ok t := by
  unfold allowing at h
  split at h
  · rename_i hP
    exact ⟨hP, h⟩
  · cases h

theorem Reachable.exec {es : List ε} (h : Reachable init step s)
    (hf : ∀ e s t, f e s = .ok t → step s t) (he : exec f es s = .ok t) :
    Reachable init step t := by
  induction es generalizing s with
  | nil =>
    cases he
    exact h
  | cons e es ih =>
    unfold Runs.exec at he
    split at he
    · rename_i u hu
      exact ih (h.next (hf e s u hu)) he
    · cases he
end Exec

end DominOS.Runs
