import DominOS.Runs

/-! A machine of which only a part can be seen: where every step either shows nothing or does to
the visible part what a smaller machine does, runs that show the same actions look the same. -/
namespace DominOS.Unwinding
open Runs
universe u v w
variable {ε : Type w} {σ ν α ρ φ : Type u}

/-- What can be seen of a state, of the event that comes next, and of what a step put out. -/
structure Window (ε : Type w) (σ ν α ρ : Type u) where
  view : σ → ν
  act : ε → σ → Option α
  out : ε → σ → σ → List ρ

namespace Window
variable {W : Window ε σ ν α ρ} {f : ε → σ → Except φ σ} {next : α → ν → ν × List ρ} {I : σ → Prop}
  {e : ε} {es es' : List ε} {s s' t t' : σ}

def acts (W : Window ε σ ν α ρ) (f : ε → σ → Except φ σ) : List ε → σ → List α
  | [], _ => []
  | e :: es, s =>
    match f e s with
    | .ok t => (W.act e s).toList ++ W.acts f es t
    | .error _ => []

def outs (W : Window ε σ ν α ρ) (f : ε → σ → Except φ σ) : List ε → σ → List ρ
  | [], _ => []
  | e :: es, s =>
    match f e s with
    | .ok t => W.out e s t ++ W.outs f es t
    | .error _ => []

def replay (next : α → ν → ν × List ρ) : List α → ν → ν × List ρ
  | [], v => (v, [])
  | a :: as, v => ((replay next as (next a v).1).1, (next a v).2 ++ (replay next as (next a v).1).2)

/-- The smaller machine makes of what a step shows what the step does to what can be seen. -/
def Shows (W : Window ε σ ν α ρ) (next : α → ν → ν × List ρ) (e : ε) (s t : σ) : Prop :=
  (W.view t, W.out e s t) = replay next (W.act e s).toList (W.view s)

theorem replay_append (as bs : List α) (v : ν) : replay next (as ++ bs) v =
    ((replay next bs (replay next as v).1).1,
      (replay next as v).2 ++ (replay next bs (replay next as v).1).2) := by
  induction as generalizing v with
  | nil => simp [replay]
  | cons a as ih => simp [replay, ih]

theorem exec_replay (hstep : ∀ e s t, I s → f e s = .ok t → I t ∧ W.Shows next e s t) (hI : I s)
    (h : exec f es s = .ok t) :
    (W.view t, W.outs f es s) = replay next (W.acts f es s) (W.view s) := by
  induction es generalizing s with
  | nil =>
    cases h
    rfl
  | cons e es ih =>
    unfold exec at h
    cases hf : f e s with
    | error x =>
      rw [hf] at h
      cases h
    | ok u =>
      rw [hf] at h
      obtain ⟨hu, hshow⟩ := hstep e s u hI hf
      have hrest := ih hu h
      unfold Shows at hshow
      simp only [acts, outs, hf, replay_append, ← hshow, ← hrest]

/-- Runs from states that look alike, with the same actions, look alike to their ends. -/
theorem exec_agree (hstep : ∀ e s t, I s → f e s = .ok t → I t ∧ W.Shows next e s t) (hI : I s)
    (hI' : I s') (hv : W.view s = W.view s') (ha : W.acts f es s = W.acts f es' s')
    (h : exec f es s = .ok t) (h' : exec f es' s' = .ok t') :
    W.view t = W.view t' ∧ W.outs f es s = W.outs f es' s' := by
  have hrun := exec_replay hstep hI h
  have hrun' := exec_replay hstep hI' h'
  rw [ha, hv, ← hrun'] at hrun
  exact Prod.mk.injEq .. ▸ hrun

end Window
end DominOS.Unwinding
