import Mathlib.Tactic.Common

/-! Rules for computations that may fail: what a successful run of a bind, a
conditional or a monadic fold says, for any error and state type. -/
namespace DominOS.Fallible
universe u v
variable {ε : Type u} {σ α β : Type v}

theorem bind_ok {x : Except ε α} {f : α → Except ε β} {b : β} :
    (x >>= f) = .ok b ↔ ∃ a, x = .ok a ∧ f a = .ok b := by
  cases x with
  | error e => simp [bind, Except.bind]
  | ok a => simp [bind, Except.bind]

theorem map_ok {x : Except ε α} {f : α → β} {b : β} :
    x.map f = .ok b ↔ ∃ a, x = .ok a ∧ f a = b := by
  cases x with
  | error e => simp [Except.map]
  | ok a => simp [Except.map]

@[simp] theorem ok_bind (a : α) (f : α → Except ε β) : (Except.ok a >>= f) = f a := rfl

@[simp] theorem error_bind (e : ε) (f : α → Except ε β) :
    ((Except.error e : Except ε α) >>= f) = .error e := rfl

instance decidableError [DecidableEq ε] (x : Except ε α) (e : ε) : Decidable (x = .error e) :=
  match x with
  | .ok _ => isFalse nofun
  | .error f => decidable_of_iff (f = e) (by simp)

instance decidableSome (o : Option α) (p : α → Prop) [DecidablePred p] :
    Decidable (∀ a, o = some a → p a) :=
  match o with
  | none => isTrue nofun
  | some a => decidable_of_iff (p a) ⟨fun h _ ha => Option.some.inj ha ▸ h, fun h => h a rfl⟩

/-- A run ends well, in a value that satisfies `Q`. -/
def Ends (x : Except ε α) (Q : α → Prop) : Prop :=
  match x with
  | .ok a => Q a
  | .error _ => False

instance (x : Except ε α) (Q : α → Prop) [DecidablePred Q] : Decidable (Ends x Q) :=
  match x with
  | .ok a => inferInstanceAs (Decidable (Q a))
  | .error _ => inferInstanceAs (Decidable False)

theorem Ends.elim {x : Except ε α} {Q : α → Prop} (h : Ends x Q) : ∃ a, x = .ok a ∧ Q a := by
  cases x with
  | ok a => exact ⟨a, rfl, h⟩
  | error e => exact False.elim h

attribute [irreducible] Ends

/-- A run that ends well satisfies `Q`, and one that fails does not fail by a `bad` error. -/
def Post (bad : ε → Prop) (x : Except ε α) (Q : α → Prop) : Prop :=
  match x with
  | .ok a => Q a
  | .error e => ¬ bad e

namespace Post
variable {bad : ε → Prop} {x : Except ε α} {Q R : α → Prop}

theorem ok {a : α} (h : Q a) : Post bad (.ok a) Q := h

theorem error {e : ε} (h : ¬ bad e) : Post bad (.error e) Q := h

theorem mono (h : Post bad x Q) (hQ : ∀ a, Q a → R a) : Post bad x R := by
  cases x with
  | error e => exact h
  | ok a => exact hQ a h

theorem bind {f : α → Except ε β} {S : β → Prop} (h : Post bad x Q)
    (hf : ∀ a, Q a → Post bad (f a) S) : Post bad (x >>= f) S := by
  cases x with
  | error e => exact h
  | ok a => exact hf a h

theorem of_eq {a : α} (h : x = .ok a) (hq : Q a) : Post bad x Q := by
  rw [h]
  exact hq

theorem elim {a : α} (h : Post bad x Q) (hx : x = .ok a) : Q a := by
  rw [hx] at h
  exact h

theorem not_bad {e : ε} (h : Post bad x Q) (hx : x = .error e) : ¬ bad e := by
  rw [hx] at h
  exact h

theorem foldlM_from {f : σ → α → Except ε σ} (I : List α → List α → σ → Prop)
    (hstep : ∀ done a rest s, I done (a :: rest) s →
      Post bad (f s a) (fun t => I (done ++ [a]) rest t))
    (done rest : List α) (s : σ) (h0 : I done rest s) :
    Post bad (rest.foldlM f s) (fun t => I (done ++ rest) [] t) := by
  induction rest generalizing done s with
  | nil =>
    rw [List.append_nil]
    exact h0
  | cons a rest ih =>
    rw [List.foldlM_cons]
    refine (hstep done a rest s h0).bind fun t ht => ?_
    have := ih (done ++ [a]) t ht
    rwa [List.append_assoc, List.singleton_append] at this

theorem foldlM {f : σ → α → Except ε σ} {l : List α} {s : σ} (I : List α → List α → σ → Prop)
    (h0 : I [] l s) (hstep : ∀ done a rest s, I done (a :: rest) s →
      Post bad (f s a) (fun t => I (done ++ [a]) rest t)) :
    Post bad (l.foldlM f s) (fun t => I l [] t) := foldlM_from I hstep [] l s h0
end Post

end DominOS.Fallible
