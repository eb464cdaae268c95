import Mathlib.Logic.Function.Basic

/-! A book says what entry each key has, and an entry has a resource: no two keys have the same
one, and a register marks those that are taken. -/
namespace DominOS.Leases
universe u v w
variable {K : Type u} {E : Type v} {R : Type w} {of : E → R} {book : K → Option E} {taken : R → Prop}
  {k : K} {e e' : E}

def Exclusive (of : E → R) (book : K → Option E) : Prop :=
  ∀ k k' e e', book k = some e → book k' = some e' → of e = of e' → k = k'

def Marked (of : E → R) (book : K → Option E) (taken : R → Prop) : Prop :=
  ∀ r, taken r ↔ ∃ k e, book k = some e ∧ of e = r

theorem Marked.held (h : Marked of book taken) (hk : book k = some e) : taken (of e) :=
  (h (of e)).mpr ⟨k, e, hk, rfl⟩

variable [DecidableEq K]

section Update

theorem update_some {x : Option E} {k' : K} :
    Function.update book k x k' = some e' ↔ (k' = k ∧ x = some e') ∨ (k' ≠ k ∧ book k' = some e') := by
  by_cases hk : k' = k
  · subst hk
    simp
  · simp [hk]

theorem Exclusive.insert (h : Exclusive of book)
    (hnew : ∀ k' e', k' ≠ k → book k' = some e' → of e' ≠ of e) :
    Exclusive of (Function.update book k (some e)) := by
  intro k₁ k₂ e₁ e₂ h₁ h₂ he
  rw [update_some] at h₁ h₂
  rcases h₁ with ⟨rfl, h₁⟩ | ⟨hne₁, h₁⟩
  · cases h₁
    rcases h₂ with ⟨rfl, _⟩ | ⟨hne₂, h₂⟩
    · rfl
    · exact absurd he.symm (hnew k₂ e₂ hne₂ h₂)
  · rcases h₂ with ⟨rfl, h₂⟩ | ⟨_, h₂⟩
    · cases h₂
      exact absurd he (hnew k₁ e₁ hne₁ h₁)
    · exact h k₁ k₂ e₁ e₂ h₁ h₂ he

theorem Exclusive.replace (h : Exclusive of book) (hk : book k = some e) (he : of e' = of e) :
    Exclusive of (Function.update book k (some e')) := by
  apply h.insert
  intro k' e₁ hne h₁ hsame
  exact hne (h k' k e₁ e h₁ hk (hsame.trans he))

theorem Exclusive.remove (h : Exclusive of book) (k : K) : Exclusive of (Function.update book k none) := by
  intro k₁ k₂ e₁ e₂ h₁ h₂
  rw [update_some] at h₁ h₂
  obtain ⟨_, h₁⟩ := h₁.resolve_left nofun
  obtain ⟨_, h₂⟩ := h₂.resolve_left nofun
  exact h k₁ k₂ e₁ e₂ h₁ h₂

theorem Marked.insert (h : Marked of book taken) (hk : book k = none) :
    Marked of (Function.update book k (some e)) (fun r => r = of e ∨ taken r) := by
  intro r
  constructor
  · rintro (rfl | hr)
    · exact ⟨k, e, Function.update_self .., rfl⟩
    · obtain ⟨k', e', hk', he'⟩ := (h r).mp hr
      refine ⟨k', e', update_some.mpr (Or.inr ⟨?_, hk'⟩), he'⟩
      rintro rfl
      cases hk.symm.trans hk'
  · rintro ⟨k', e', hk', he'⟩
    rcases update_some.mp hk' with ⟨_, h'⟩ | ⟨_, h'⟩
    · cases h'
      exact Or.inl he'.symm
    · exact Or.inr ((h r).mpr ⟨k', e', h', he'⟩)

theorem Marked.replace (h : Marked of book taken) (hk : book k = some e) (he : of e' = of e) :
    Marked of (Function.update book k (some e')) taken := by
  intro r
  rw [h r]
  constructor
  · rintro ⟨k', e₁, hk', rfl⟩
    by_cases hkk : k' = k
    · subst hkk
      cases hk.symm.trans hk'
      exact ⟨k', e', Function.update_self .., he⟩
    · exact ⟨k', e₁, update_some.mpr (Or.inr ⟨hkk, hk'⟩), rfl⟩
  · rintro ⟨k', e₁, hk', rfl⟩
    rcases update_some.mp hk' with ⟨_, h'⟩ | ⟨_, h'⟩
    · cases h'
      exact ⟨k, e, hk, he.symm⟩
    · exact ⟨k', e₁, h', rfl⟩

theorem Marked.remove (h : Marked of book taken) (hx : Exclusive of book) (hk : book k = some e) :
    Marked of (Function.update book k none) (fun r => r ≠ of e ∧ taken r) := by
  intro r
  constructor
  · rintro ⟨hne, hr⟩
    obtain ⟨k', e', hk', rfl⟩ := (h r).mp hr
    refine ⟨k', e', update_some.mpr (Or.inr ⟨?_, hk'⟩), rfl⟩
    rintro rfl
    cases hk.symm.trans hk'
    exact hne rfl
  · rintro ⟨k', e', hk', rfl⟩
    obtain ⟨hne, h'⟩ := (update_some.mp hk').resolve_left nofun
    exact ⟨fun he => hne (hx k' k e' e h' hk he), h.held h'⟩

end Update

end DominOS.Leases
