import Mathlib.RingTheory.ZMod.UnitsCyclic

/-! The walk that multiplies by 5 and adds 1 meets every residue modulo a power of two, also when
it is perturbed for its first steps. -/
namespace DominOS.ProbeOrder

variable {k m n s x p y : Nat}

def quintuple (x : Nat) : Nat := 5 * x + 1

theorem quintuple_iterate (n x : Nat) : 4 * quintuple^[n] x + 1 = 5 ^ n * (4 * x + 1) := by
  induction n generalizing x with
  | zero => simp
  | succ n ih =>
    rw [Function.iterate_succ_apply, ih, quintuple, pow_succ]
    ring

theorem iterate_injective (hm : m < 2 ^ k) (hn : n < 2 ^ k)
    (h : quintuple^[m] x % 2 ^ k = quintuple^[n] x % 2 ^ k) : m = n := by
  have hfour : 4 * quintuple^[m] x + 1 ≡ 4 * quintuple^[n] x + 1 [MOD 2 ^ (k + 2)] := by
    have hmul := Nat.ModEq.mul_left' 4 (show quintuple^[m] x ≡ quintuple^[n] x [MOD 2 ^ k] from h)
    rw [show 4 * 2 ^ k = 2 ^ (k + 2) by ring] at hmul
    exact hmul.add_right 1
  rw [quintuple_iterate, quintuple_iterate] at hfour
  have hodd : Nat.gcd (2 ^ (k + 2)) (4 * x + 1) = 1 := by
    apply Nat.Coprime.pow_left
    rw [Nat.coprime_two_left]
    exact ⟨2 * x, by ring⟩
  have hpow := Nat.ModEq.cancel_right_of_coprime hodd hfour
  have hz : (5 : ZMod (2 ^ (k + 2))) ^ m = 5 ^ n := by
    have := (ZMod.natCast_eq_natCast_iff _ _ _).mpr hpow
    push_cast at this
    exact this
  have horder := ZMod.orderOf_five k
  exact pow_injOn_Iio_orderOf (by simpa [horder] using hm) (by simpa [horder] using hn) hz

theorem iterate_surjective (x : Nat) (hy : y < 2 ^ k) : ∃ n < 2 ^ k, quintuple^[n] x % 2 ^ k = y := by
  have hmaps : Set.MapsTo (fun n => quintuple^[n] x % 2 ^ k) (Finset.range (2 ^ k))
      (Finset.range (2 ^ k)) := by
    intro n _
    simpa using Nat.mod_lt _ (Nat.two_pow_pos k)
  have hinj : Set.InjOn (fun n => quintuple^[n] x % 2 ^ k) (Finset.range (2 ^ k)) := by
    intro m hm n hn h
    exact iterate_injective (by simpa using hm) (by simpa using hn) h
  obtain ⟨n, hn, hx⟩ := Finset.surjOn_of_injOn_of_card_le _ hmaps hinj (Nat.le_refl _)
    (show y ∈ (Finset.range (2 ^ k) : Set Nat) by simpa using hy)
  exact ⟨n, by simpa using hn, hx⟩

/-- The walk from `x` whose step number `n` also adds `p / 32 ^ n`. -/
def perturbed (x p : Nat) : Nat → Nat
  | 0 => x
  | n + 1 => 5 * perturbed x p n + p / 32 ^ n + 1

theorem perturbed_settled (hp : p < 32 ^ s) (n : Nat) :
    perturbed x p (s + n) = quintuple^[n] (perturbed x p s) := by
  induction n with
  | zero => rfl
  | succ n ih =>
    have hz : p / 32 ^ (s + n) = 0 := by
      apply Nat.div_eq_of_lt
      exact hp.trans_le (Nat.pow_le_pow_right (by decide) (Nat.le_add_right s n))
    rw [Function.iterate_succ_apply', ← ih, ← Nat.add_assoc, perturbed, hz, quintuple]

theorem perturbed_surjective (x : Nat) (hp : p < 32 ^ s) (hy : y < 2 ^ k) :
    ∃ n < s + 2 ^ k, perturbed x p n % 2 ^ k = y := by
  obtain ⟨n, hn, h⟩ := iterate_surjective (perturbed x p s) hy
  refine ⟨s + n, by omega, ?_⟩
  rw [perturbed_settled hp]
  exact h

end DominOS.ProbeOrder
