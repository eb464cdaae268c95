import Mathlib.Data.List.Perm.Basic
import Mathlib.Data.List.Pairwise
import Mathlib.Data.Nat.Bitwise
import Mathlib.Algebra.BigOperators.Group.List.Basic
import Mathlib.Tactic.Linarith
import Mathlib.Tactic.Ring

/-! Dyadic blocks and tilings by them. Nothing here is about a page allocator:
a tiling is a list of aligned power-of-two blocks that cover a region without
overlap, and it survives a split, a merge of buddies and a new block. -/
namespace DominOS.BlockTiling

/-- The `2 ^ order` units that start at `base`. -/
structure Block where
  base : Nat
  order : Nat
deriving DecidableEq

namespace Block

def size (b : Block) : Nat := 2 ^ b.order

def Covers (b : Block) (x : Nat) : Prop := b.base ≤ x ∧ x < b.base + b.size

def Aligned (b : Block) : Prop := 2 ^ b.order ∣ b.base

def Apart (b c : Block) : Prop := b.base + b.size ≤ c.base ∨ c.base + c.size ≤ b.base

def buddy (b : Block) : Block := ⟨b.base ^^^ 2 ^ b.order, b.order⟩

def join (b : Block) : Block := ⟨min b.base b.buddy.base, b.order + 1⟩

theorem size_pos (b : Block) : 0 < b.size := Nat.two_pow_pos _

theorem covers_base (b : Block) : b.Covers b.base :=
  ⟨Nat.le_refl _, Nat.lt_add_of_pos_right b.size_pos⟩

theorem Apart.symm {b c : Block} (h : b.Apart c) : c.Apart b := Or.symm h

instance : Std.Symm Apart := ⟨fun _ _ h => h.symm⟩

theorem apart_iff (b c : Block) : b.Apart c ↔ ∀ x, b.Covers x → ¬ c.Covers x := by
  have hb := b.size_pos
  have hc := c.size_pos
  simp only [Apart, Covers]
  constructor
  · intro h x hx hy
    omega
  · intro h
    by_contra hn
    have h1 := h b.base ⟨by omega, by omega⟩
    have h2 := h c.base
    omega

theorem Apart.not_covers {b c : Block} (h : b.Apart c) {x : Nat} (hb : b.Covers x) :
    ¬ c.Covers x := (apart_iff b c).mp h x hb

/-- Aligned blocks nest: one that meets a block of no smaller order lies inside it. -/
theorem covers_of_meet {b c : Block} (hb : b.Aligned) (hc : c.Aligned) (ho : b.order ≤ c.order)
    {x : Nat} (hbx : b.Covers x) (hcx : c.Covers x) : ∀ y, b.Covers y → c.Covers y := by
  obtain ⟨m, hm⟩ := hb
  obtain ⟨k, hk⟩ := hc
  obtain ⟨d, hd⟩ := Nat.exists_eq_add_of_le ho
  have hs : 2 ^ c.order = 2 ^ b.order * 2 ^ d := by rw [hd, pow_add]
  simp only [Covers, size] at *
  rw [hm] at hbx ⊢
  rw [hk, hs] at hcx ⊢
  generalize 2 ^ b.order = s at *
  generalize 2 ^ d = e at *
  have h1 : k * e < m + 1 := by
    by_contra hn
    have : s * (m + 1) ≤ s * (e * k) := Nat.mul_le_mul_left s (by rw [Nat.mul_comm e k]; omega)
    nlinarith
  have h2 : m < e * (k + 1) := by
    by_contra hn
    have : s * (e * (k + 1)) ≤ s * m := Nat.mul_le_mul_left s (by omega)
    nlinarith
  intro y hy
  have h3 : s * (e * k) ≤ s * m := Nat.mul_le_mul_left s (by rw [Nat.mul_comm e k]; omega)
  have h4 : s * (m + 1) ≤ s * (e * (k + 1)) := Nat.mul_le_mul_left s (by omega)
  constructor <;> nlinarith

theorem eq_of_meet {b c : Block} (hb : b.Aligned) (hc : c.Aligned) (ho : b.order = c.order)
    {x : Nat} (hbx : b.Covers x) (hcx : c.Covers x) : b = c := by
  have h1 := covers_of_meet hb hc (Nat.le_of_eq ho) hbx hcx _ b.covers_base
  have h2 := covers_of_meet hc hb (Nat.le_of_eq ho.symm) hcx hbx _ c.covers_base
  have hbase : b.base = c.base := Nat.le_antisymm h2.1 h1.1
  cases b
  cases c
  simp_all

end Block

theorem xor_two_pow_even (m k : Nat) : (2 ^ (k + 1) * m) ^^^ 2 ^ k = 2 ^ (k + 1) * m + 2 ^ k := by
  have hlt : 2 ^ k < 2 ^ (k + 1) := Nat.pow_lt_pow_right (by omega) (by omega)
  rw [Nat.two_pow_add_eq_or_of_lt hlt m]
  apply Nat.eq_of_testBit_eq
  intro i
  rw [Nat.testBit_xor, Nat.testBit_or]
  by_cases hi : i = k
  · subst i
    rw [Nat.testBit_two_pow_mul]
    simp
  · rw [Nat.testBit_two_pow_of_ne (Ne.symm hi)]
    simp

theorem xor_two_pow_odd (m k : Nat) : (2 ^ (k + 1) * m + 2 ^ k) ^^^ 2 ^ k = 2 ^ (k + 1) * m := by
  rw [← xor_two_pow_even, Nat.xor_assoc, Nat.xor_self, Nat.xor_zero]

theorem halves {b : Block} (h : b.Aligned) :
    b.join.Aligned ∧
      (b.base = b.join.base ∧ b.buddy.base = b.join.base + b.size ∨
        b.base = b.join.base + b.size ∧ b.buddy.base = b.join.base) := by
  obtain ⟨m, hm⟩ := h
  rcases Nat.even_or_odd' m with ⟨n, rfl | rfl⟩
  · have he : b.base = 2 ^ (b.order + 1) * n := by rw [hm, pow_succ]; ring
    have hx : b.buddy.base = 2 ^ (b.order + 1) * n + 2 ^ b.order := by
      simp only [Block.buddy, he, xor_two_pow_even]
    have hj : b.join.base = 2 ^ (b.order + 1) * n := by
      simp only [Block.join, hx, he]
      exact Nat.min_eq_left (Nat.le_add_right _ _)
    exact ⟨⟨n, hj⟩, Or.inl ⟨he.trans hj.symm, by rw [hx, hj]; rfl⟩⟩
  · have he : b.base = 2 ^ (b.order + 1) * n + 2 ^ b.order := by rw [hm, pow_succ]; ring
    have hx : b.buddy.base = 2 ^ (b.order + 1) * n := by
      simp only [Block.buddy, he, xor_two_pow_odd]
    have hj : b.join.base = 2 ^ (b.order + 1) * n := by
      simp only [Block.join, hx, he]
      exact Nat.min_eq_right (Nat.le_add_right _ _)
    exact ⟨⟨n, hj⟩, Or.inr ⟨by rw [he, hj]; rfl, hx.trans hj.symm⟩⟩

theorem join_size (b : Block) : b.join.size = b.size + b.size := by
  simp only [Block.join, Block.size, pow_succ]
  omega

theorem join_lower {a k : Nat} (h : (⟨a, k + 1⟩ : Block).Aligned) :
    (⟨a, k⟩ : Block).Aligned ∧ (⟨a, k⟩ : Block).join = ⟨a, k + 1⟩ := by
  obtain ⟨m, hm⟩ := h
  have hm : a = 2 ^ (k + 1) * m := hm
  have hx : (⟨a, k⟩ : Block).buddy.base = a + 2 ^ k := by
    simp only [Block.buddy, hm, xor_two_pow_even]
  refine ⟨⟨2 * m, by rw [hm, pow_succ]; ring⟩, ?_⟩
  simp only [Block.join, hx]
  rw [Nat.min_eq_left (Nat.le_add_right _ _)]

theorem buddy_size (b : Block) : b.buddy.size = b.size := rfl

theorem buddy_aligned {b : Block} (h : b.Aligned) : b.buddy.Aligned := by
  have hb : b.size ∣ b.join.base := Dvd.dvd.trans ⟨2, by simp [Block.size, Block.join, pow_succ]⟩ (halves h).1
  rcases (halves h).2 with ⟨_, h2⟩ | ⟨_, h2⟩
  · change b.size ∣ b.buddy.base
    rw [h2]
    exact (Nat.dvd_add_right hb).mpr (Nat.dvd_refl _)
  · change b.size ∣ b.buddy.base
    rw [h2]
    exact hb

theorem buddy_apart {b : Block} (h : b.Aligned) : b.Apart b.buddy := by
  have hs := buddy_size b
  rcases (halves h).2 with ⟨h1, h2⟩ | ⟨h1, h2⟩ <;> simp only [Block.Apart] <;> omega

theorem buddy_buddy (b : Block) : b.buddy.buddy = b := by
  cases b
  simp only [Block.buddy, Nat.xor_assoc, Nat.xor_self, Nat.xor_zero]

theorem join_covers {b : Block} (h : b.Aligned) (x : Nat) :
    b.join.Covers x ↔ b.Covers x ∨ b.buddy.Covers x := by
  have hj := join_size b
  have hs := buddy_size b
  rcases (halves h).2 with ⟨h1, h2⟩ | ⟨h1, h2⟩ <;> simp only [Block.Covers] <;> omega

/-- `bs` are aligned blocks without overlap that cover exactly the units in `region`. -/
structure Tiling (bs : List Block) (region : Nat → Prop) : Prop where
  aligned : ∀ b ∈ bs, b.Aligned
  apart : bs.Pairwise Block.Apart
  cover : ∀ x, region x ↔ ∃ b ∈ bs, b.Covers x

def total (bs : List Block) : Nat := (bs.map Block.size).sum

theorem total_cons (b : Block) (bs : List Block) : total (b :: bs) = b.size + total bs := rfl

theorem total_perm {bs cs : List Block} (h : bs.Perm cs) : total bs = total cs :=
  (h.map Block.size).sum_eq

theorem le_total {bs : List Block} {n : Nat} (h : ∀ b ∈ bs, n ≤ b.size) :
    bs.length * n ≤ total bs := by
  induction bs with
  | nil => exact (Nat.zero_mul n).le
  | cons b bs ih =>
    have hb := h b List.mem_cons_self
    have hbs := ih fun c hc => h c (List.mem_cons_of_mem _ hc)
    rw [total_cons, List.length_cons, Nat.succ_mul]
    omega

namespace Tiling
variable {bs cs : List Block} {region : Nat → Prop} {b : Block}

theorem nil : Tiling [] (fun _ => False) := ⟨by simp, List.Pairwise.nil, by simp⟩

theorem perm (t : Tiling bs region) (h : bs.Perm cs) : Tiling cs region where
  aligned b hb := t.aligned b (h.mem_iff.mpr hb)
  apart := (h.pairwise_iff (fun h => h.symm)).mp t.apart
  cover x := by simp only [t.cover x, h.mem_iff]

theorem split (t : Tiling (b.join :: bs) region) (hb : b.Aligned) :
    Tiling (b :: b.buddy :: bs) region := by
  have hp := List.pairwise_cons.mp t.apart
  have hc := join_covers hb
  have out (c : Block) (h : b.join.Apart c) : b.Apart c ∧ b.buddy.Apart c := by
    simp only [Block.apart_iff] at h ⊢
    exact ⟨fun x hx => h x ((hc x).mpr (Or.inl hx)), fun x hx => h x ((hc x).mpr (Or.inr hx))⟩
  refine ⟨?_, ?_, ?_⟩
  · intro c h
    rcases List.mem_cons.mp h with rfl | h
    · exact hb
    rcases List.mem_cons.mp h with rfl | h
    · exact buddy_aligned hb
    · exact t.aligned c (List.mem_cons_of_mem _ h)
  · refine List.pairwise_cons.mpr ⟨?_, List.pairwise_cons.mpr ⟨?_, hp.2⟩⟩
    · intro c h
      rcases List.mem_cons.mp h with rfl | h
      · exact buddy_apart hb
      · exact (out c (hp.1 c h)).1
    · exact fun c h => (out c (hp.1 c h)).2
  · intro x
    simp only [t.cover x, List.mem_cons, exists_eq_or_imp, hc x, or_assoc]

theorem merge (t : Tiling (b :: b.buddy :: bs) region) : Tiling (b.join :: bs) region := by
  have hb : b.Aligned := t.aligned b (by simp)
  have hp := List.pairwise_cons.mp t.apart
  have hq := List.pairwise_cons.mp hp.2
  have hc := join_covers hb
  refine ⟨?_, ?_, ?_⟩
  · intro c h
    rcases List.mem_cons.mp h with rfl | h
    · exact (halves hb).1
    · exact t.aligned c (by simp [h])
  · refine List.pairwise_cons.mpr ⟨?_, hq.2⟩
    intro c h
    rw [Block.apart_iff]
    intro x hx
    rcases (hc x).mp hx with hx | hx
    · exact (hp.1 c (List.mem_cons_of_mem _ h)).not_covers hx
    · exact (hq.1 c h).not_covers hx
  · intro x
    simp only [t.cover x, List.mem_cons, exists_eq_or_imp, hc x, or_assoc]

theorem extend (t : Tiling bs region) (hb : b.Aligned) (hn : ∀ x, b.Covers x → ¬ region x) :
    Tiling (b :: bs) (fun x => region x ∨ b.Covers x) where
  aligned c h := by
    rcases List.mem_cons.mp h with rfl | h
    · exact hb
    · exact t.aligned c h
  apart := by
    refine List.pairwise_cons.mpr ⟨?_, t.apart⟩
    intro c h
    rw [Block.apart_iff]
    exact fun x hx hcx => hn x hx ((t.cover x).mpr ⟨c, h, hcx⟩)
  cover x := by simp only [t.cover x, List.mem_cons, exists_eq_or_imp, or_comm]

theorem apart_of_ne (t : Tiling bs region) {b c : Block} (hb : b ∈ bs) (hc : c ∈ bs) (h : b ≠ c) :
    b.Apart c := t.apart.forall hb hc h

/-- Where no buddies lie side by side, every block of a region made of whole
aligned blocks of order `top` is itself of that order. -/
theorem order_eq_top (t : Tiling bs region) (top : Nat) (hle : ∀ b ∈ bs, b.order ≤ top)
    (hwhole : ∀ c : Block, c.Aligned → c.order ≤ top → ∀ x y, c.Covers x → c.Covers y →
      region x → region y)
    (hbuddy : ∀ b ∈ bs, b.order < top → b.buddy ∉ bs) : ∀ b ∈ bs, b.order = top := by
  have none_below : ∀ n, ∀ b ∈ bs, b.order = n → ¬ n < top := by
    intro n
    induction n using Nat.strong_induction_on with
    | h n ih =>
      intro b hb ho hlt
      have hal := t.aligned b hb
      have hj := join_covers hal
      have hjb : b.join.Covers b.base := (hj _).mpr (Or.inl b.covers_base)
      have hjd : b.join.Covers b.buddy.base := (hj _).mpr (Or.inr b.buddy.covers_base)
      have hr : region b.buddy.base :=
        hwhole b.join (halves hal).1 (by simp only [Block.join]; omega) _ _ hjb hjd
          ((t.cover _).mpr ⟨b, hb, b.covers_base⟩)
      obtain ⟨c, hc, hcx⟩ := (t.cover _).mp hr
      rcases Nat.lt_trichotomy c.order n with h | h | h
      · exact ih c.order h c hc rfl (h.trans hlt)
      · have he : c = b.buddy :=
          Block.eq_of_meet (t.aligned c hc) (buddy_aligned hal) (h.trans ho.symm) hcx
            b.buddy.covers_base
        exact hbuddy b hb (ho ▸ hlt) (he ▸ hc)
      · have hcb : c.Covers b.base :=
          Block.covers_of_meet (halves hal).1 (t.aligned c hc)
            (by simp only [Block.join]; omega) hjd hcx _ hjb
        have hne : b ≠ c := by
          intro he
          rw [← he, ho] at h
          exact Nat.lt_irrefl _ h
        exact (t.apart_of_ne hb hc hne).not_covers b.covers_base hcb
  intro b hb
  exact Nat.le_antisymm (hle b hb) (Nat.not_lt.mp (none_below _ b hb rfl))
end Tiling
end DominOS.BlockTiling
