import Mathlib.Data.BitVec

/-! Bytes by 32 bit addresses, and the words that are read and written there. -/
namespace DominOS.WordMemory

abbrev Addr := BitVec 32

abbrev Memory := Addr → BitVec 8

def Within (a : Addr) (n : Nat) (x : Addr) : Prop := (x - a).toNat < n

instance (a : Addr) (n : Nat) (x : Addr) : Decidable (Within a n x) := inferInstanceAs (Decidable (_ < _))

def read32 (m : Memory) (a : Addr) : BitVec 32 := m (a + 3) ++ m (a + 2) ++ m (a + 1) ++ m a

def write32 (a : Addr) (v : BitVec 32) (m : Memory) : Memory :=
  fun x => if Within a 4 x then v.extractLsb' (8 * (x - a).toNat) 8 else m x

variable {a b x : Addr} {n k : Nat} {m m' : Memory} {v : BitVec 32}

theorem within_add {off : Addr} (h : off.toNat < n) : Within a n (a + off) := by
  unfold Within
  rwa [BitVec.add_comm, BitVec.add_sub_cancel]

theorem Within.shift {off : Addr} (hn : off.toNat + k ≤ n) (h : Within (a + off) k x) :
    Within a n x := by
  unfold Within at h ⊢
  have hsplit : x - a = x - (a + off) + off := by
    rw [← BitVec.sub_sub, BitVec.sub_add_cancel]
  rw [hsplit, BitVec.toNat_add]
  have := Nat.mod_le ((x - (a + off)).toNat + off.toNat) (2 ^ 32)
  omega

theorem Within.mono (hn : k ≤ n) (h : Within a k x) : Within a n x := Nat.lt_of_lt_of_le h hn

theorem write32_of_not (h : ¬Within a 4 x) : write32 a v m x = m x := if_neg h

theorem write32_add {off : Addr} (h : off.toNat < 4) :
    write32 a v m (a + off) = v.extractLsb' (8 * off.toNat) 8 := by
  unfold write32
  rw [if_pos (within_add h), BitVec.add_comm, BitVec.add_sub_cancel]

theorem read32_write32 : read32 (write32 a v m) a = v := by
  have h0 : write32 a v m a = v.extractLsb' 0 8 := by
    have hfirst := write32_add (a := a) (v := v) (m := m) (show (0 : Addr).toNat < 4 by decide)
    simpa using hfirst
  have h1 : write32 a v m (a + 1) = v.extractLsb' 8 8 := write32_add (by decide)
  have h2 : write32 a v m (a + 2) = v.extractLsb' 16 8 := write32_add (by decide)
  have h3 : write32 a v m (a + 3) = v.extractLsb' 24 8 := write32_add (by decide)
  unfold read32
  rw [h0, h1, h2, h3]
  ext i hi
  simp only [BitVec.getElem_append, BitVec.getElem_extractLsb']
  split_ifs <;> grind

theorem read32_congr (h : ∀ x, Within a 4 x → m x = m' x) : read32 m a = read32 m' a := by
  have h0 : m a = m' a := h a (by simp [Within])
  have h1 : m (a + 1) = m' (a + 1) := h _ (within_add (by decide))
  have h2 : m (a + 2) = m' (a + 2) := h _ (within_add (by decide))
  have h3 : m (a + 3) = m' (a + 3) := h _ (within_add (by decide))
  unfold read32
  rw [h0, h1, h2, h3]

def Apart (a : Addr) (n : Nat) (b : Addr) (k : Nat) : Prop := ∀ x, Within a n x → ¬Within b k x

theorem Apart.symm (h : Apart a n b k) : Apart b k a n := fun x hb ha => h x ha hb

theorem apart_add {i j : Addr} (h : i.toNat + n ≤ j.toNat) (hj : j.toNat + k ≤ 2 ^ 32) :
    Apart (a + i) n (a + j) k := by
  intro x hi hx
  unfold Within at hi hx
  rw [← BitVec.sub_sub] at hi hx
  generalize x - a = y at hi hx
  bv_omega

theorem Within.bounds (h : Within a n x) (hn : a.toNat + n ≤ 2 ^ 32) :
    a.toNat ≤ x.toNat ∧ x.toNat < a.toNat + n := by
  unfold Within at h
  bv_omega

theorem read32_write32_apart (h : Apart b 4 a 4) : read32 (write32 a v m) b = read32 m b :=
  read32_congr fun x hx => write32_of_not (h x hx)

end DominOS.WordMemory
