import DominOS.HashTable
import DominOS.ProbeOrder
import Mathlib.Algebra.BigOperators.Group.Finset.Basic

/-! `hash_lookup` ends, at the slot of the key or at the first free slot of its path. -/
namespace DominOS.HashTable
open ProbeOrder

variable {V : Type} {map : HashMap V} {f : Funcs} {key : Ptr} {hash mask : Word} {i k n fuel : Nat}
  {freeslot : Option Nat}

section Path

def perturb (hash : Word) : Nat → Word
  | 0 => hash
  | n + 1 => perturb hash n >>> 5

def index (mask hash : Word) : Nat → Word
  | 0 => hash &&& mask
  | n + 1 => 5 * index mask hash n + perturb hash n + 1

def path (mask hash : Word) (n : Nat) : Nat := (index mask hash n &&& mask).toNat

theorem perturb_toNat (hash : Word) (n : Nat) : (perturb hash n).toNat = hash.toNat / 32 ^ n := by
  induction n with
  | zero => simp [perturb]
  | succ n ih =>
    rw [perturb, BitVec.toNat_ushiftRight, ih, Nat.shiftRight_eq_div_pow, Nat.div_div_eq_div_mul,
      pow_succ 32]

theorem path_lt (mask hash : Word) (n : Nat) : path mask hash n < mask.toNat + 1 := by
  rw [path, BitVec.toNat_and]
  exact Nat.lt_succ_of_le Nat.and_le_right

/-- The indices wrap at `2 ^ 32`, which no residue modulo a smaller power of two sees. -/
theorem index_toNat (mask hash : Word) (n : Nat) : (index mask hash n).toNat =
    perturbed (hash &&& mask).toNat hash.toNat n % 2 ^ 32 := by
  induction n with
  | zero => exact (Nat.mod_eq_of_lt (hash &&& mask).isLt).symm
  | succ n ih =>
    rw [index, perturbed, BitVec.toNat_add, BitVec.toNat_add, BitVec.toNat_mul, ih, perturb_toNat]
    simp [Nat.add_mod, Nat.mul_mod]

theorem path_eq (hk : k ≤ 32) (hm : mask.toNat + 1 = 2 ^ k) :
    path mask hash n = perturbed (hash &&& mask).toNat hash.toNat n % 2 ^ k := by
  have hmask : mask.toNat = 2 ^ k - 1 := by omega
  rw [path, BitVec.toNat_and, hmask, Nat.and_two_pow_sub_one_eq_mod, index_toNat]
  exact Nat.mod_mod_of_dvd _ (Nat.pow_dvd_pow 2 hk)

theorem path_covers (hash : Word) (hk : k ≤ 32) (hm : mask.toNat + 1 = 2 ^ k) (hi : i < 2 ^ k) :
    ∃ n < 7 + 2 ^ k, path mask hash n = i := by
  have hlt : hash.toNat < 32 ^ 7 := hash.isLt.trans (by decide)
  obtain ⟨n, hn, hx⟩ := perturbed_surjective (hash &&& mask).toNat hlt hi
  exact ⟨n, hn, (path_eq hk hm).trans hx⟩

end Path

section Lookup

def Slot.Matches (f : Funcs) (key : Ptr) (hash : Word) : Slot V → Prop
  | .active k _ h => k = key ∨ (h = hash ∧ f.cmp k key)
  | _ => False

def Slot.isActive : Slot V → Bool
  | .active .. => true
  | _ => false

def Slot.isEmpty : Slot V → Bool
  | .empty => true
  | _ => false

theorem Slot.isEmpty_iff {s : Slot V} : s.isEmpty = true ↔ s = .empty := by
  cases s <;> simp [Slot.isEmpty]

/-- On the path of `hash` slot `i` comes before the first empty slot. -/
def Leads (map : HashMap V) (hash : Word) (i : Nat) : Prop :=
  ∃ n, path map.mask hash n = i ∧ ∀ m < n, map.table (path map.mask hash m) ≠ .empty

def Misses (f : Funcs) (key : Ptr) (hash : Word) (map : HashMap V) : Prop :=
  ∃ n, map.table (path map.mask hash n) = .empty ∧
    ∀ m < n, ¬ (map.table (path map.mask hash m)).Matches f key hash

/-- How a lookup ends: at the slot of the key, or at a free slot. -/
inductive Lands (f : Funcs) (key : Ptr) (hash : Word) (map : HashMap V) (i : Nat) : Prop where
  | hit : (map.table i).Matches f key hash → Lands f key hash map i
  | free : Misses f key hash map → Leads map hash i → (map.table i).isActive = false →
      Lands f key hash map i

structure Passed (f : Funcs) (key : Ptr) (hash : Word) (map : HashMap V) (n : Nat)
    (freeslot : Option Nat) : Prop where
  full : ∀ m < n, map.table (path map.mask hash m) ≠ .empty
  misses : ∀ m < n, ¬ (map.table (path map.mask hash m)).Matches f key hash
  free : ∀ i, freeslot = some i → Leads map hash i ∧ map.table i = .deleted

theorem Passed.zero : Passed f key hash map 0 none := by
  constructor
  · intro m hm
    omega
  · intro m hm
    omega
  · exact nofun

theorem Passed.next (h : Passed f key hash map n freeslot)
    (hfull : map.table (path map.mask hash n) ≠ .empty)
    (hmiss : ¬ (map.table (path map.mask hash n)).Matches f key hash) :
    Passed f key hash map (n + 1) freeslot := by
  constructor
  · intro m hm
    rcases Nat.lt_succ_iff_lt_or_eq.mp hm with hm | rfl
    · exact h.full m hm
    · exact hfull
  · intro m hm
    rcases Nat.lt_succ_iff_lt_or_eq.mp hm with hm | rfl
    · exact h.misses m hm
    · exact hmiss
  · exact h.free

theorem Passed.keep (h : Passed f key hash map n freeslot)
    (hd : map.table (path map.mask hash n) = .deleted) :
    Passed f key hash map (n + 1) (freeslot.or (some (path map.mask hash n))) := by
  have hnext := h.next (by simp [hd]) (by simp [hd, Slot.Matches])
  constructor
  · exact hnext.full
  · exact hnext.misses
  · intro i hi
    cases freeslot with
    | some j => exact h.free i (by simpa using hi)
    | none =>
      simp only [Option.or_some, Option.getD_none, Option.some.injEq] at hi
      subst hi
      exact ⟨⟨n, rfl, h.full⟩, hd⟩

/-- From slot number `n` of the path on the loop reaches its end, when an empty slot is near. -/
theorem lookupLoop_spec {e : Nat} (he : map.table (path map.mask hash e) = .empty)
    (hp : Passed f key hash map n freeslot) (hf : e < n + fuel) :
    ∃ i, map.lookupLoop f key hash fuel (index map.mask hash n) (perturb hash n) freeslot = some i ∧
      Lands f key hash map i := by
  induction fuel generalizing n freeslot with
  | zero => exact absurd he (hp.full e (by omega))
  | succ fuel ih =>
    have hslot : (index map.mask hash n &&& map.mask).toNat = path map.mask hash n := rfl
    unfold HashMap.lookupLoop
    simp only [hslot]
    cases hs : map.table (path map.mask hash n) with
    | empty =>
      refine ⟨_, rfl, .free ⟨n, hs, hp.misses⟩ ?_ ?_⟩
      · cases freeslot with
        | none => exact ⟨n, rfl, hp.full⟩
        | some i => exact (hp.free i rfl).1
      · cases freeslot with
        | none => simp [hs, Slot.isActive]
        | some i => simp [(hp.free i rfl).2, Slot.isActive]
    | active k v h =>
      by_cases hm : k = key ∨ (h = hash ∧ f.cmp k key)
      · refine ⟨_, if_pos hm, .hit ?_⟩
        rw [hs]
        exact hm
      · simp only [if_neg hm]
        apply ih (hp.next (by simp [hs]) (by rw [hs]; exact hm))
        omega
    | deleted =>
      apply ih (hp.keep hs)
      omega

theorem hashLookup_spec (f : Funcs) (key : Ptr) (hash : Word) (hk : k ≤ 32) (hm : map.size = 2 ^ k)
    (hi : i < map.size) (he : map.table i = .empty) :
    ∃ j, map.hashLookup f key hash = some j ∧ Lands f key hash map j := by
  obtain ⟨e, hlt, rfl⟩ := path_covers hash hk hm (hm ▸ hi)
  apply lookupLoop_spec (n := 0) he Passed.zero
  rw [Nat.zero_add, hm]
  exact hlt

end Lookup

section Stored

def HashMap.EndsAt (f : Funcs) (key : Ptr) (hash : Word) (map : HashMap V) (turns i : Nat) : Prop :=
  ∀ fuel, turns ≤ fuel →
    map.lookupLoop f key hash fuel (index map.mask hash 0) (perturb hash 0) none = some i

/-- Slot `i` is the first on the path of `hash` that is taken for the one of the key, and no empty
slot comes before it. -/
def StoredAt (f : Funcs) (key : Ptr) (hash : Word) (map : HashMap V) (i : Nat) : Prop :=
  ∃ n, path map.mask hash n = i ∧ (map.table i).Matches f key hash ∧
    ∀ m < n, map.table (path map.mask hash m) ≠ .empty ∧
      ¬ (map.table (path map.mask hash m)).Matches f key hash

theorem lookupLoop_mono {next p : Word} {turns : Nat} (hle : fuel ≤ turns)
    (h : map.lookupLoop f key hash fuel next p freeslot = some i) :
    map.lookupLoop f key hash turns next p freeslot = some i := by
  induction fuel generalizing turns next p freeslot with
  | zero => cases h
  | succ fuel ih =>
    cases turns with
    | zero => omega
    | succ turns =>
      have hle : fuel ≤ turns := Nat.le_of_succ_le_succ hle
      unfold HashMap.lookupLoop at h ⊢
      cases hs : map.table (next &&& map.mask).toNat with
      | empty => simpa only [hs] using h
      | active k v c =>
        by_cases hm : k = key ∨ (c = hash ∧ f.cmp k key)
        · simpa only [hs, if_pos hm] using h
        · simp only [hs, if_neg hm] at h ⊢
          exact ih hle h
      | deleted =>
        simp only [hs] at h ⊢
        exact ih hle h

/-- From slot number `n` of the path on the loop comes to the first slot of the key. -/
theorem lookupLoop_stored {e : Nat} (he : (map.table (path map.mask hash e)).Matches f key hash)
    (hp : ∀ m < e, map.table (path map.mask hash m) ≠ .empty ∧
      ¬ (map.table (path map.mask hash m)).Matches f key hash) (hn : n ≤ e) (hf : e < n + fuel) :
    map.lookupLoop f key hash fuel (index map.mask hash n) (perturb hash n) freeslot =
      some (path map.mask hash e) := by
  induction fuel generalizing n freeslot with
  | zero => omega
  | succ fuel ih =>
    have hslot : (index map.mask hash n &&& map.mask).toNat = path map.mask hash n := rfl
    unfold HashMap.lookupLoop
    simp only [hslot]
    rcases Nat.lt_or_eq_of_le hn with hlt | rfl
    · obtain ⟨hfull, hmiss⟩ := hp n hlt
      cases hs : map.table (path map.mask hash n) with
      | empty => exact absurd hs hfull
      | active k v h =>
        rw [hs] at hmiss
        exact (if_neg hmiss).trans (ih hlt (by omega))
      | deleted => exact ih hlt (by omega)
    · cases hs : map.table (path map.mask hash n) with
      | active k v h =>
        rw [hs] at he
        exact if_pos he
      | _ =>
        rw [hs] at he
        exact he.elim

theorem Leads.stored (hl : Leads map hash i) (hi : (map.table i).Matches f key hash) :
    ∃ j, StoredAt f key hash map j := by
  classical
  obtain ⟨n, rfl, hfull⟩ := hl
  have hex : ∃ n, (map.table (path map.mask hash n)).Matches f key hash := ⟨n, hi⟩
  refine ⟨_, Nat.find hex, rfl, Nat.find_spec hex, fun m hm => ⟨?_, Nat.find_min hex hm⟩⟩
  exact hfull m (hm.trans_le (Nat.find_min' hex hi))

theorem StoredAt.matched (h : StoredAt f key hash map i) : (map.table i).Matches f key hash := by
  obtain ⟨_, _, hi, _⟩ := h
  exact hi

theorem StoredAt.leads (h : StoredAt f key hash map i) : Leads map hash i := by
  obtain ⟨n, hn, _, hp⟩ := h
  exact ⟨n, hn, fun m hm => (hp m hm).1⟩

theorem StoredAt.endsAt (h : StoredAt f key hash map i) (hk : k ≤ 32) (hm : map.size = 2 ^ k) :
    map.EndsAt f key hash (7 + map.size) i := by
  obtain ⟨e, rfl, he, hp⟩ := h
  have hlt : path map.mask hash e < 2 ^ k := hm ▸ path_lt map.mask hash e
  obtain ⟨n, hn, hback⟩ := path_covers hash hk hm hlt
  have hle : e ≤ n := by
    by_contra hlt
    have hmiss := (hp n (Nat.lt_of_not_le hlt)).2
    rw [hback] at hmiss
    exact hmiss he
  intro fuel hf
  apply lookupLoop_stored he hp (Nat.zero_le e)
  rw [hm] at hf
  omega

/-- The probes for any hash meet every slot of a table of `2 ^ k`. So `hash_lookup` ends where a
slot is empty, and at the slot that has the key where the path leads to one; of several equal keys
it takes the first. -/
theorem probes_cover (map : HashMap V) (f : Funcs) (key : Ptr) (hash : Word) (hk : k ≤ 32)
    (hm : map.size = 2 ^ k) :
    (∀ i < map.size, ∃ n < 7 + map.size, path map.mask hash n = i) ∧
      ((∃ i < map.size, map.table i = .empty) → ∃ i, map.EndsAt f key hash (7 + map.size) i) ∧
      (∀ i, Leads map hash i → (map.table i).Matches f key hash →
        (∀ j, Leads map hash j → (map.table j).Matches f key hash → j = i) →
          map.EndsAt f key hash (7 + map.size) i) ∧
      ∀ i, StoredAt f key hash map i → map.EndsAt f key hash (7 + map.size) i := by
  refine ⟨fun i hi => ?_, fun ⟨i, hi, he⟩ => ?_, fun i hl hi honly => ?_,
    fun i h => h.endsAt hk hm⟩
  · rw [hm] at hi ⊢
    exact path_covers hash hk hm hi
  · obtain ⟨j, hj, _⟩ := hashLookup_spec f key hash hk hm hi he
    exact ⟨j, fun fuel hf => lookupLoop_mono hf hj⟩
  · obtain ⟨j, hj⟩ := hl.stored hi
    have hji : j = i := honly j hj.leads hj.matched
    exact hji ▸ hj.endsAt hk hm

def oneBehind : HashMap Nat where
  fill := 2
  count := 1
  mask := 7
  table i := if i = 0 then .deleted else if i = 1 then .active 8 3 8 else .empty
  refused := false

theorem probes_cover_behind :
    (∀ i < 8, ∃ n < 15, path 7 8 n = i) ∧
      (∃ i, oneBehind.hashLookup ⟨hashDirectHfunc, hashDirectCmp⟩ 8 8 = some i) ∧
      oneBehind.hashLookup ⟨hashDirectHfunc, hashDirectCmp⟩ 8 8 = some 1 := by
  obtain ⟨hcover, hends, honly, _⟩ :=
    probes_cover (k := 3) oneBehind ⟨hashDirectHfunc, hashDirectCmp⟩ 8 8 (by decide) rfl
  have hone : oneBehind.EndsAt ⟨hashDirectHfunc, hashDirectCmp⟩ 8 8 15 1 := by
    apply honly 1 ⟨1, by decide, by decide⟩ (Or.inl rfl)
    intro j _ hj
    by_contra hne
    simp only [oneBehind, if_neg hne] at hj
    split at hj
    · exact hj
    · exact hj
  obtain ⟨i, hi⟩ := hends ⟨2, by decide, rfl⟩
  exact ⟨hcover, ⟨i, hi _ (Nat.le_refl _)⟩, hone _ (Nat.le_refl _)⟩

end Stored

end DominOS.HashTable
