import DominOS.HashTableSpec

/-! `hash_update`: a table is copied into one of another size, and stays a table of the same map. -/
namespace DominOS.HashTable

variable {V A : Type} {map : HashMap V} {f : Funcs} {heap : Heap} {read : Ptr → A} {code : A → Word}
  {key : Ptr} {value : V} {hash : Word} {i j k : Nat} {s : Slot V} {spec : A → Option V}

section Copy

structure Copied (read : Ptr → A) (code : A → Word) (oldtable : Nat → Slot V) (size n : Nat)
    (map : HashMap V) : Prop where
  placed : Placed read code map
  size_eq : map.size = size
  kept : map.refused = false
  fresh : ∀ i, map.table i ≠ .deleted
  entries : ∀ key value hash, (∃ i, map.table i = .active key value hash) ↔
    ∃ i < n, oldtable i = .active key value hash
  count : map.count = number Slot.isActive oldtable n
  fill : map.fill = number Slot.isActive oldtable n
  active : number Slot.isActive map.table size = number Slot.isActive oldtable n

variable {oldtable : Nat → Slot V} {size n : Nat}

theorem number_filled (h : ∀ i, map.table i ≠ .deleted) : number (fun s => !s.isEmpty) map.table n =
    number Slot.isActive map.table n := by
  apply Finset.sum_congr rfl
  intro i _
  cases hs : map.table i with
  | empty => rfl
  | active key value hash => rfl
  | deleted => exact absurd hs (h i)

theorem exists_empty {n : Nat} (h : number (fun s => !s.isEmpty) map.table n < n) :
    ∃ i < n, map.table i = .empty := by
  obtain ⟨i, hi, he⟩ := number_lt h
  exact ⟨i, hi, Slot.isEmpty_iff.mp (by simpa using he)⟩

theorem Copied.skip (h : Copied read code oldtable size n map)
    (hs : (oldtable n).isActive = false) : Copied read code oldtable size (n + 1) map := by
  have hcount : number Slot.isActive oldtable (n + 1) = number Slot.isActive oldtable n := by
    rw [number_succ, hs]
    rfl
  refine ⟨h.placed, h.size_eq, h.kept, h.fresh, fun key value hash => ?_, ?_, ?_, ?_⟩
  · rw [h.entries]
    constructor
    · rintro ⟨i, hi, hi'⟩
      exact ⟨i, Nat.lt_succ_of_lt hi, hi'⟩
    · rintro ⟨i, hi, hi'⟩
      rcases Nat.lt_succ_iff_lt_or_eq.mp hi with hi | rfl
      · exact ⟨i, hi, hi'⟩
      · rw [hi'] at hs
        cases hs
  · rw [hcount, h.count]
  · rw [hcount, h.fill]
  · rw [hcount, h.active]

/-- The key of a slot still to be copied is not in the new table, and is looked up to a slot that
is empty. -/
theorem Copied.lookup (h : Copied read code oldtable size n map) (hf : Reads f read code)
    (hsize : ∃ k, 3 ≤ k ∧ k ≤ 22 ∧ size = 2 ^ k) (hroom : number Slot.isActive oldtable n < size)
    (hother : ∀ j key' value' hash', map.table j = .active key' value' hash' →
      read key' ≠ read key) :
    ∃ new, map.hashLookup f key (f.hfunc key) = some new ∧ map.table new = .empty ∧
      Leads map (f.hfunc key) new := by
  have hroomy : Roomy map := by
    constructor
    · rw [h.size_eq]
      exact hsize
    · rw [h.size_eq]
      apply exists_empty
      rw [number_filled h.fresh, h.active]
      exact hroom
  obtain ⟨new, hnew, hlooked⟩ := h.placed.lookup hroomy hf key
  cases hlooked with
  | found hslot hread => exact absurd hread (hother _ _ _ _ hslot)
  | absent ha hl _ =>
    refine ⟨new, hnew, ?_, hl⟩
    cases hslot : map.table new with
    | empty => rfl
    | active key' value' hash' => simp [hslot, Slot.isActive] at ha
    | deleted => exact absurd hslot (h.fresh new)

theorem Copied.entries_put {new : Nat} (h : Copied read code oldtable size n map)
    (hs : oldtable n = .active key value hash) (hempty : map.table new = .empty)
    {key' : Ptr} {value' : V} {hash' : Word} :
    (∃ i, (map.put new (.active key value hash)).table i = .active key' value' hash') ↔
      ∃ i < n + 1, oldtable i = .active key' value' hash' := by
  constructor
  · rintro ⟨i, hi⟩
    rw [put_table] at hi
    split at hi
    · exact ⟨n, Nat.lt_succ_self n, hs.trans hi⟩
    · obtain ⟨j, hj, hj'⟩ := (h.entries key' value' hash').mp ⟨i, hi⟩
      exact ⟨j, Nat.lt_succ_of_lt hj, hj'⟩
  · rintro ⟨i, hi, hi'⟩
    rcases Nat.lt_succ_iff_lt_or_eq.mp hi with hi | rfl
    · obtain ⟨j, hj⟩ := (h.entries key' value' hash').mpr ⟨i, hi, hi'⟩
      refine ⟨j, ?_⟩
      rw [put_table, if_neg]
      · exact hj
      · rintro rfl
        rw [hempty] at hj
        cases hj
    · exact ⟨new, by rw [put_table, if_pos rfl, ← hi', hs]⟩

theorem Copied.put {new : Nat} (h : Copied read code oldtable size n map)
    (hs : oldtable n = .active key value hash) (hhash : hash = code (read key))
    (hother : ∀ j key' value' hash', map.table j = .active key' value' hash' →
      read key' ≠ read key)
    (hempty : map.table new = .empty) (hl : Leads map hash new) :
    Copied read code oldtable size (n + 1) { map.put new (.active key value hash) with
      fill := map.fill + 1
      count := map.count + 1 } := by
  have hcount : number Slot.isActive oldtable (n + 1) = number Slot.isActive oldtable n + 1 := by
    rw [number_succ, hs]
    rfl
  have hnumber := number_update (p := Slot.isActive) (s := .active key value hash) (t := map.table)
    (h.size_eq ▸ hl.lt)
  rw [show Slot.isActive (map.table new) = false by rw [hempty]; rfl] at hnumber
  have hput := h.placed.put (i := new) (s := .active key value hash) (by simp)
    fun key' value' hash' he => by
      cases he
      exact ⟨hhash, hl, fun j key' value' hash' hj hread =>
        absurd hread (hother j key' value' hash' hj)⟩
  refine ⟨⟨hput.hashed, hput.distinct, hput.leads⟩, h.size_eq, h.kept, fun i => ?_,
    fun key' value' hash' => h.entries_put hs hempty, ?_, ?_, ?_⟩
  · change (map.put new _).table i ≠ _
    rw [put_table]
    split
    · simp
    · exact h.fresh i
  · rw [hcount]
    push_cast
    rw [← h.count]
  · rw [hcount]
    push_cast
    rw [← h.fill]
  · rw [hcount, ← h.active]
    exact hnumber

theorem Copied.next (h : Copied read code oldtable size n map) (hf : Reads f read code)
    (hold : ∀ i key value hash, oldtable i = .active key value hash → hash = code (read key))
    (hdistinct : ∀ i j key key' value value' hash hash', oldtable i = .active key value hash →
      oldtable j = .active key' value' hash' → read key = read key' → i = j)
    (hsize : ∃ k, 3 ≤ k ∧ k ≤ 22 ∧ size = 2 ^ k) (hroom : number Slot.isActive oldtable n < size) :
    ∃ map', map.copySlot f oldtable n = some map' ∧
      Copied read code oldtable size (n + 1) map' := by
  unfold HashMap.copySlot
  cases hs : oldtable n with
  | active key value hash =>
    have hhash := hold n key value hash hs
    have hother (j : Nat) (key' : Ptr) (value' : V) (hash' : Word)
        (hj : map.table j = .active key' value' hash') : read key' ≠ read key := by
      intro he
      obtain ⟨i, hi, hi'⟩ := (h.entries key' value' hash').mp ⟨j, hj⟩
      have := hdistinct i n key' key value' value hash' hash hi' hs he
      omega
    obtain ⟨new, hnew, hempty, hl⟩ := h.lookup hf hsize hroom hother
    rw [hf.hfunc, ← hhash] at hl
    simp only [hnew, Option.bind_eq_bind, Option.bind_some]
    exact ⟨_, rfl, h.put hs hhash hother hempty hl⟩
  | empty => exact ⟨map, rfl, h.skip (by rw [hs]; rfl)⟩
  | deleted => exact ⟨map, rfl, h.skip (by rw [hs]; rfl)⟩

end Copy

section Resize

/-- A table that stands for the map `spec`, with its counters. -/
structure Sound (read : Ptr → A) (code : A → Word) (map : HashMap V) (spec : A → Option V) : Prop where
  placed : Placed read code map
  holds : Holds read map spec
  power : ∃ k, 3 ≤ k ∧ k ≤ 22 ∧ map.size = 2 ^ k
  count : map.count = number Slot.isActive map.table map.size
  fill : map.fill = number (fun s => !s.isEmpty) map.table map.size
  served : map.refused = false

def Light (map : HashMap V) : Prop := 3 * map.fill < 2 * map.size

theorem Sound.count_le (h : Sound read code map spec) : map.count ≤ map.fill := by
  rw [h.count, h.fill]
  apply Int.ofNat_le.mpr
  apply number_mono
  intro s hs
  cases s with
  | empty => cases hs
  | _ => rfl

theorem Sound.roomy (h : Sound read code map spec) (hl : Light map) : Roomy map where
  power := h.power
  room := by
    have hfill := h.fill
    unfold Light at hl
    apply exists_empty
    omega

theorem number_le {p : Slot V → Bool} {t : Nat → Slot V} {m n : Nat} (h : m ≤ n) :
    number p t m ≤ number p t n :=
  Finset.sum_le_sum_of_subset (Finset.range_mono h)

theorem Copied.loop {new : HashMap V} {size n : Nat} (h : Sound read code map spec)
    (hf : Reads f read code) (hnew : Copied read code map.table size 0 new)
    (hsize : ∃ k, 3 ≤ k ∧ k ≤ 22 ∧ size = 2 ^ k) (hroom : map.count < size) (hn : n ≤ map.size) :
    ∃ map', (List.range n).foldlM (HashMap.copySlot f map.table) new = some map' ∧
      Copied read code map.table size n map' := by
  induction n with
  | zero => exact ⟨new, rfl, hnew⟩
  | succ n ih =>
    obtain ⟨m, hm, hcopied⟩ := ih (by omega)
    have hlt : number Slot.isActive map.table n < size := by
      have hle := number_le (p := Slot.isActive) (t := map.table) (show n ≤ map.size by omega)
      have hcount := h.count
      omega
    obtain ⟨map', hmap', hnext⟩ := hcopied.next hf h.placed.hashed h.placed.distinct hsize hlt
    refine ⟨map', ?_, hnext⟩
    rw [List.range_succ, List.foldlM_append, hm]
    simpa using hmap'

theorem Copied.sound {new : HashMap V} {size : Nat} (h : Sound read code map spec)
    (hc : Copied read code map.table size map.size new) (hsize : ∃ k, 3 ≤ k ∧ k ≤ 22 ∧ size = 2 ^ k) :
    Sound read code new spec where
  placed := hc.placed
  holds a value := by
    rw [h.holds]
    constructor
    · rintro ⟨i, key, hash, hi, hread⟩
      obtain ⟨j, hj⟩ := (hc.entries key value hash).mpr ⟨i, (h.placed.leads i key value hash hi).lt, hi⟩
      exact ⟨j, key, hash, hj, hread⟩
    · rintro ⟨i, key, hash, hi, hread⟩
      obtain ⟨j, _, hj⟩ := (hc.entries key value hash).mp ⟨i, hi⟩
      exact ⟨j, key, hash, hj, hread⟩
  power := hc.size_eq ▸ hsize
  count := by
    rw [hc.count, hc.size_eq, hc.active]
  fill := by
    rw [hc.fill, number_filled hc.fresh, hc.size_eq, hc.active]
  served := hc.kept

theorem Copied.zero {oldtable : Nat → Slot V} (hk : k ≤ 22) (h : map.refused = false) :
    Copied read code oldtable (2 ^ k) 0 { map with
      fill := 0
      count := 0
      mask := BitVec.ofNat 32 (2 ^ k - 1)
      table := fun _ => .empty } := by
  constructor
  · exact ⟨nofun, nofun, nofun⟩
  · have hlt : 2 ^ k ≤ 2 ^ 22 := Nat.pow_le_pow_right (by decide) hk
    have hpos := Nat.two_pow_pos k
    simp only [HashMap.size, BitVec.toNat_ofNat]
    omega
  · exact h
  · exact nofun
  · intro key value hash
    constructor
    · rintro ⟨i, hi⟩
      cases hi
    · rintro ⟨i, hi, _⟩
      omega
  · rfl
  · rfl
  · exact number_empty

variable (heap) in
theorem resize_spec (h : Sound read code map spec) (hf : Reads f read code) (h3 : 3 ≤ k)
    (hk : k ≤ 23) (hcount : map.count < 2 ^ k) : ∃ r map', map.resize f heap (2 ^ k) = some (r, map') ∧
      (map'.refused = false → r = 0 ∧ Sound read code map' spec ∧ map'.size = 2 ^ k ∧
        map'.fill = map.count) := by
  unfold HashMap.resize HashMap.hashInitialize
  by_cases hserved : heap.memAlloc (2 ^ k * slotBytes % 2 ^ 32) = true
  · have hlimit := heap.limit _ hserved
    have hk22 : k ≤ 22 := by
      by_contra hgt
      obtain rfl : k = 23 := by omega
      exact absurd hlimit (by decide)
    simp only [hserved, not_true, if_false, show ¬ (0 : Int) = -1 by decide]
    have hzero : Copied read code map.table (2 ^ k) 0 { map with
        fill := 0
        count := 0
        mask := BitVec.ofNat 32 (2 ^ k - 1)
        table := fun _ => .empty } := Copied.zero hk22 h.served
    obtain ⟨map', hcopy, hcopied⟩ := hzero.loop h hf ⟨k, h3, hk22, rfl⟩ (by exact_mod_cast hcount)
      (Nat.le_refl map.size)
    refine ⟨0, map', ?_, fun _ => ⟨rfl, hcopied.sound h ⟨k, h3, hk22, rfl⟩, hcopied.size_eq, ?_⟩⟩
    · rw [HashMap.hashCopy, hcopy]
      rfl
    · rw [hcopied.fill, h.count]
  · simp only [hserved]
    exact ⟨-1, _, rfl, nofun⟩

theorem hashUpdate_spec (h : Sound read code map spec) (hf : Reads f read code)
    (hfill : 3 * map.fill < 2 * map.size + 3) : ∃ r map', map.hashUpdate f heap = some (r, map') ∧
      (map'.refused = false → r = 0 ∧ Sound read code map' spec ∧ Light map') := by
  obtain ⟨k, h3, hk, hsize⟩ := h.power
  have hle := h.count_le
  have hpow : 2 ^ k ≤ 2 ^ 22 := Nat.pow_le_pow_right (by decide) hk
  have hmin : 2 ^ 3 ≤ 2 ^ k := Nat.pow_le_pow_right (by decide) h3
  unfold HashMap.hashUpdate
  split
  · rename_i hfull
    have hdouble : 2 * map.size = 2 ^ (k + 1) := by rw [hsize, pow_succ, Nat.mul_comm]
    rw [if_neg (by omega), hdouble]
    have hroom : map.count < 2 ^ (k + 1) := by
      have : (2 : Int) ^ (k + 1) = (2 * map.size : Nat) := by rw [hdouble]; push_cast; rfl
      omega
    obtain ⟨r, map', hr, hgood⟩ := resize_spec heap h hf (by omega) (by omega) hroom
    refine ⟨r, map', hr, fun hserved => ?_⟩
    obtain ⟨hr0, hsound, hsize', hfill'⟩ := hgood hserved
    refine ⟨hr0, hsound, ?_⟩
    unfold Light
    rw [hfill', hsize', ← hdouble]
    omega
  · split
    · rename_i hlight hfew
      simp only [hashMinsize] at hfew
      obtain ⟨l, rfl⟩ : ∃ l, k = l + 1 := ⟨k - 1, by omega⟩
      have hl : 3 ≤ l := by
        by_contra hlt
        have : 2 ^ (l + 1) ≤ 2 ^ 3 := Nat.pow_le_pow_right (by decide) (by omega)
        omega
      have hhalf : map.size / 2 = 2 ^ l := by
        rw [hsize, pow_succ]
        omega
      rw [hhalf]
      have hroom : map.count < 2 ^ l := by
        have : (2 : Int) ^ l = (map.size / 2 : Nat) := by rw [hhalf]; push_cast; rfl
        omega
      obtain ⟨r, map', hr, hgood⟩ := resize_spec heap h hf hl (by omega) hroom
      refine ⟨r, map', hr, fun hserved => ?_⟩
      obtain ⟨hr0, hsound, hsize', hfill'⟩ := hgood hserved
      refine ⟨hr0, hsound, ?_⟩
      unfold Light
      rw [hfill', hsize', ← hhalf]
      omega
    · rename_i hlight _
      exact ⟨0, map, rfl, fun _ => ⟨rfl, h, by unfold Light; omega⟩⟩

end Resize
end DominOS.HashTable
