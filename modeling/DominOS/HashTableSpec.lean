import DominOS.HashTableLookup

/-! The slots of a table against the map it stands for: what a slot that is written keeps, how a
lookup finds its key, and how a table is copied into one of another size. -/
namespace DominOS.HashTable

variable {V A : Type} {map new : HashMap V} {f : Funcs} {read : Ptr → A} {code : A → Word}
  {key : Ptr} {value : V} {hash : Word} {i j k : Nat} {s : Slot V} {spec : A → Option V}

section Entries

/-- Keys are compared by what they read as, and hashed by it. -/
structure Reads (f : Funcs) (read : Ptr → A) (code : A → Word) : Prop where
  cmp : ∀ key1 key2, f.cmp key1 key2 = true ↔ read key1 = read key2
  hfunc : ∀ key, f.hfunc key = code (read key)

/-- Active slots have the hash of their key, no two the same key, and the path of their hash
leads to them. -/
structure Placed (read : Ptr → A) (code : A → Word) (map : HashMap V) : Prop where
  hashed : ∀ i key value hash, map.table i = .active key value hash → hash = code (read key)
  distinct : ∀ i j key key' value value' hash hash', map.table i = .active key value hash →
    map.table j = .active key' value' hash' → read key = read key' → i = j
  leads : ∀ i key value hash, map.table i = .active key value hash → Leads map hash i

def Holds (read : Ptr → A) (map : HashMap V) (spec : A → Option V) : Prop :=
  ∀ a value, spec a = some value ↔
    ∃ i key hash, map.table i = .active key value hash ∧ read key = a

theorem Leads.lt (h : Leads map hash i) : i < map.size := by
  obtain ⟨n, rfl, _⟩ := h
  exact path_lt _ _ _

theorem put_table : (map.put i s).table j = if j = i then s else map.table j := by
  simp [HashMap.put, Function.update_apply]

theorem Leads.put (h : Leads map hash j) (hs : s ≠ .empty) : Leads (map.put i s) hash j := by
  obtain ⟨n, hn, hfull⟩ := h
  refine ⟨n, hn, fun m hm => ?_⟩
  rw [put_table]
  split
  · exact hs
  · exact hfull m hm

theorem Placed.put (h : Placed read code map) (hs : s ≠ .empty)
    (hnew : ∀ key value hash, s = .active key value hash →
      hash = code (read key) ∧ Leads map hash i ∧
        ∀ j key' value' hash', map.table j = .active key' value' hash' → read key' = read key → j = i) :
    Placed read code (map.put i s) := by
  constructor
  · intro j key value hash hj
    rw [put_table] at hj
    split at hj
    · exact (hnew key value hash hj).1
    · exact h.hashed j key value hash hj
  · intro j j' key key' value value' hash hash' hj hj' he
    rw [put_table] at hj hj'
    split at hj
    · rename_i hji
      split at hj'
      · rename_i hji'
        exact hji.trans hji'.symm
      · exact absurd ((hnew key value hash hj).2.2 j' key' value' hash' hj' he.symm) ‹_›
    · rename_i hji
      split at hj'
      · exact absurd ((hnew key' value' hash' hj').2.2 j key value hash hj he) hji
      · exact h.distinct j j' key key' value value' hash hash' hj hj' he
  · intro j key value hash hj
    rw [put_table] at hj
    split at hj
    · rename_i hji
      subst hji
      exact (hnew key value hash hj).2.1.put hs
    · exact (h.leads j key value hash hj).put hs

def Slot.entry : Slot V → Option V
  | .active _ value _ => some value
  | _ => none

theorem Holds.put {a : A} [DecidableEq A] (h : Holds read map spec)
    (hold : ∀ key value hash, map.table i = .active key value hash → read key = a)
    (honly : ∀ j key value hash, map.table j = .active key value hash → read key = a → j = i)
    (hnew : ∀ key value hash, s = .active key value hash → read key = a) :
    Holds read (map.put i s) (Function.update spec a s.entry) := by
  intro b value
  by_cases hb : b = a
  · subst hb
    rw [Function.update_self]
    constructor
    · intro he
      cases s with
      | active key v hash =>
        cases he
        exact ⟨i, key, hash, by simp [put_table], hnew key value hash rfl⟩
      | _ => cases he
    · rintro ⟨j, key, hash, hj, hread⟩
      rw [put_table] at hj
      split at hj
      · rw [hj]
        rfl
      · exact absurd (honly j key value hash hj hread) ‹_›
  · rw [Function.update_of_ne hb, h]
    constructor
    · rintro ⟨j, key, hash, hj, hread⟩
      have hne : j ≠ i := by
        rintro rfl
        exact hb (hread.symm.trans (hold key value hash hj))
      exact ⟨j, key, hash, by rwa [put_table, if_neg hne], hread⟩
    · rintro ⟨j, key, hash, hj, hread⟩
      rw [put_table] at hj
      split at hj
      · exact absurd (hread.symm.trans (hnew key value hash hj)) hb
      · exact ⟨j, key, hash, hj, hread⟩

end Entries

section Counts

def number (p : Slot V → Bool) (table : Nat → Slot V) (n : Nat) : Nat :=
  ∑ i ∈ Finset.range n, (p (table i)).toNat

variable {p : Slot V → Bool} {t : Nat → Slot V} {n : Nat}

theorem number_succ : number p t (n + 1) = number p t n + (p (t n)).toNat :=
  Finset.sum_range_succ ..

theorem number_update (hi : i < n) : number p (Function.update t i s) n + (p (t i)).toNat =
    number p t n + (p s).toNat := by
  induction n with
  | zero => omega
  | succ n ih =>
    rw [number_succ, number_succ]
    by_cases hin : i = n
    · subst hin
      have hrest : number p (Function.update t i s) i = number p t i := by
        apply Finset.sum_congr rfl
        intro j hj
        rw [Function.update_of_ne (Finset.mem_range.mp hj).ne]
      rw [Function.update_self, hrest]
      omega
    · rw [Function.update_of_ne (Ne.symm hin)]
      have := ih (by omega)
      omega

theorem number_mono {q : Slot V → Bool} (h : ∀ s, p s = true → q s = true) :
    number p t n ≤ number q t n := by
  apply Finset.sum_le_sum
  intro i _
  cases hp : p (t i) with
  | false => simp
  | true => simp [h _ hp]

theorem number_lt (h : number p t n < n) : ∃ i < n, p (t i) = false := by
  by_contra hall
  have hfull : number p t n = n := by
    rw [number, Finset.sum_congr rfl fun i hi => ?_, Finset.sum_const, Finset.card_range,
      smul_eq_mul, Nat.mul_one]
    have := Finset.mem_range.mp hi
    by_contra hne
    apply hall
    refine ⟨i, this, ?_⟩
    cases hp : p (t i) with
    | false => rfl
    | true => simp [hp] at hne
  omega

theorem number_empty : number p (fun _ => s) n = n * (p s).toNat := by
  simp [number]

end Counts

section Find

/-- The table has `2 ^ k` slots and a free one. -/
structure Roomy (map : HashMap V) : Prop where
  power : ∃ k, 3 ≤ k ∧ k ≤ 22 ∧ map.size = 2 ^ k
  room : ∃ i < map.size, map.table i = .empty

theorem Slot.isActive_iff {s : Slot V} : s.isActive = true ↔ ∃ key value hash, s = .active key value hash := by
  cases s <;> simp [Slot.isActive]

theorem Roomy.lookup (h : Roomy map) (f : Funcs) (key : Ptr) (hash : Word) :
    ∃ i, map.hashLookup f key hash = some i ∧ Lands f key hash map i := by
  obtain ⟨k, _, hk, hsize⟩ := h.power
  obtain ⟨i, hi, he⟩ := h.room
  exact hashLookup_spec f key hash (by omega) hsize hi he

theorem Slot.Matches.same (hf : Reads f read code) (h : s.Matches f key hash) :
    ∃ key' value hash', s = .active key' value hash' ∧ read key' = read key := by
  cases s with
  | active key' value hash' =>
    refine ⟨key', value, hash', rfl, ?_⟩
    rcases h with rfl | ⟨_, hcmp⟩
    · rfl
    · exact (hf.cmp key' key).mp hcmp
  | _ => exact h.elim

theorem Placed.absent (h : Placed read code map) (hf : Reads f read code)
    (hm : Misses f key (f.hfunc key) map) {key' : Ptr} {hash' : Word}
    (hj : map.table j = .active key' value hash') : read key' ≠ read key := by
  intro he
  have hhash : hash' = f.hfunc key := by
    rw [h.hashed j key' value hash' hj, hf.hfunc, he]
  obtain ⟨e, hempty, hmiss⟩ := hm
  obtain ⟨n, hn, hfull⟩ := h.leads j key' value hash' hj
  rw [hhash] at hn hfull
  have hlt : n < e := by
    by_contra hge
    rcases Nat.lt_or_eq_of_le (Nat.le_of_not_lt hge) with hlt | rfl
    · exact hfull e hlt hempty
    · rw [hn, hj] at hempty
      cases hempty
  apply hmiss n hlt
  rw [hn, hj]
  exact Or.inr ⟨hhash, (hf.cmp key' key).mpr he⟩

inductive Looked (read : Ptr → A) (key : Ptr) (hash : Word) (map : HashMap V) (i : Nat) : Prop where
  | found {key' : Ptr} {value : V} {hash' : Word} : map.table i = .active key' value hash' →
      read key' = read key → Looked read key hash map i
  | absent : (map.table i).isActive = false → Leads map hash i →
      (∀ j key' value hash', map.table j = .active key' value hash' → read key' ≠ read key) →
      Looked read key hash map i

theorem Placed.lookup (h : Placed read code map) (hr : Roomy map) (hf : Reads f read code) (key : Ptr) :
    ∃ i, map.hashLookup f key (f.hfunc key) = some i ∧ Looked read key (f.hfunc key) map i := by
  obtain ⟨i, hi, hlands⟩ := hr.lookup f key (f.hfunc key)
  refine ⟨i, hi, ?_⟩
  cases hlands with
  | hit hm =>
    obtain ⟨key', value, hash', hs, hread⟩ := hm.same hf
    exact .found hs hread
  | free hm hl ha => exact .absent ha hl fun j key' value hash' hj => h.absent hf hm hj

theorem Placed.only (h : Placed read code map) {a : A} {key' : Ptr} {hash' : Word}
    (hi : map.table i = .active key' value hash') (he : read key' = a) :
    ∀ j key value hash, map.table j = .active key value hash → read key = a → j = i :=
  fun j key v hash hj hread => h.distinct j i key key' v value hash hash' hj hi (hread.trans he.symm)

end Find

end DominOS.HashTable
