import DominOS.HashTable

/-! What holds of every key and value that a table has together: no call makes up an entry, and
`hash_copy` moves them as they are. -/
namespace DominOS.HashTable

variable {V : Type} {map map' : HashMap V} {f : Funcs} {heap : Heap} {P : Ptr → V → Prop} {key : Ptr}
  {value : V} {i : Nat} {r : Int} {s : Slot V} {table oldtable : Nat → Slot V}

/-- Every key and value that are together in a slot satisfy `P`. -/
def Entries (P : Ptr → V → Prop) (table : Nat → Slot V) : Prop :=
  ∀ i key value hash, table i = .active key value hash → P key value

theorem Entries.put (h : Entries P table) (hs : ∀ key value hash, s = .active key value hash → P key value) :
    Entries P (Function.update table i s) := by
  intro j key value hash hj
  by_cases hij : j = i
  · subst hij
    rw [Function.update_self] at hj
    exact hs key value hash hj
  · rw [Function.update_of_ne hij] at hj
    exact h j key value hash hj

theorem copySlot_entries (hold : Entries P oldtable) (h : Entries P map.table)
    (hc : map.copySlot f oldtable i = some map') : Entries P map'.table := by
  unfold HashMap.copySlot at hc
  split at hc
  · rename_i key value hash hi
    obtain ⟨new, _, heq⟩ := Option.bind_eq_some_iff.mp hc
    cases heq
    apply h.put
    intro k v c he
    cases he
    exact hold i key value hash hi
  · cases hc
    exact h

theorem hashCopy_entries {oldsize : Nat} (hold : Entries P oldtable) (h : Entries P map.table)
    (hc : map.hashCopy f oldtable oldsize = some map') : Entries P map'.table := by
  unfold HashMap.hashCopy at hc
  induction oldsize generalizing map' with
  | zero =>
    cases hc
    exact h
  | succ n ih =>
    rw [List.range_succ, List.foldlM_append] at hc
    obtain ⟨m, hm, hlast⟩ := Option.bind_eq_some_iff.mp hc
    obtain ⟨m', hm', heq⟩ := Option.bind_eq_some_iff.mp hlast
    cases heq
    exact copySlot_entries hold (ih hm) hm'

theorem resize_entries {n : Nat} (h : Entries P map.table) (hr : map.resize f heap n = some (r, map')) :
    Entries P map'.table := by
  unfold HashMap.resize HashMap.hashInitialize at hr
  by_cases hserved : heap.memAlloc (n * slotBytes % 2 ^ 32) = true
  · simp only [hserved, not_true, if_false, show ¬ (0 : Int) = -1 by decide] at hr
    obtain ⟨m, hm, heq⟩ := Option.bind_eq_some_iff.mp hr
    cases heq
    apply hashCopy_entries h _ hm
    intro i key value hash hi
    cases hi
  · simp only [hserved] at hr
    cases hr
    exact h

theorem hashUpdate_entries (h : Entries P map.table) (hu : map.hashUpdate f heap = some (r, map')) :
    Entries P map'.table := by
  unfold HashMap.hashUpdate at hu
  split at hu
  · split at hu
    · cases hu
      exact h
    · exact resize_entries h hu
  · split at hu
    · exact resize_entries h hu
    · cases hu
      exact h

theorem hashSet_entries (h : Entries P map.table) (hnew : P key value)
    (hnone : map.hashIsset f key = some 0) (hs : map.hashSet f heap key value = some (r, map')) :
    Entries P map'.table := by
  obtain ⟨slot, hslot, hisset⟩ := Option.bind_eq_some_iff.mp hnone
  unfold HashMap.hashSet at hs
  simp only [hslot, Option.bind_eq_bind, Option.bind_some] at hs
  have hstored : Entries P (Function.update map.table slot (.active key value (f.hfunc key))) := by
    apply h.put
    intro k v c he
    cases he
    exact hnew
  cases hold : map.table slot with
  | active k v c =>
    rw [hold] at hisset
    cases hisset
  | empty =>
    rw [hold] at hs
    exact hashUpdate_entries hstored hs
  | deleted =>
    rw [hold] at hs
    exact hashUpdate_entries hstored hs

theorem hashDel_entries (h : Entries P map.table) (hd : map.hashDel f heap key = some (r, map')) :
    Entries P map'.table := by
  obtain ⟨slot, hslot, hrest⟩ := Option.bind_eq_some_iff.mp hd
  cases hold : map.table slot with
  | active k v c =>
    rw [hold] at hrest
    have hmarked : Entries P (Function.update map.table slot .deleted) := h.put nofun
    exact hashUpdate_entries hmarked hrest
  | empty =>
    rw [hold] at hrest
    cases hrest
    exact h
  | deleted =>
    rw [hold] at hrest
    cases hrest
    exact h

end DominOS.HashTable
