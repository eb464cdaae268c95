import DominOS.HashTableRuns

/-! `hash_set` when `mem_alloc` refuses the table that `hash_update` asks for. -/
namespace DominOS.HashTable
open Fallible Runs

variable {V A : Type} {map map' stored : HashMap V} {f : Funcs} {heap : Heap} {read : Ptr → A}
  {code : A → Word} {key : Ptr} {value : V} {hash : Word} {i n : Nat} {r : Int} {spec : A → Option V}

def asks (fill count : Int) (size : Nat) : Option Nat :=
  if 3 * fill ≥ 2 * size then some (2 * size)
  else if size > hashMinsize ∧ 4 * count ≤ size then some (size / 2)
  else none

def Granted (heap : Heap) (fill count : Int) (size : Nat) : Prop :=
  ∀ n, asks fill count size = some n → heap.memAlloc (n * slotBytes % 2 ^ 32) = true

/-- The key is in the table, or it can be stored and `hash_update` then gets what it asks for. -/
def Served (f : Funcs) (heap : Heap) (key : Ptr) (map : HashMap V) : Prop :=
  ∀ i, map.hashLookup f key (f.hfunc key) = some i → (map.table i).isActive = false →
    Granted heap (map.fill + (map.table i).isEmpty.toNat) (map.count + 1) map.size

instance (heap : Heap) (fill count : Int) (size : Nat) : Decidable (Granted heap fill count size) :=
  decidable_of_iff (((asks fill count size).all fun n => heap.memAlloc (n * slotBytes % 2 ^ 32)) = true)
    (Option.all_eq_true _ _)

instance (f : Funcs) (heap : Heap) (key : Ptr) (map : HashMap V) : Decidable (Served f heap key map) :=
  decidable_of_iff (((map.hashLookup f key (f.hfunc key)).all fun i => decide ((map.table i).isActive = false →
    Granted heap (map.fill + (map.table i).isEmpty.toNat) (map.count + 1) map.size)) = true)
    (by simp only [Option.all_eq_true, decide_eq_true_eq, Served])

section Update

theorem copySlot_refused {oldtable : Nat → Slot V} (h : map.copySlot f oldtable i = some map') :
    map'.refused = map.refused := by
  unfold HashMap.copySlot at h
  split at h
  · obtain ⟨new, _, hmap⟩ := Option.bind_eq_some_iff.mp h
    cases hmap
    rfl
  · cases h
    rfl

theorem hashCopy_refused {oldtable : Nat → Slot V} {oldsize : Nat}
    (h : map.hashCopy f oldtable oldsize = some map') : map'.refused = map.refused := by
  unfold HashMap.hashCopy at h
  generalize List.range oldsize = slots at h
  induction slots generalizing map with
  | nil =>
    cases h
    rfl
  | cons i slots ih =>
    obtain ⟨m, hm, hrest⟩ := Option.bind_eq_some_iff.mp h
    exact (ih hrest).trans (copySlot_refused hm)

theorem resize_refused (hz : map.refused = false) (h : map.resize f heap n = some (r, map')) :
    map'.refused = (!heap.memAlloc (n * slotBytes % 2 ^ 32)) ∧
      (map'.refused = true → r = -1 ∧ map' = { map with refused := true }) := by
  unfold HashMap.resize HashMap.hashInitialize at h
  by_cases hserved : heap.memAlloc (n * slotBytes % 2 ^ 32) = true
  · simp only [hserved, not_true, if_false, show ¬ (0 : Int) = -1 by decide] at h
    obtain ⟨m, hm, heq⟩ := Option.bind_eq_some_iff.mp h
    cases heq
    have hkept := (hashCopy_refused hm).trans hz
    rw [hkept, hserved]
    exact ⟨rfl, nofun⟩
  · rw [Bool.not_eq_true] at hserved
    simp only [hserved, Bool.false_eq_true, not_false_iff, if_true, Option.some.injEq] at h
    cases h
    rw [hserved]
    exact ⟨rfl, fun _ => ⟨rfl, rfl⟩⟩

/-- Either the table is kept, and that is what -1 says, or nothing has been refused. -/
theorem hashUpdate_refused (hz : map.refused = false) (hsize : 2 * map.size < 2 ^ 31)
    (h : map.hashUpdate f heap = some (r, map')) :
    (map'.refused = false ↔ Granted heap map.fill map.count map.size) ∧
      (map'.refused = true → r = -1 ∧ map' = { map with refused := true }) := by
  unfold HashMap.hashUpdate at h
  unfold Granted asks
  split at h
  · rename_i hfull
    rw [if_neg (by omega)] at h
    obtain ⟨hrefused, hkept⟩ := resize_refused hz h
    rw [if_pos hfull, hrefused]
    rw [hrefused] at hkept
    exact ⟨by simp, hkept⟩
  · rename_i hlight
    rw [if_neg hlight]
    split at h
    · rename_i hfew
      obtain ⟨hrefused, hkept⟩ := resize_refused hz h
      rw [if_pos hfew, hrefused]
      rw [hrefused] at hkept
      exact ⟨by simp, hkept⟩
    · rename_i hmany
      cases h
      rw [if_neg hmany, hz]
      exact ⟨by simp, nofun⟩

end Update

section Calls

theorem Sound.small (h : Sound read code map spec) : 2 * map.size < 2 ^ 31 := by
  obtain ⟨k, _, hk, hsize⟩ := h.power
  have hpow : 2 ^ k ≤ 2 ^ 22 := Nat.pow_le_pow_right (by decide) hk
  omega

def HashMap.forgotten (map : HashMap V) : HashMap V := { map with refused := false }

theorem forgotten_eq (h : map.refused = false) : map.forgotten = map := by
  rw [HashMap.forgotten, ← h]

theorem forgotten_refused (h : map.refused = false) :
    ({ map with refused := true } : HashMap V).forgotten = map := forgotten_eq h

variable [DecidableEq A]

variable (heap) in
theorem hashSet_stored (h : Sound read code map spec) (hf : Reads f read code) (value : V)
    (hi : map.hashLookup f key (f.hfunc key) = some i) (hl : Looked read key (f.hfunc key) map i)
    (ha : (map.table i).isActive = false) :
    ∃ stored, map.hashSet f heap key value = stored.hashUpdate f heap ∧
      Sound read code stored (Function.update spec (read key) (some value)) ∧ stored.size = map.size ∧
      stored.fill = map.fill + (map.table i).isEmpty.toNat ∧ stored.count = map.count + 1 := by
  cases hl with
  | found hs hread => simp [hs, Slot.isActive] at ha
  | absent _ hleads hother =>
    unfold HashMap.hashSet
    simp only [hi, Option.bind_eq_bind, Option.bind_some]
    cases hs : map.table i with
    | active key' value' hash' => simp [hs, Slot.isActive] at ha
    | empty =>
      refine ⟨_, rfl, h.store hf value ha hleads hother rfl (by simp [hs, Slot.isEmpty]), rfl, ?_, rfl⟩
      simp [Slot.isEmpty]
    | deleted =>
      refine ⟨_, rfl, h.store hf value ha hleads hother rfl (by simp [hs, Slot.isEmpty, HashMap.put]), rfl,
        ?_, rfl⟩
      simp [Slot.isEmpty, HashMap.put]

theorem hashSet_refused (h : Sound read code map spec) (hl : Light map) (hf : Reads f read code)
    (hset : map.hashSet f heap key value = some (r, map')) :
    (map'.refused = false ↔ Served f heap key map) ∧
      (map'.refused = true → r = -1 ∧ spec (read key) = none ∧
        Holds read map' (Function.update spec (read key) (some value))) := by
  obtain ⟨i, hi, hlooked⟩ := h.placed.lookup (h.roomy hl) hf key
  by_cases ha : (map.table i).isActive = true
  · obtain ⟨key', value', hash', hs⟩ := Slot.isActive_iff.mp ha
    unfold HashMap.hashSet at hset
    simp only [hi, Option.bind_eq_bind, Option.bind_some, hs, Option.some.injEq] at hset
    cases hset
    refine ⟨⟨fun _ j hj hinactive => ?_, fun _ => h.served⟩, fun hrefused => ?_⟩
    · cases hi.symm.trans hj
      exact absurd (ha.symm.trans hinactive) nofun
    · exact absurd (h.served.symm.trans hrefused) nofun
  · rw [Bool.not_eq_true] at ha
    obtain ⟨stored, hstored, hsound, hsize, hfill, hcount⟩ :=
      hashSet_stored heap h hf value hi hlooked ha
    obtain ⟨hgranted, hkept⟩ := hashUpdate_refused hsound.served hsound.small (hstored.symm.trans hset)
    rw [hfill, hcount, hsize] at hgranted
    refine ⟨hgranted.trans ⟨fun hg j hj _ => ?_, fun hs => hs i hi ha⟩, fun hrefused => ?_⟩
    · cases hi.symm.trans hj
      exact hg
    · obtain ⟨hr, rfl⟩ := hkept hrefused
      refine ⟨hr, ?_, hsound.holds⟩
      cases hlooked with
      | found hs _ => simp [hs, Slot.isActive] at ha
      | absent _ _ hother => exact Looked.absent_none h.holds hother

theorem hashDel_refused (h : Sound read code map spec) (hl : Light map) (hf : Reads f read code)
    (hdel : map.hashDel f heap key = some (r, map')) :
    Sound read code map'.forgotten (Function.update spec (read key) none) ∧ Light map' := by
  obtain ⟨r', map'', hspec, hgood⟩ := hashDel_spec heap h hl hf key
  cases hdel.symm.trans hspec
  by_cases hrefused : map'.refused = true
  · obtain ⟨i, hi, hlooked⟩ := h.placed.lookup (h.roomy hl) hf key
    unfold HashMap.hashDel at hdel
    simp only [hi, Option.bind_eq_bind, Option.bind_some] at hdel
    cases hlooked with
    | found hs hread =>
      have hsound := h.delete hs hread
      rw [hs] at hdel
      have hz : ({ map.put i .deleted with count := map.count - 1 } : HashMap V).refused = false := h.served
      obtain ⟨-, hkept⟩ := hashUpdate_refused hz h.small hdel
      obtain ⟨-, rfl⟩ := hkept hrefused
      rw [forgotten_refused hz]
      exact ⟨hsound, hl⟩
    | absent ha _ _ =>
      cases hs : map.table i with
      | active key' value' hash' => simp [hs, Slot.isActive] at ha
      | empty =>
        rw [hs] at hdel
        cases hdel
        exact absurd (h.served.symm.trans hrefused) Bool.false_ne_true
      | deleted =>
        rw [hs] at hdel
        cases hdel
        exact absurd (h.served.symm.trans hrefused) Bool.false_ne_true
  · rw [Bool.not_eq_true] at hrefused
    obtain ⟨-, hsound, hlight⟩ := hgood hrefused
    rw [forgotten_eq hrefused]
    exact ⟨hsound, hlight⟩

end Calls

section Runs
variable {mode : Mode} {x : System V}

/-- The table is called, where a `hash_set` that stores a new key gets the table that it asks for, and a
`hash_del` may be refused one; or memory changes where no stored key points. -/
inductive ServedStep (mode : Mode) : System V → System V → Prop where
  | call {x : System V} {map : HashMap V} {answer : Answer V} (heap : Heap) (c : Call V) :
      x.map.call (mode.funcs x.memory) heap c = some (answer, map) →
      (∀ key value, c = .set key value → Served (mode.funcs x.memory) heap key x.map) →
      ServedStep mode x ⟨map.forgotten, x.memory, c.result (mode.content x.memory) x.spec⟩
  | write {x : System V} (memory : Ptr → CString) :
      (∀ i key value hash, x.map.table i = .active key value hash →
        mode.content memory key = mode.content x.memory key) →
      ServedStep mode x ⟨x.map, memory, x.spec⟩

theorem servedStep_sound {x y : System V} (hs : ServedStep mode x y)
    (h : Sound (mode.content x.memory) Content.hashed x.map x.spec) (hl : Light x.map) :
    Sound (mode.content y.memory) Content.hashed y.map y.spec ∧ Light y.map := by
  have hf := mode.reads x.memory
  cases hs with
  | call heap c hcall hserved =>
    cases c with
    | isset key =>
      obtain ⟨a, _, heq⟩ := Option.bind_eq_some_iff.mp hcall
      cases heq
      exact ⟨(forgotten_eq h.served).symm ▸ h, hl⟩
    | get key default =>
      obtain ⟨a, _, heq⟩ := Option.bind_eq_some_iff.mp hcall
      cases heq
      exact ⟨(forgotten_eq h.served).symm ▸ h, hl⟩
    | set key value =>
      obtain ⟨⟨r, map'⟩, hset, heq⟩ := Option.bind_eq_some_iff.mp hcall
      cases heq
      have hrefused := (hashSet_refused h hl hf hset).1.mpr (hserved key value rfl)
      obtain ⟨r', map'', hspec, hgood⟩ := hashSet_spec heap h hl hf key value
      cases hset.symm.trans hspec
      obtain ⟨-, hsound, hlight⟩ := hgood hrefused
      exact ⟨(forgotten_eq hrefused).symm ▸ hsound, hlight⟩
    | del key =>
      obtain ⟨⟨r, map'⟩, hdel, heq⟩ := Option.bind_eq_some_iff.mp hcall
      cases heq
      exact hashDel_refused h hl hf hdel
  | write memory hm => exact ⟨h.write hm, hl⟩

/-- As long as every `hash_set` of a new key gets the table that it asks for, the table has an empty
slot and every call ends. A `hash_set` that returns -1 leaves the map as it was exactly when it
gets its table, and thus does not return -1. -/
theorem failed_set_keeps_map (h : Reachable Made (ServedStep mode) x) :
    Holds (mode.content x.memory) x.map x.spec ∧
      (∃ i < x.map.size, x.map.table i = .empty) ∧
      (∀ heap (c : Call V), ∃ answer map, x.map.call (mode.funcs x.memory) heap c = some (answer, map)) ∧
      ∀ heap key value r map, x.map.hashSet (mode.funcs x.memory) heap key value = some (r, map) →
        ((r = -1 → Holds (mode.content x.memory) map x.spec) ↔
          Served (mode.funcs x.memory) heap key x.map) := by
  obtain ⟨hs, hl⟩ : Sound (mode.content x.memory) Content.hashed x.map x.spec ∧ Light x.map := by
    apply h.invariant (I := fun x => Sound (mode.content x.memory) Content.hashed x.map x.spec ∧ Light x.map)
    · exact fun x hx => made_sound hx mode
    · exact fun x y hx hstep => servedStep_sound hstep hx.1 hx.2
  have hf := mode.reads x.memory
  refine ⟨hs.holds, (hs.roomy hl).room, fun heap c => ?_, fun heap key value r map hset => ?_⟩
  · obtain ⟨answer, map, hcall, -⟩ := call_spec heap hs hl hf c
    exact ⟨answer, map, hcall⟩
  · obtain ⟨hserved, hkept⟩ := hashSet_refused hs hl hf hset
    rw [← hserved]
    constructor
    · intro hholds
      by_contra hne
      obtain ⟨hr, hnone, hstored⟩ := hkept (by simpa using hne)
      have hvalue : x.spec (mode.content x.memory key) = some value := by
        rw [hholds hr, ← hstored, Function.update_self]
      exact nomatch hnone.symm.trans hvalue
    · intro hrefused hr
      obtain ⟨r', map', hspec, hgood⟩ := hashSet_spec heap hs hl hf key value
      cases hset.symm.trans hspec
      exact absurd ((hgood hrefused).1.symm.trans hr) (by decide)

def Call.Grows (f : Funcs) (heap : Heap) (map : HashMap V) : Call V → Prop
  | .set key _ => Served f heap key map
  | _ => True

instance (f : Funcs) (heap : Heap) (map : HashMap V) : (c : Call V) → Decidable (c.Grows f heap map)
  | .set key _ => inferInstanceAs (Decidable (Served f heap key map))
  | .isset _ => .isTrue trivial
  | .get _ _ => .isTrue trivial
  | .del _ => .isTrue trivial

/-- A call with the heap of that moment. -/
def System.attempt (mode : Mode) (e : Heap × Call V) (x : System V) : Except Unit (System V) :=
  match x.map.call (mode.funcs x.memory) e.1 e.2 with
  | some (_, map) =>
    if e.2.Grows (mode.funcs x.memory) e.1 x.map then
      .ok ⟨map.forgotten, x.memory, e.2.result (mode.content x.memory) x.spec⟩
    else .error ()
  | none => .error ()

theorem System.attempt_step {y : System V} {e : Heap × Call V} (h : x.attempt mode e = .ok y) :
    ServedStep mode x y := by
  unfold System.attempt at h
  split at h
  · rename_i answer map hcall
    split at h
    · rename_i hgrows
      cases h
      refine .call e.1 e.2 hcall fun key value he => ?_
      rw [he] at hgrows
      exact hgrows
    · cases h
  · cases h

def noHeap : Heap := ⟨fun _ => false, fun _ h => absurd h Bool.false_ne_true⟩

/-- Six keys are stored, and the table grows. When two are deleted it is to shrink, which is refused, and
then a value is replaced. -/
theorem failed_set_keeps_map_several : ∃ x : System Nat, x.map.size = 16 ∧ x.map.count = 4 ∧
    x.spec (.address 1) = none ∧ x.spec (.address 3) = some 9 ∧
    Holds (Mode.direct.content x.memory) x.map x.spec ∧
      (∃ i < x.map.size, x.map.table i = .empty) ∧
      (∀ heap (c : Call Nat), ∃ answer map,
        x.map.call (Mode.direct.funcs x.memory) heap c = some (answer, map)) ∧
      ∀ heap key value r map, x.map.hashSet (Mode.direct.funcs x.memory) heap key value = some (r, map) →
        ((r = -1 → Holds (Mode.direct.content x.memory) map x.spec) ↔
          Served (Mode.direct.funcs x.memory) heap key x.map) := by
  have hrun : (exec (System.attempt .direct) [(roomyHeap, .set 1 5), (roomyHeap, .set 2 6),
      (roomyHeap, .set 3 7), (noHeap, .set 4 8), (noHeap, .set 5 1), (roomyHeap, .set 6 2),
      (noHeap, .del 1), (noHeap, .del 2), (noHeap, .set 3 9)] (System.empty roomyHeap twoByTwo)).map
      (fun x => (x.map.size, x.map.count, x.spec (.address 1), x.spec (.address 3))) =
      .ok (16, 4, none, some 9) := by
    decide +kernel
  obtain ⟨x, hx, hfacts⟩ := map_ok.mp hrun
  simp only [Prod.mk.injEq] at hfacts
  obtain ⟨hsize, hcount, hdeleted, hreplaced⟩ := hfacts
  have h₀ : Reachable Made (ServedStep .direct) (System.empty roomyHeap twoByTwo) :=
    Reachable.start ⟨roomyHeap, _, rfl, rfl, rfl⟩
  exact ⟨x, hsize, hcount, hdeleted, hreplaced,
    failed_set_keeps_map (h₀.exec (fun _ _ _ => System.attempt_step) hx)⟩

end Runs

section Full

theorem lookupLoop_full (hfull : ∀ i < map.size, ∃ k v h, map.table i = .active k v h ∧ k ≠ key ∧
      ¬ (h = hash ∧ f.cmp k key = true)) (fuel : Nat) (index perturb : Word) (freeslot : Option Nat) :
    map.lookupLoop f key hash fuel index perturb freeslot = none := by
  induction fuel generalizing index perturb freeslot with
  | zero => rfl
  | succ fuel ih =>
    have hlt : (index &&& map.mask).toNat < map.size := by
      rw [BitVec.toNat_and]
      exact Nat.lt_succ_of_le Nat.and_le_right
    obtain ⟨k, v, h, hslot, hne, hcmp⟩ := hfull _ hlt
    have hmiss : ¬ (k = key ∨ (h = hash ∧ f.cmp k key = true)) := fun hm => hm.elim hne hcmp
    simp only [HashMap.lookupLoop, hslot, if_neg hmiss]
    exact ih _ _ _

def smallHeap : Heap := ⟨fun n => n = 128, fun n hn => by
  have := of_decide_eq_true hn
  omega⟩

def addresses : Funcs := Mode.direct.funcs fun _ => .empty

def setAll (map : HashMap Nat) : List Ptr → Option (List Int × HashMap Nat)
  | [] => some ([], map)
  | key :: keys => do
    let (r, map) ← map.hashSet addresses smallHeap key 7
    let (rs, map) ← setAll map keys
    some (r :: rs, map)

def smallTable : HashMap Nat := (HashMap.hashInit smallHeap ⟨0, 0, 0, fun _ => .deleted, false⟩).2

/-- Of eight keys the last three are refused and stored, and then a lookup of a ninth never ends. -/
theorem refused_keys_stored :
    ∃ map, setAll smallTable [1, 2, 3, 4, 5, 6, 7, 8] = some ([0, 0, 0, 0, 0, -1, -1, -1], map) ∧
      map.hashGet addresses 6 0 = some 7 ∧ (∀ i < map.size, map.table i ≠ .empty) ∧
      ∀ fuel, map.lookupLoop addresses 9 9 fuel (9 &&& map.mask) 9 none = none := by
  have hsets : (setAll smallTable [1, 2, 3, 4, 5, 6, 7, 8]).map
      (fun r => (r.1, r.2.size, (List.range 8).map r.2.table, r.2.hashGet addresses 6 0)) =
      some ([0, 0, 0, 0, 0, -1, -1, -1], 8, [.active 8 7 8, .active 1 7 1, .active 2 7 2, .active 3 7 3,
        .active 4 7 4, .active 5 7 5, .active 6 7 6, .active 7 7 7], some 7) := by
    decide +kernel
  obtain ⟨⟨rs, map⟩, hmap, heq⟩ := Option.map_eq_some_iff.mp hsets
  simp only [Prod.mk.injEq] at heq
  obtain ⟨rfl, hsize, htable, hget⟩ := heq
  have hslot : ∀ i < map.size, ∃ k v h, map.table i = .active k v h ∧ k ≠ 9 ∧
      ¬ (h = 9 ∧ addresses.cmp k 9 = true) := by
    intro i hi
    rw [hsize] at hi
    have hith := congrArg (fun l => l[i]?) htable
    simp only [List.getElem?_map, List.getElem?_range hi, Option.map_some] at hith
    interval_cases i
    all_goals
      simp only [List.getElem?_cons_zero, List.getElem?_cons_succ, Option.some.injEq] at hith
      exact ⟨_, _, _, hith, by decide, by decide⟩
  refine ⟨map, hmap, hget, fun i hi => ?_, fun fuel => lookupLoop_full hslot fuel _ _ _⟩
  obtain ⟨k, v, h, hactive, -⟩ := hslot i hi
  rw [hactive]
  exact nofun

end Full

end DominOS.HashTable
