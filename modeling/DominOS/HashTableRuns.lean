import DominOS.Fallible
import DominOS.HashTableResize
import DominOS.Runs

/-! The calls of a table against the map that it stands for, over any run in which `mem_alloc`
serves what it is asked for and no stored key changes. -/
namespace DominOS.HashTable
open Fallible Runs

variable {V A : Type} {map : HashMap V} {f : Funcs} {heap : Heap} {read : Ptr → A} {code : A → Word}
  {key : Ptr} {value : V} {hash : Word} {i : Nat} {s : Slot V} {spec spec' : A → Option V}

section Calls

/-- What a call is to answer. -/
def Call.answer (read : Ptr → A) (spec : A → Option V) : Call V → Answer V
  | .isset key => .ret (if (spec (read key)).isSome then 1 else 0)
  | .get key default => .value ((spec (read key)).getD default)
  | .set _ _ => .ret 0
  | .del _ => .ret 0

/-- What a call is to make of the map. -/
def Call.result [DecidableEq A] (read : Ptr → A) (spec : A → Option V) : Call V → A → Option V
  | .isset _ => spec
  | .get _ _ => spec
  | .set key value => Function.update spec (read key) (some value)
  | .del key => Function.update spec (read key) none

theorem Looked.absent_none (h : Holds read map spec)
    (ha : ∀ j key' value' hash', map.table j = .active key' value' hash' → read key' ≠ read key) :
    spec (read key) = none := by
  cases hs : spec (read key) with
  | none => rfl
  | some value =>
    obtain ⟨i, key', hash', hi, hread⟩ := (h (read key) value).mp hs
    exact absurd hread (ha i key' value hash' hi)

theorem Sound.put {count fill : Int} (h : Sound read code map spec) (hi : i < map.size)
    (hp : Placed read code (map.put i s)) (hh : Holds read (map.put i s) spec')
    (hc : count + (map.table i).isActive.toNat = map.count + s.isActive.toNat)
    (hfl : fill + (!(map.table i).isEmpty).toNat = map.fill + (!s.isEmpty).toNat) :
    Sound read code { map.put i s with count := count, fill := fill } spec' where
  placed := ⟨hp.hashed, hp.distinct, hp.leads⟩
  holds := hh
  power := h.power
  count := by
    have hn := number_update (p := Slot.isActive) (s := s) (t := map.table) hi
    have hcount := h.count
    change count = number Slot.isActive (Function.update map.table i s) map.size
    omega
  fill := by
    have hn := number_update (p := fun s => !s.isEmpty) (s := s) (t := map.table) hi
    have hfill := h.fill
    change fill = number (fun s => !s.isEmpty) (Function.update map.table i s) map.size
    omega
  served := h.served

theorem hashIsset_spec (h : Sound read code map spec) (hl : Light map) (hf : Reads f read code)
    (key : Ptr) : map.hashIsset f key = some (if (spec (read key)).isSome then 1 else 0) := by
  obtain ⟨i, hi, hlooked⟩ := h.placed.lookup (h.roomy hl) hf key
  unfold HashMap.hashIsset
  rw [hi]
  cases hlooked with
  | @found key' value hash' hs hread =>
    have hspec := (h.holds (read key) value).mpr ⟨i, key', hash', hs, hread⟩
    simp [hs, hspec]
  | absent ha _ hother =>
    rw [Looked.absent_none h.holds hother]
    cases hs : map.table i with
    | active key' value hash' => simp [hs, Slot.isActive] at ha
    | _ => simp [hs]

theorem hashGet_spec (h : Sound read code map spec) (hl : Light map) (hf : Reads f read code)
    (key : Ptr) (default : V) : map.hashGet f key default = some ((spec (read key)).getD default) := by
  obtain ⟨i, hi, hlooked⟩ := h.placed.lookup (h.roomy hl) hf key
  unfold HashMap.hashGet
  rw [hi]
  cases hlooked with
  | @found key' value hash' hs hread =>
    have hspec := (h.holds (read key) value).mpr ⟨i, key', hash', hs, hread⟩
    simp [hs, hspec]
  | absent ha _ hother =>
    rw [Looked.absent_none h.holds hother]
    cases hs : map.table i with
    | active key' value hash' => simp [hs, Slot.isActive] at ha
    | _ => simp [hs]

variable [DecidableEq A]

theorem Sound.store {count fill : Int} (h : Sound read code map spec) (hf : Reads f read code)
    (value : V) (ha : (map.table i).isActive = false) (hleads : Leads map (f.hfunc key) i)
    (hother : ∀ j key' value' hash', map.table j = .active key' value' hash' → read key' ≠ read key)
    (hc : count = map.count + 1) (hfl : fill + (!(map.table i).isEmpty).toNat = map.fill + 1) :
    Sound read code { map.put i (.active key value (f.hfunc key)) with
      count := count, fill := fill } (Function.update spec (read key) (some value)) := by
  apply h.put hleads.lt
  · apply h.placed.put
    · exact nofun
    intro k v c he
    cases he
    exact ⟨hf.hfunc key, hleads, fun j k' v' c' hj hread => absurd hread (hother j k' v' c' hj)⟩
  · apply h.holds.put
    · intro k v c he
      simp [he, Slot.isActive] at ha
    · exact fun j k v c hj hread => absurd hread (hother j k v c hj)
    · intro k v c he
      cases he
      rfl
  · rw [ha, hc]
    simp [Slot.isActive]
  · exact hfl

variable (heap) in
theorem hashSet_spec (h : Sound read code map spec) (hl : Light map) (hf : Reads f read code)
    (key : Ptr) (value : V) : ∃ r map', map.hashSet f heap key value = some (r, map') ∧
      (map'.refused = false → r = 0 ∧
        Sound read code map' (Function.update spec (read key) (some value)) ∧ Light map') := by
  obtain ⟨i, hi, hlooked⟩ := h.placed.lookup (h.roomy hl) hf key
  unfold HashMap.hashSet
  simp only [hi, Option.bind_eq_bind, Option.bind_some]
  cases hlooked with
  | @found key' value' hash' hs hread =>
    have hlt := (h.placed.leads i key' value' hash' hs).lt
    have hput : Sound read code { map.put i (.active key' value hash') with
        count := map.count, fill := map.fill } (Function.update spec (read key) (some value)) := by
      apply h.put hlt
      · apply h.placed.put
        · exact nofun
        intro k v c he
        cases he
        exact ⟨h.placed.hashed i key' value' hash' hs, h.placed.leads i key' value' hash' hs,
          h.placed.only hs rfl⟩
      · apply h.holds.put
        · intro k v c he
          cases hs.symm.trans he
          exact hread
        · exact h.placed.only hs hread
        · intro k v c he
          cases he
          exact hread
      · rw [hs]
        rfl
      · rw [hs]
        rfl
    rw [hs]
    exact ⟨0, _, rfl, fun _ => ⟨rfl, hput, hl⟩⟩
  | absent ha hleads hother =>
    cases hs : map.table i with
    | active key' value' hash' => simp [hs, Slot.isActive] at ha
    | empty =>
      apply hashUpdate_spec (h.store hf value ha hleads hother rfl (by simp [hs, Slot.isEmpty])) hf
      unfold Light at hl
      change 3 * (map.fill + 1) < 2 * map.size + 3
      omega
    | deleted =>
      apply hashUpdate_spec (h.store hf value ha hleads hother rfl
        (by simp [hs, Slot.isEmpty, HashMap.put])) hf
      unfold Light at hl
      change 3 * map.fill < 2 * map.size + 3
      omega

theorem Sound.delete {key' : Ptr} {hash' : Word} (h : Sound read code map spec)
    (hs : map.table i = .active key' value hash') (hread : read key' = read key) :
    Sound read code { map.put i .deleted with count := map.count - 1, fill := map.fill }
      (Function.update spec (read key) none) := by
  apply h.put (h.placed.leads i key' value hash' hs).lt
  · exact h.placed.put nofun nofun
  · apply h.holds.put
    · intro k v c he
      cases hs.symm.trans he
      exact hread
    · exact h.placed.only hs hread
    · exact nofun
  · rw [hs]
    simp [Slot.isActive]
  · rw [hs]
    rfl

variable (heap) in
theorem hashDel_spec (h : Sound read code map spec) (hl : Light map) (hf : Reads f read code)
    (key : Ptr) : ∃ r map', map.hashDel f heap key = some (r, map') ∧
      (map'.refused = false → r = 0 ∧
        Sound read code map' (Function.update spec (read key) none) ∧ Light map') := by
  obtain ⟨i, hi, hlooked⟩ := h.placed.lookup (h.roomy hl) hf key
  unfold HashMap.hashDel
  simp only [hi, Option.bind_eq_bind, Option.bind_some]
  cases hlooked with
  | @found key' value' hash' hs hread =>
    rw [hs]
    apply hashUpdate_spec (h.delete hs hread) hf
    unfold Light at hl
    change 3 * map.fill < 2 * map.size + 3
    omega
  | absent ha _ hother =>
    have hsame : Function.update spec (read key) none = spec := by
      rw [← Looked.absent_none h.holds hother, Function.update_eq_self]
    rw [hsame]
    cases hs : map.table i with
    | active key' value' hash' => simp [hs, Slot.isActive] at ha
    | _ => exact ⟨0, map, rfl, fun _ => ⟨rfl, h, hl⟩⟩

variable (heap) in
theorem call_spec (h : Sound read code map spec) (hl : Light map) (hf : Reads f read code) (c : Call V) :
    ∃ a map', map.call f heap c = some (a, map') ∧ (map'.refused = false →
      a = c.answer read spec ∧ Sound read code map' (c.result read spec) ∧ Light map') := by
  cases c with
  | isset key =>
    refine ⟨_, map, ?_, fun _ => ⟨rfl, h, hl⟩⟩
    simp [HashMap.call, hashIsset_spec h hl hf, Call.answer]
  | get key default =>
    refine ⟨_, map, ?_, fun _ => ⟨rfl, h, hl⟩⟩
    simp [HashMap.call, hashGet_spec h hl hf, Call.answer]
  | set key value =>
    obtain ⟨r, map', hr, hgood⟩ := hashSet_spec heap h hl hf key value
    refine ⟨.ret r, map', by simp [HashMap.call, hr], fun hserved => ?_⟩
    obtain ⟨rfl, hsound⟩ := hgood hserved
    exact ⟨rfl, hsound⟩
  | del key =>
    obtain ⟨r, map', hr, hgood⟩ := hashDel_spec heap h hl hf key
    refine ⟨.ret r, map', by simp [HashMap.call, hr], fun hserved => ?_⟩
    obtain ⟨rfl, hsound⟩ := hgood hserved
    exact ⟨rfl, hsound⟩

end Calls

section Modes

inductive Content where
  | address (key : Ptr)
  | text (string : CString)
deriving DecidableEq

theorem strcmp_eq_zero {s t : List Byte} (hs : 0 ∉ s) (ht : 0 ∉ t) : strcmp s t = 0 ↔ s = t := by
  induction s generalizing t with
  | nil =>
    cases t with
    | nil => simp [strcmp]
    | cons d t =>
      have hd : d ≠ 0 := fun he => ht (by simp [he])
      have : d.toNat ≠ 0 := fun he => hd (BitVec.eq_of_toNat_eq he)
      simp [strcmp, this]
  | cons c s ih =>
    cases t with
    | nil =>
      have hc : c ≠ 0 := fun he => hs (by simp [he])
      have : c.toNat ≠ 0 := fun he => hc (BitVec.eq_of_toNat_eq he)
      simp [strcmp, this]
    | cons d t =>
      have htail := ih (fun hm => hs (List.mem_cons_of_mem c hm)) fun hm => ht (List.mem_cons_of_mem d hm)
      by_cases hcd : c = d
      · subst hcd
        simp [strcmp, htail]
      · have : (c.toNat : Int) - d.toNat ≠ 0 := by
          intro he
          apply hcd
          apply BitVec.eq_of_toNat_eq
          omega
        simp [strcmp, this, hcd]

theorem hashStringCmp_eq (string1 string2 : CString) :
    hashStringCmp string1 string2 = true ↔ string1 = string2 := by
  unfold hashStringCmp
  rw [beq_iff_eq, strcmp_eq_zero string1.nonzero string2.nonzero]
  cases string1
  cases string2
  simp

def Mode.content (mode : Mode) (memory : Ptr → CString) (key : Ptr) : Content :=
  match mode with
  | .direct => .address key
  | .string => .text (memory key)

def Content.hashed : Content → Word
  | .address key => hashDirectHfunc key
  | .text string => hashStringHfunc string

theorem Mode.reads (mode : Mode) (memory : Ptr → CString) :
    Reads (mode.funcs memory) (mode.content memory) Content.hashed := by
  cases mode with
  | direct =>
    constructor
    · intro key1 key2
      simp [Mode.funcs, hashDirectCmp, Mode.content]
    · exact fun _ => rfl
  | string =>
    constructor
    · intro key1 key2
      simp [Mode.funcs, Mode.content, hashStringCmp_eq]
    · exact fun _ => rfl

end Modes

section Runs

/-- A table, the strings in memory, and the map that the table is to stand for. -/
structure System (V : Type) where
  map : HashMap V
  memory : Ptr → CString
  spec : Content → Option V

variable {mode : Mode} {x y : System V}

def Made (x : System V) : Prop :=
  ∃ heap map, HashMap.hashInit heap map = (0, x.map) ∧ map.refused = false ∧ x.spec = fun _ => none

/-- The table is called and `mem_alloc` serves it, or memory changes where no stored key points. -/
inductive Step (mode : Mode) : System V → System V → Prop where
  | call {x : System V} {map : HashMap V} {answer : Answer V} (heap : Heap) (c : Call V) :
      x.map.call (mode.funcs x.memory) heap c = some (answer, map) → map.refused = false →
      Step mode x ⟨map, x.memory, c.result (mode.content x.memory) x.spec⟩
  | write {x : System V} (memory : Ptr → CString) :
      (∀ i key value hash, x.map.table i = .active key value hash →
        mode.content memory key = mode.content x.memory key) →
      Step mode x ⟨x.map, memory, x.spec⟩

/-- The counters are those of the slots, the table is a power of two in size and not crowded, and
no key is in it twice. -/
structure WellFormed (f : Funcs) (map : HashMap V) : Prop where
  count : map.count = number Slot.isActive map.table map.size
  fill : map.fill = number (fun s => !s.isEmpty) map.table map.size
  light : 3 * map.fill < 2 * map.size
  power : ∃ k, map.size = 2 ^ k
  min : 8 ≤ map.size
  distinct : ∀ i j key key' value value' hash hash', map.table i = .active key value hash →
    map.table j = .active key' value' hash' → f.cmp key key' = true → i = j

theorem made_sound (h : Made x) (mode : Mode) :
    Sound (mode.content x.memory) Content.hashed x.map x.spec ∧ Light x.map := by
  obtain ⟨heap, map, hinit, hserved, hspec⟩ := h
  unfold HashMap.hashInit HashMap.hashInitialize at hinit
  split at hinit
  · cases hinit
  · have hmap := (Prod.mk.inj hinit).2
    have hempty (i : Nat) : x.map.table i = .empty := by rw [← hmap]
    have hsize : x.map.size = 8 := by rw [← hmap]; rfl
    refine ⟨⟨⟨?_, ?_, ?_⟩, ?_, ⟨3, by decide, by decide, hsize⟩, ?_, ?_, ?_⟩, ?_⟩
    · intro i key value hash hi
      cases (hempty i).symm.trans hi
    · intro i j key key' value value' hash hash' hi
      cases (hempty i).symm.trans hi
    · intro i key value hash hi
      cases (hempty i).symm.trans hi
    · intro a value
      rw [hspec]
      constructor
      · exact nofun
      · rintro ⟨i, key, hash, hi, _⟩
        cases (hempty i).symm.trans hi
    · rw [← hmap, number_empty]
      rfl
    · rw [← hmap, number_empty]
      rfl
    · rw [← hmap]
      exact hserved
    · unfold Light
      rw [hsize, ← hmap]
      change 3 * (0 : Int) < 2 * 8
      decide

theorem Sound.write {read' : Ptr → A} (h : Sound read code map spec)
    (hr : ∀ i key value hash, map.table i = .active key value hash → read' key = read key) :
    Sound read' code map spec where
  placed := by
    constructor
    · intro i key value hash hi
      rw [hr i key value hash hi]
      exact h.placed.hashed i key value hash hi
    · intro i j key key' value value' hash hash' hi hj he
      rw [hr i key value hash hi, hr j key' value' hash' hj] at he
      exact h.placed.distinct i j key key' value value' hash hash' hi hj he
    · exact h.placed.leads
  holds a value := by
    rw [h.holds]
    constructor
    · rintro ⟨i, key, hash, hi, hread⟩
      exact ⟨i, key, hash, hi, (hr i key value hash hi).trans hread⟩
    · rintro ⟨i, key, hash, hi, hread⟩
      exact ⟨i, key, hash, hi, (hr i key value hash hi).symm.trans hread⟩
  power := h.power
  count := h.count
  fill := h.fill
  served := h.served

/-- In every run the table is well formed and stands for the map, and each call ends and answers
as the map does. -/
theorem hash_table_is_map (h : Reachable Made (Step mode) x) :
    WellFormed (mode.funcs x.memory) x.map ∧ Holds (mode.content x.memory) x.map x.spec ∧
      ∀ heap (c : Call V), ∃ answer map,
        x.map.call (mode.funcs x.memory) heap c = some (answer, map) ∧
          (map.refused = false → answer = c.answer (mode.content x.memory) x.spec) := by
  have main : Sound (mode.content x.memory) Content.hashed x.map x.spec ∧ Light x.map := by
    apply h.invariant (I := fun x => Sound (mode.content x.memory) Content.hashed x.map x.spec ∧ Light x.map)
    · intro x hx
      exact made_sound hx mode
    · rintro x y ⟨hs, hl⟩ hstep
      cases hstep with
      | call heap c hcall hserved =>
        obtain ⟨a, map', hcall', hgood⟩ := call_spec heap hs hl (mode.reads x.memory) c
        cases hcall.symm.trans hcall'
        obtain ⟨_, hs', hl'⟩ := hgood hserved
        exact ⟨hs', hl'⟩
      | write memory hm => exact ⟨hs.write hm, hl⟩
  obtain ⟨hs, hl⟩ := main
  obtain ⟨k, h3, _, hsize⟩ := hs.power
  refine ⟨⟨hs.count, hs.fill, hl, ⟨k, hsize⟩, ?_, ?_⟩, hs.holds, fun heap c => ?_⟩
  · rw [hsize]
    exact Nat.pow_le_pow_right (n := 2) (by decide) h3
  · intro i j key key' value value' hash hash' hi hj hcmp
    exact hs.placed.distinct i j key key' value value' hash hash' hi hj
      (((mode.reads x.memory).cmp key key').mp hcmp)
  · obtain ⟨a, map', hcall, hgood⟩ := call_spec heap hs hl (mode.reads x.memory) c
    exact ⟨a, map', hcall, fun hserved => (hgood hserved).1⟩

def System.serve (mode : Mode) (heap : Heap) (c : Call V) (x : System V) : Except Unit (System V) :=
  match x.map.call (mode.funcs x.memory) heap c with
  | some (_, map) =>
    if map.refused then .error () else .ok ⟨map, x.memory, c.result (mode.content x.memory) x.spec⟩
  | none => .error ()

theorem System.serve_step {c : Call V} (h : x.serve mode heap c = .ok y) : Step mode x y := by
  unfold System.serve at h
  split at h
  · rename_i answer map hcall
    split at h
    · cases h
    · rename_i hserved
      cases h
      exact .call heap c hcall (Bool.eq_false_iff.mpr hserved)
  · cases h

def roomyHeap : Heap := ⟨fun n => n ≤ 0x4000000, fun _ hn => of_decide_eq_true hn⟩

def System.empty (heap : Heap) (memory : Ptr → CString) : System Nat :=
  ⟨(HashMap.hashInit heap ⟨0, 0, 0, fun _ => .deleted, false⟩).2, memory, fun _ => none⟩

def twoByTwo (p : Ptr) : CString :=
  ⟨List.replicate (p.toNat / 2) 97, fun h => absurd (List.eq_of_mem_replicate h) (by decide)⟩

/-- Seven keys are stored, of which one is deleted and one replaced from its other address, and the
table grows. -/
theorem hash_table_is_map_several : ∃ x : System Nat, x.map.size = 16 ∧ x.map.count = 6 ∧
    x.spec (.text (x.memory 2)) = some 8 ∧ x.spec (.text (x.memory 4)) = none ∧
    WellFormed (Mode.string.funcs x.memory) x.map ∧
    Holds (Mode.string.content x.memory) x.map x.spec ∧
      ∀ heap (c : Call Nat), ∃ answer map,
        x.map.call (Mode.string.funcs x.memory) heap c = some (answer, map) ∧
          (map.refused = false → answer = c.answer (Mode.string.content x.memory) x.spec) := by
  have hrun : (exec (System.serve .string roomyHeap) [.set 2 5, .set 4 6, .set 6 7, .del 4, .set 3 8,
      .set 8 1, .set 10 2, .set 12 3, .set 14 4] (System.empty roomyHeap twoByTwo)).map (fun x =>
        (x.map.size, x.map.count, x.spec (.text (x.memory 2)), x.spec (.text (x.memory 4)))) =
      .ok (16, 6, some 8, none) := by
    decide +kernel
  obtain ⟨x, hx, hfacts⟩ := map_ok.mp hrun
  simp only [Prod.mk.injEq] at hfacts
  obtain ⟨hsize, hcount, hreplaced, hdeleted⟩ := hfacts
  have h₀ : Reachable Made (Step .string) (System.empty roomyHeap twoByTwo) :=
    Reachable.start ⟨roomyHeap, _, rfl, rfl, rfl⟩
  exact ⟨x, hsize, hcount, hreplaced, hdeleted,
    hash_table_is_map (h₀.exec (fun _ _ _ => System.serve_step) hx)⟩

end Runs
end DominOS.HashTable
