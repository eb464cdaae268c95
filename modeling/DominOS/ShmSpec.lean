import DominOS.HashTableEntries
import DominOS.Leases
import DominOS.Shm

/-! The table of shared pages as a book that says which entry each string has, and what each call
does to the book. -/
namespace DominOS.Shm
open HashTable Paging Leases Fallible
open AddressSpaces (slotAddress sharedStart pageMax slot_inj slot_page)
open Process (TaskPtr)

variable {s s' : State} {env : Surroundings} {pointers : Content → Option Ptr}
  {book : CString → Option Shp} {string : CString} {shp : Shp} {key p q : Ptr} {t : TaskPtr} {i : Nat}
  {ending : Ending}

section Links

theorem strings_key (hp : p ≠ 0) (h : s.keys p = some string) : s.strings env p = string := by
  rw [State.strings, State.read, if_neg hp, h, Option.some_or, Option.getD_some]

theorem strings_read (h : s.read env p = some string) : s.strings env p = string := by
  simp [State.strings, h]

theorem read_ne_zero (h : s.read env p = some string) : p ≠ 0 := by
  rintro rfl
  simp [State.read] at h

theorem reads (env : Surroundings) (s : State) :
    Reads (s.funcs env) (Mode.string.content (s.strings env)) Content.hashed := Mode.string.reads _

/-- The table leads from strings to structs, and a struct to the copy of its key that the table has. -/
structure Linked (s : State) (pointers : Content → Option Ptr) (book : CString → Option Shp) : Prop where
  sound : ∀ env, Sound (Mode.string.content (s.strings env)) Content.hashed s.shpTable pointers
  light : Light s.shpTable
  entries : Entries (fun key p => ∃ shp, s.shps p = some shp ∧ shp.key = key) s.shpTable.table
  entry : ∀ a p, pointers a = some p → ∃ string shp, a = .text string ∧ p ≠ 0 ∧ s.shps p = some shp ∧
    shp.key ≠ 0 ∧ s.keys shp.key = some string ∧ book string = some shp
  booked : ∀ string shp, book string = some shp → ∃ p, pointers (.text string) = some p ∧ s.shps p = some shp

theorem Linked.intro (env : Surroundings)
    (hs : Sound (Mode.string.content (s.strings env)) Content.hashed s.shpTable pointers)
    (hl : Light s.shpTable)
    (he : Entries (fun key p => ∃ shp, s.shps p = some shp ∧ shp.key = key) s.shpTable.table)
    (hentry : ∀ a p, pointers a = some p → ∃ string shp, a = .text string ∧ p ≠ 0 ∧
      s.shps p = some shp ∧ shp.key ≠ 0 ∧ s.keys shp.key = some string ∧ book string = some shp)
    (hb : ∀ string shp, book string = some shp →
      ∃ p, pointers (.text string) = some p ∧ s.shps p = some shp) : Linked s pointers book where
  sound env' := by
    apply hs.write
    intro i key p hash hi
    obtain ⟨string, shp, _, _, hshp, hne, hkey, _⟩ :=
      hentry _ p ((hs.holds _ p).mpr ⟨i, key, hash, hi, rfl⟩)
    obtain ⟨shp', hshp', hown⟩ := he i key p hash hi
    cases hshp.symm.trans hshp'
    rw [hown] at hne hkey
    simp only [Mode.content, strings_key hne hkey]
  light := hl
  entries := he
  entry := hentry
  booked := hb

theorem Linked.slot {hash : Word} (h : Linked s pointers book)
    (hi : s.shpTable.table i = .active key p hash) : ∃ string shp, s.shps p = some shp ∧ shp.key = key ∧
      key ≠ 0 ∧ s.keys key = some string ∧ book string = some shp ∧ pointers (.text string) = some p := by
  let env : Surroundings := ⟨none, none, ⟨fun _ => false, nofun⟩, [], fun _ => none⟩
  have hp := ((h.sound env).holds _ p).mpr ⟨i, key, hash, hi, rfl⟩
  obtain ⟨string, shp, ha, _, hshp, hne, hkey, hbook⟩ := h.entry _ p hp
  obtain ⟨shp', hshp', hown⟩ := h.entries i key p hash hi
  cases hshp.symm.trans hshp'
  rw [hown] at hne hkey
  rw [ha] at hp
  exact ⟨string, shp, hshp, hown, hne, hkey, hbook, hp⟩

theorem Linked.inj {a a' : Content} (h : Linked s pointers book) (ha : pointers a = some p)
    (ha' : pointers a' = some p) : a = a' := by
  obtain ⟨string, shp, rfl, _, hshp, _, hkey, _⟩ := h.entry a p ha
  obtain ⟨string', shp', rfl, _, hshp', _, hkey', _⟩ := h.entry a' p ha'
  cases hshp.symm.trans hshp'
  cases hkey.symm.trans hkey'
  rfl

theorem Linked.hashGet (h : Linked s pointers book) (hr : s.read env key = some string) :
    s.shpTable.hashGet (s.funcs env) key 0 = some ((pointers (.text string)).getD 0) := by
  rw [hashGet_spec (h.sound env) h.light (reads env s) key 0]
  simp [Mode.content, strings_read hr]

theorem Linked.hashIsset (h : Linked s pointers book) (hr : s.read env key = some string) :
    s.shpTable.hashIsset (s.funcs env) key = some (if (pointers (.text string)).isSome then 1 else 0) := by
  rw [hashIsset_spec (h.sound env) h.light (reads env s) key]
  simp [Mode.content, strings_read hr]

theorem Linked.congr (h : Linked s pointers book) (ht : s'.shpTable = s.shpTable)
    (hs : s'.shps = s.shps) (hk : s'.keys = s.keys) : Linked s' pointers book := by
  obtain ⟨table, shps, keys, virtualMap, frames, dirs⟩ := s'
  cases ht
  cases hs
  cases hk
  exact ⟨h.sound, h.light, h.entries, h.entry, h.booked⟩

theorem Linked.setKey (h : Linked s pointers book) (env : Surroundings) (hq : s.keys q = none)
    (string : CString) : Linked (s.setKey q (some string)) pointers book := by
  apply Linked.intro env
  · apply (h.sound env).write
    intro i key p hash hi
    obtain ⟨string', shp, _, _, hne, hkey, _⟩ := h.slot hi
    have hother : (s.setKey q (some string)).keys key = some string' := by
      have hkq : key ≠ q := by
        rintro rfl
        cases hq.symm.trans hkey
      simp only [State.setKey, Function.update_of_ne hkq, hkey]
    simp only [Mode.content, strings_key hne hother, strings_key hne hkey]
  · exact h.light
  · exact h.entries
  · intro a p ha
    obtain ⟨string', shp, ha', hp, hshp, hne, hkey, hbook⟩ := h.entry a p ha
    refine ⟨string', shp, ha', hp, hshp, hne, ?_, hbook⟩
    have hkq : shp.key ≠ q := by
      intro hkq
      cases hq.symm.trans (hkq ▸ hkey)
    simp only [State.setKey, Function.update_of_ne hkq, hkey]
  · exact h.booked

theorem Linked.other {a : Content} {string' : CString} (h : Linked s pointers book)
    (ha : pointers a = some q) (ha' : a = .text string') (hp : pointers (.text string) = some p) :
    string' = string ↔ q = p := by
  constructor
  · rintro rfl
    cases ha'
    exact Option.some.inj (ha.symm.trans hp)
  · rintro rfl
    cases ha'.symm.trans (h.inj ha hp)
    rfl

theorem Linked.setShp (h : Linked s pointers book) (env : Surroundings) (shp' : Shp)
    (hp : pointers (.text string) = some p) (hshp : s.shps p = some shp) (hk : shp'.key = shp.key) :
    Linked (s.setShp p (some shp')) pointers (Function.update book string (some shp')) := by
  apply Linked.intro env
  · exact h.sound env
  · exact h.light
  · intro i key q hash hi
    obtain ⟨shp₁, hshp₁, hown⟩ := h.entries i key q hash hi
    by_cases hqp : q = p
    · subst hqp
      cases hshp.symm.trans hshp₁
      exact ⟨shp', Function.update_self .., hk.trans hown⟩
    · exact ⟨shp₁, (Function.update_of_ne hqp ..).trans hshp₁, hown⟩
  · intro a q ha
    obtain ⟨string', shp₁, ha', hq, hshp₁, hne, hkey, hbook⟩ := h.entry a q ha
    have hsame := h.other ha ha' hp
    by_cases hqp : q = p
    · obtain rfl := hsame.mpr hqp
      subst hqp
      cases hshp.symm.trans hshp₁
      exact ⟨string', shp', ha', hq, Function.update_self .., hk ▸ hne, hk ▸ hkey, Function.update_self ..⟩
    · exact ⟨string', shp₁, ha', hq, (Function.update_of_ne hqp ..).trans hshp₁, hne, hkey,
        (Function.update_of_ne (mt hsame.mp hqp) ..).trans hbook⟩
  · intro string' shp₁ hb
    rcases update_some.mp hb with ⟨rfl, he⟩ | ⟨hne, hb⟩
    · exact ⟨p, hp, (Function.update_self ..).trans he⟩
    · obtain ⟨q, hq, hshp₁⟩ := h.booked string' shp₁ hb
      have hqp : q ≠ p := mt (h.other hq rfl hp).mpr hne
      exact ⟨q, hq, (Function.update_of_ne hqp ..).trans hshp₁⟩

theorem Linked.insert {table : HashMap Ptr} (h : Linked s pointers book) (shp : Shp)
    (hs : Sound (Mode.string.content (s.strings env)) Content.hashed table
      (Function.update pointers (.text string) (some p)))
    (hl : Light table) (he : Entries (fun key p' => (∃ shp, s.shps p' = some shp ∧ shp.key = key) ∨
      (key = q ∧ p' = p)) table.table)
    (hp : p ≠ 0) (hfresh : s.shps p = none) (hq : q ≠ 0) (hkey : s.keys q = some string)
    (hk : shp.key = q) :
    Linked { s.setShp p (some shp) with shpTable := table }
      (Function.update pointers (.text string) (some p)) (Function.update book string (some shp)) := by
  have hother {q : Ptr} {shp' : Shp} (h' : s.shps q = some shp') : q ≠ p := by
    rintro rfl
    cases hfresh.symm.trans h'
  apply Linked.intro env
  · exact hs
  · exact hl
  · intro i key p' hash hi
    rcases he i key p' hash hi with ⟨shp', hshp', hown⟩ | ⟨rfl, rfl⟩
    · exact ⟨shp', (Function.update_of_ne (hother hshp') ..).trans hshp', hown⟩
    · exact ⟨shp, Function.update_self .., hk⟩
  · intro a p' ha
    rcases update_some.mp ha with ⟨rfl, he⟩ | ⟨hne, ha⟩
    · cases he
      exact ⟨string, shp, rfl, hp, Function.update_self .., hk ▸ hq, hk ▸ hkey, Function.update_self ..⟩
    · obtain ⟨string', shp', rfl, hp', hshp', hne', hkey', hbook⟩ := h.entry a p' ha
      have hstring : string' ≠ string := fun he => hne (congrArg _ he)
      exact ⟨string', shp', rfl, hp', (Function.update_of_ne (hother hshp') ..).trans hshp', hne', hkey',
        (Function.update_of_ne hstring ..).trans hbook⟩
  · intro string' shp' hb
    rcases update_some.mp hb with ⟨rfl, he⟩ | ⟨hne, hb⟩
    · exact ⟨p, Function.update_self .., (Function.update_self ..).trans he⟩
    · obtain ⟨p', hp', hshp'⟩ := h.booked string' shp' hb
      have htext : Content.text string' ≠ .text string := fun he => hne (Content.text.inj he)
      exact ⟨p', (Function.update_of_ne htext ..).trans hp',
        (Function.update_of_ne (hother hshp') ..).trans hshp'⟩

theorem Linked.remove {table : HashMap Ptr} (h : Linked s pointers book)
    (hs : Sound (Mode.string.content (s.strings env)) Content.hashed table
      (Function.update pointers (.text string) none))
    (hl : Light table) (he : Entries (fun key p => ∃ shp, s.shps p = some shp ∧ shp.key = key) table.table)
    (hp : pointers (.text string) = some p) (hshp : s.shps p = some shp) :
    Linked (({ s with shpTable := table }.setKey shp.key none).setShp p none)
      (Function.update pointers (.text string) none) (Function.update book string none) := by
  obtain ⟨string₀, shp₀, htext, _, hshp₀, _, hkey₀, _⟩ := h.entry _ p hp
  cases hshp.symm.trans hshp₀
  cases htext
  have hentry (a : Content) (p' : Ptr) (ha : Function.update pointers (.text string) none a = some p') :
      ∃ string' shp', a = .text string' ∧ p' ≠ 0 ∧ p' ≠ p ∧ s.shps p' = some shp' ∧ shp'.key ≠ 0 ∧
        shp'.key ≠ shp.key ∧ s.keys shp'.key = some string' ∧
        Function.update book string none string' = some shp' := by
    obtain ⟨hne, ha⟩ := (update_some.mp ha).resolve_left (by simp)
    obtain ⟨string', shp', rfl, hp', hshp', hne', hkey', hbook⟩ := h.entry a p' ha
    have hstring : string' ≠ string := fun he => hne (congrArg _ he)
    refine ⟨string', shp', rfl, hp', mt (h.other ha rfl hp).mpr hstring, hshp', hne', ?_, hkey',
      (Function.update_of_ne hstring ..).trans hbook⟩
    intro hk
    cases hkey₀.symm.trans (hk ▸ hkey')
    exact hstring rfl
  apply Linked.intro env
  · apply hs.write
    intro i key p' hash hi
    obtain ⟨string', shp', _, _, _, hshp', hne', hk', hkey', _⟩ :=
      hentry _ p' ((hs.holds _ p').mpr ⟨i, key, hash, hi, rfl⟩)
    obtain ⟨shp₁, hshp₁, rfl⟩ := he i key p' hash hi
    cases hshp'.symm.trans hshp₁
    have hkept : ((({ s with shpTable := table } : State).setKey shp.key none).setShp p none).keys shp'.key =
        some string' := (Function.update_of_ne hk' ..).trans hkey'
    simp only [Mode.content, strings_key hne' hkept, strings_key hne' hkey']
  · exact hl
  · intro i key p' hash hi
    obtain ⟨string', shp', _, _, hpp, hshp', _⟩ :=
      hentry _ p' ((hs.holds _ p').mpr ⟨i, key, hash, hi, rfl⟩)
    obtain ⟨shp₁, hshp₁, hown⟩ := he i key p' hash hi
    exact ⟨shp₁, (Function.update_of_ne hpp ..).trans hshp₁, hown⟩
  · intro a p' ha
    obtain ⟨string', shp', ha', hp', hpp, hshp', hne', hk', hkey', hbook⟩ := hentry a p' ha
    exact ⟨string', shp', ha', hp', (Function.update_of_ne hpp ..).trans hshp', hne',
      (Function.update_of_ne hk' ..).trans hkey', hbook⟩
  · intro string' shp' hb
    obtain ⟨hne, hb⟩ := (update_some.mp hb).resolve_left (by simp)
    obtain ⟨p', hp', hshp'⟩ := h.booked string' shp' hb
    have htext : Content.text string' ≠ .text string := fun he => hne (Content.text.inj he)
    exact ⟨p', (Function.update_of_ne htext ..).trans hp',
      (Function.update_of_ne (mt (h.other hp' rfl hp).mpr hne) ..).trans hshp'⟩

end Links

section Books

def Taken (s : State) (addr : Nat) : Prop :=
  ∃ i < pageMax, addr = slotAddress i ∧ s.virtualMap i = true

/-- Each entry has a frame and a slot of its own, and what is marked in `virtual_map` are the slots of
entries. -/
structure Tidy (s : State) (book : CString → Option Shp) : Prop where
  valid : s.frames.Valid
  live : ∀ string shp, book string = some shp → (shp.physicalAddress, 1) ∈ s.frames.live
  frames : Exclusive Shp.physicalAddress book
  slots : Exclusive Shp.virtualAddress book
  marked : Marked Shp.virtualAddress book (Taken s)
  counted : ∀ string shp, book string = some shp → shp.refcount ≠ 0

structure MoreFrames (s s' : State) : Prop where
  valid : s.frames.Valid → s'.frames.Valid
  live : ∀ a ∈ s.frames.live, a ∈ s'.frames.live

theorem mapShp_ok (hi : i < pageMax) (hva : shp.virtualAddress = slotAddress i)
    (h : s.mapShp t shp = .ok s') : MoreFrames s s' ∧
      s' = { s with frames := s'.frames, dirs := s'.dirs } := by
  obtain ⟨⟨dir, frames⟩, hmap, heq⟩ := bind_ok.mp h
  cases heq
  have hlow : 0xfff00000 ≤ shp.virtualAddress ∧ shp.virtualAddress < 0x100000000 - 0xfff := by
    rw [hva]
    unfold pageMax at hi
    unfold slotAddress sharedStart pageSize
    omega
  obtain ⟨⟨new, hg⟩, _⟩ := mapZone_spec (by unfold pageSize; omega) (by omega)
    (by unfold pageSize; omega) hmap
  refine ⟨⟨hg.valid, fun a ha => ?_⟩, rfl⟩
  exact hg.live.mem_iff.mpr (List.mem_append_right _ ha)

theorem Tidy.grow (h : Tidy s book) (hf : MoreFrames s s') (hv : s'.virtualMap = s.virtualMap) :
    Tidy s' book where
  valid := hf.valid h.valid
  live string shp hb := hf.live _ (h.live string shp hb)
  frames := h.frames
  slots := h.slots
  marked := by
    unfold Taken
    rw [hv]
    exact h.marked
  counted := h.counted

theorem Tidy.slot (h : Tidy s book) (hb : book string = some shp) :
    ∃ i < pageMax, shp.virtualAddress = slotAddress i ∧ s.virtualMap i = true := h.marked.held hb

theorem Tidy.recount {n : BitVec 64} (h : Tidy s book) (hb : book string = some shp) (hn : n ≠ 0) :
    Tidy s (Function.update book string (some { shp with refcount := n })) where
  valid := h.valid
  live string' shp' hb' := by
    rcases update_some.mp hb' with ⟨_, he⟩ | ⟨_, hb'⟩
    · cases he
      exact h.live string shp hb
    · exact h.live string' shp' hb'
  frames := h.frames.replace hb rfl
  slots := h.slots.replace hb rfl
  marked := h.marked.replace hb rfl
  counted string' shp' hb' := by
    rcases update_some.mp hb' with ⟨_, he⟩ | ⟨_, hb'⟩
    · cases he
      exact hn
    · exact h.counted string' shp' hb'

theorem Tidy.insert {a : Nat} {frames : Frames} (h : Tidy s book) (hb : book string = none)
    (ha : (a, 1) ∉ s.frames.live) (hi : i < pageMax) (hfree : s.virtualMap i = false)
    (hl : frames.live = (a, 1) :: s.frames.live) (hv : frames.Valid) :
    Tidy { s with frames := frames, virtualMap := Function.update s.virtualMap i true }
      (Function.update book string (some ⟨a, slotAddress i, 1, q⟩)) where
  valid := hv
  live string' shp' hb' := by
    change (shp'.physicalAddress, 1) ∈ frames.live
    rw [hl]
    rcases update_some.mp hb' with ⟨_, he⟩ | ⟨_, hb'⟩
    · cases he
      exact List.mem_cons_self
    · exact List.mem_cons_of_mem _ (h.live string' shp' hb')
  frames := by
    apply h.frames.insert
    rintro string' shp' _ hb' rfl
    exact ha (h.live string' shp' hb')
  slots := by
    apply h.slots.insert
    intro string' shp' _ hb' hva
    obtain ⟨j, _, hj, htaken⟩ := h.slot hb'
    cases slot_inj (hj.symm.trans hva)
    cases hfree.symm.trans htaken
  marked := by
    intro addr
    rw [← h.marked.insert hb addr]
    constructor
    · rintro ⟨j, hj, rfl, htaken⟩
      by_cases hji : j = i
      · exact Or.inl (congrArg _ hji)
      · exact Or.inr ⟨j, hj, rfl, (Function.update_of_ne hji ..).symm.trans htaken⟩
    · rintro (rfl | ⟨j, hj, rfl, htaken⟩)
      · exact ⟨i, hi, rfl, Function.update_self ..⟩
      · refine ⟨j, hj, rfl, ?_⟩
        by_cases hji : j = i
        · subst hji
          exact Function.update_self ..
        · exact (Function.update_of_ne hji ..).trans htaken
  counted string' shp' hb' := by
    rcases update_some.mp hb' with ⟨_, he⟩ | ⟨_, hb'⟩
    · cases he
      exact (by decide : (1 : BitVec 64) ≠ 0)
    · exact h.counted string' shp' hb'

theorem Tidy.remove {frames : Frames} (h : Tidy s book) (hb : book string = some shp)
    (hfree : s.frames.free (shp.physicalAddress, 1) = .ok frames) (hl : s'.frames = frames)
    (hm : s'.virtualMap = (s.freeMemory shp.virtualAddress).virtualMap) :
    Tidy s' (Function.update book string none) where
  valid := by
    obtain ⟨hmem, hlive⟩ := free_ok hfree
    rw [hl]
    refine h.valid.part (l := [(shp.physicalAddress, 1)]) ?_
    rw [hlive]
    exact List.perm_cons_erase hmem
  live string' shp' hb' := by
    obtain ⟨hne, hb'⟩ := (update_some.mp hb').resolve_left nofun
    rw [hl, (free_ok hfree).2, h.valid.nodup.mem_erase_iff]
    refine ⟨fun he => hne ?_, h.live string' shp' hb'⟩
    exact h.frames string' string shp' shp hb' hb (congrArg Prod.fst he)
  frames := h.frames.remove string
  slots := h.slots.remove string
  marked := by
    intro addr
    rw [← h.marked.remove h.slots hb addr]
    obtain ⟨i, hi, hva, _⟩ := h.slot hb
    have hindex : (shp.virtualAddress - sharedStart) / pageSize = i := by
      rw [hva]
      unfold slotAddress pageSize
      omega
    unfold Taken
    rw [hm]
    unfold State.freeMemory
    rw [hindex, hva]
    constructor
    · rintro ⟨j, hj, rfl, htaken⟩
      have hji : j ≠ i := by
        rintro rfl
        cases (Function.update_self ..).symm.trans htaken
      exact ⟨fun he => hji (slot_inj he), j, hj, rfl, (Function.update_of_ne hji ..).symm.trans htaken⟩
    · rintro ⟨hne, j, hj, rfl, htaken⟩
      have hji : j ≠ i := fun he => hne (congrArg _ he)
      exact ⟨j, hj, rfl, (Function.update_of_ne hji ..).trans htaken⟩
  counted string' shp' hb' := h.counted string' shp' ((update_some.mp hb').resolve_left nofun).2

end Books

section Calls

def Ending.Continues : Ending → Prop
  | .returns _ => True
  | .nullDereferenced => True
  | .pageFault => True
  | _ => False

/-- `mem_alloc` does not answer with blocks that are live. -/
def Surroundings.Fresh (env : Surroundings) (s : State) : Prop :=
  ∀ p, env.keyAlloc = some p ∨ env.shpAlloc = some p → p ≠ 0 ∧ s.keys p = none ∧ s.shps p = none

inductive Booked (env : Surroundings) (s : State) (book : CString → Option Shp) :
    Call → Ending → (CString → Option Shp) → Prop where
  | same {c : Call} {ending : Ending} : (∀ addr, ending = .returns addr → addr = 0) →
      Booked env s book c ending book
  | created {key : Ptr} {string : CString} {shp : Shp} : s.read env key = some string →
      book string = none → Booked env s book (.create key) (.returns shp.virtualAddress)
        (Function.update book string (some shp))
  | acquired {key : Ptr} {string : CString} {shp : Shp} : s.read env key = some string →
      book string = some shp → Booked env s book (.acquire key) (.returns shp.virtualAddress)
        (Function.update book string (some { shp with refcount := shp.refcount + 1 }))
  | released {key : Ptr} {string : CString} {shp : Shp} : s.read env key = some string →
      book string = some shp → Booked env s book (.release key) (.returns 0)
        (Function.update book string (some { shp with refcount := shp.refcount - 1 }))
  | removed {key : Ptr} {string : CString} {shp : Shp} : s.read env key = some string →
      book string = some shp → Booked env s book (.release key) (.returns 0)
        (Function.update book string none)

/-- The state after a call has a book too, which follows from the one before. -/
def Follows (env : Surroundings) (s : State) (book : CString → Option Shp) (c : Call) (ending : Ending)
    (s' : State) : Prop :=
  ∃ pointers' book', Linked s' pointers' book' ∧ Tidy s' book' ∧ Booked env s book c ending book'

theorem unreadable_value {addr : Nat} : State.unreadable p ≠ .returns addr := by
  unfold State.unreadable
  split <;> exact nofun

theorem Linked.lookup (h : Linked s pointers book) (hr : s.read env key = some string)
    (hget : s.shpTable.hashGet (s.funcs env) key 0 = some p) (hp : p ≠ 0) (hshp : s.shps p = some shp) :
    pointers (.text string) = some p ∧ book string = some shp := by
  rw [h.hashGet hr, Option.some.injEq] at hget
  cases hs : pointers (.text string) with
  | none =>
    rw [hs] at hget
    exact absurd hget.symm hp
  | some p' =>
    rw [hs] at hget
    cases hget
    obtain ⟨string', shp', htext, _, hshp', _, _, hbook⟩ := h.entry _ _ hs
    cases htext
    cases hshp.symm.trans hshp'
    exact ⟨rfl, hbook⟩

theorem shmCreate_spec (h : Linked s pointers book) (ht : Tidy s book) (hf : env.Fresh s)
    (hk : env.keyAlloc.isSome) (hp : env.shpAlloc.isSome) (hc : s.shmCreate env t key = (ending, s'))
    (hgo : ending.Continues) (hserved : s'.shpTable.refused = false) :
    Follows env s book (.create key) ending s' := by
  obtain ⟨q, hq⟩ := Option.isSome_iff_exists.mp hk
  obtain ⟨p, hp⟩ := Option.isSome_iff_exists.mp hp
  obtain ⟨hq0, hqfree, _⟩ := hf q (Or.inl hq)
  obtain ⟨hp0, _, hpfree⟩ := hf p (Or.inr hp)
  unfold State.shmCreate at hc
  simp only [hq, hp] at hc
  split at hc
  · cases hc
    exact ⟨pointers, book, h, ht, .same fun _ he => absurd he unreadable_value⟩
  rename_i string hr
  rw [if_neg (read_ne_zero hr)] at hc
  have hcopied := h.setKey env hqfree string
  have hread : (s.setKey q (some string)).read env q = some string := by
    rw [State.read, if_neg hq0]
    simp [State.setKey]
  have hisset := hcopied.hashIsset hread
  simp only [hisset] at hc
  cases hs : pointers (.text string) with
  | some p' =>
    rw [hs, Option.isSome_some, if_pos rfl, if_pos (by decide)] at hc
    cases hc
    exact ⟨pointers, book, hcopied, ht.grow ⟨id, fun _ => id⟩ rfl, .same fun _ he => (Ending.returns.inj he).symm⟩
  | none =>
    have hnone : book string = none := by
      cases hb : book string with
      | none => rfl
      | some shp =>
        obtain ⟨p', hp', _⟩ := h.booked string shp hb
        cases hs.symm.trans hp'
    rw [hs] at hc hisset
    simp only [Option.isSome_none, Bool.false_eq_true, if_false, ne_eq, not_true] at hc hisset
    split at hc
    · cases hc
      exact hgo.elim
    rename_i a frames halloc
    have hlive := (alloc_ok halloc).1
    have hvalid : frames.Valid := (AddressSpaces.offer_valid ht.valid).alloc halloc
    have ha : (a, 1) ∉ s.frames.live := by
      have hnd := hvalid.nodup
      rw [hlive] at hnd
      exact (List.nodup_cons.mp hnd).1
    split at hc
    · cases hc
      refine ⟨pointers, book, ?_, ht.grow ⟨fun _ => hvalid, fun b hb => ?_⟩ rfl,
        .same fun _ he => (Ending.returns.inj he).symm⟩
      · exact ⟨hcopied.sound, hcopied.light, hcopied.entries, hcopied.entry, hcopied.booked⟩
      · change b ∈ frames.live
        rw [hlive]
        exact List.mem_cons_of_mem _ hb
    rename_i i hslot
    have hi : i < pageMax := List.mem_range.mp (List.mem_of_find?_eq_some hslot)
    have hfree : s.virtualMap i = false := by simpa [State.setKey] using List.find?_some hslot
    split at hc
    · cases hc
      exact hgo.elim
    rename_i s₁ hmap
    obtain ⟨hmore, hs₁⟩ := mapShp_ok hi rfl hmap
    have htable : s₁.shpTable = s.shpTable := by rw [hs₁]; rfl
    split at hc
    · cases hc
      exact hgo.elim
    rename_i r table hset
    cases hc
    have hfuncs : s₁.funcs env = (s.setKey q (some string)).funcs env := by
      rw [hs₁]
      rfl
    rw [htable, hfuncs] at hset
    obtain ⟨r', table', hset', hgood⟩ :=
      hashSet_spec env.heap (hcopied.sound env) hcopied.light (reads env _) q p
    cases hset.symm.trans hset'
    obtain ⟨_, hsound, hlight⟩ := hgood hserved
    have htext : Mode.string.content ((s.setKey q (some string)).strings env) q = .text string := by
      simp only [Mode.content, strings_read hread]
    rw [htext] at hsound
    have hentries := hashSet_entries (P := fun key p' =>
      (∃ shp, s.shps p' = some shp ∧ shp.key = key) ∨ (key = q ∧ p' = p))
      (fun i key p' hash hi => Or.inl (hcopied.entries i key p' hash hi)) (Or.inr ⟨rfl, rfl⟩) hisset hset
    have hlinked := hcopied.insert ⟨a, slotAddress i, 1, q⟩ hsound hlight hentries hp0 hpfree hq0
      (Function.update_self ..) rfl
    have htidy := ht.insert (q := q) hnone ha hi hfree hlive hvalid
    have hbooked : Booked env s book (.create key) (.returns (slotAddress i))
        (Function.update book string (some ⟨a, slotAddress i, 1, q⟩)) :=
      @Booked.created env s book key string ⟨a, slotAddress i, 1, q⟩ hr hnone
    refine ⟨_, _, hlinked.congr rfl ?_ ?_, htidy.grow ⟨hmore.valid, hmore.live⟩ ?_, hbooked⟩
    · rw [hs₁]
      rfl
    · rw [hs₁]
      rfl
    · rw [hs₁]
      rfl

theorem shmAcquire_spec (h : Linked s pointers book) (ht : Tidy s book)
    (hc : s.shmAcquire env t key = (ending, s')) (hgo : ending.Continues)
    (hcount : ∀ string shp, s.read env key = some string → book string = some shp → shp.refcount + 1 ≠ 0) :
    Follows env s book (.acquire key) ending s' := by
  unfold State.shmAcquire at hc
  split at hc
  · cases hc
    exact ⟨pointers, book, h, ht, .same fun _ he => absurd he unreadable_value⟩
  rename_i string hr
  split at hc
  · cases hc
    exact hgo.elim
  rename_i p hget
  split at hc
  · cases hc
    exact ⟨pointers, book, h, ht, .same fun _ he => (Ending.returns.inj he).symm⟩
  rename_i hp
  split at hc
  · cases hc
    exact hgo.elim
  rename_i shp hshp
  obtain ⟨hpointer, hbook⟩ := h.lookup hr hget hp hshp
  obtain ⟨i, hi, hva, _⟩ := ht.slot hbook
  dsimp only at hc
  split at hc
  · cases hc
    exact hgo.elim
  rename_i s₁ hmap
  cases hc
  obtain ⟨hmore, hs₁⟩ := mapShp_ok hi hva hmap
  have hlinked := h.setShp env { shp with refcount := shp.refcount + 1 } hpointer hshp rfl
  have htidy := ht.recount hbook (hcount string shp hr hbook)
  refine ⟨_, _, hlinked.congr ?_ ?_ ?_, htidy.grow ⟨fun hv => hmore.valid ?_, hmore.live⟩ ?_, .acquired hr hbook⟩
  · rw [hs₁]
  · rw [hs₁]
  · rw [hs₁]
  · exact AddressSpaces.offer_valid hv
  · rw [hs₁]
    rfl

theorem shmRelease_spec (h : Linked s pointers book) (ht : Tidy s book)
    (hc : s.shmRelease env t key = (ending, s')) (hgo : ending.Continues)
    (hserved : s'.shpTable.refused = false)
    (hpage : ∀ string shp, s.read env key = some string → book string = some shp → shp.refcount = 1 →
      ¬ State.InPage shp.virtualAddress key string) : Follows env s book (.release key) ending s' := by
  unfold State.shmRelease at hc
  split at hc
  · cases hc
    exact ⟨pointers, book, h, ht, .same fun _ he => absurd he unreadable_value⟩
  rename_i string hr
  split at hc
  · cases hc
    exact hgo.elim
  rename_i p hget
  split at hc
  · cases hc
    exact ⟨pointers, book, h, ht, .same fun _ he => (Ending.returns.inj he).symm⟩
  rename_i hp
  split at hc
  · cases hc
    exact hgo.elim
  rename_i shp hshp
  obtain ⟨hpointer, hbook⟩ := h.lookup hr hget hp hshp
  dsimp only at hc
  split at hc
  · rename_i hcount
    cases hc
    have hlinked := h.setShp env { shp with refcount := shp.refcount - 1 } hpointer hshp rfl
    have htidy := ht.recount hbook hcount
    exact ⟨_, _, hlinked.congr rfl rfl rfl, htidy.grow ⟨id, fun _ => id⟩ rfl, .released hr hbook⟩
  rename_i hcount
  have hone : shp.refcount = 1 := by
    rw [not_not] at hcount
    bv_omega
  rw [if_neg (hpage string shp hr hbook hone)] at hc
  split at hc
  · cases hc
    exact hgo.elim
  rename_i r table hdel
  split at hc
  · cases hc
    exact hgo.elim
  rename_i frames hfree
  cases hc
  obtain ⟨r', table', hdel', hgood⟩ := hashDel_spec env.heap (h.sound env) h.light (reads env s) key
  cases hdel.symm.trans hdel'
  obtain ⟨_, hsound, hlight⟩ := hgood hserved
  have htext : Mode.string.content (s.strings env) key = .text string := by
    simp only [Mode.content, strings_read hr]
  rw [htext] at hsound
  have hlinked := h.remove hsound hlight (hashDel_entries h.entries hdel) hpointer hshp
  refine ⟨_, _, hlinked.congr rfl ?_ rfl, ht.remove hbook hfree rfl rfl, .removed hr hbook⟩
  exact Function.update_idem ..

end Calls
end DominOS.Shm
