import DominOS.PageMaps

/-! paging.c word by word: directories and tables are arrays in the frames of the allocator.
Memory holds at any time the directory that the model of the tables says. -/
namespace DominOS.PageWords
open Paging Fallible

abbrev Words := Nat → BitVec 32

structure Ram where
  words : Words
  frames : Frames

variable {words words' : Words} {m m' : Ram} {dir dir' : Dir} {s s' : Frames} {flags : Flags}
  {a b dirAt pgdir i j n v virt virtEnd phys phyEnd : Nat} {early : EarlyMem} {M : PageMap}

def present : BitVec 32 := 0x1
def rw : BitVec 32 := 0x2
def us : BitVec 32 := 0x4

def load (a i : Nat) (words : Words) : BitVec 32 := words (a / 4 + i)

def store (a i : Nat) (x : BitVec 32) (words : Words) : Words :=
  Function.update words (a / 4 + i) x

def clear (a : Nat) (words : Words) : Words := fun k =>
  if a / 4 ≤ k ∧ k < a / 4 + 1024 then 0#32 else words k

def tableAt (dir i : Nat) (words : Words) : Nat := (load dir i words &&& 0xfffff000).toNat

def mapPage (dir : Nat) (virt phys flags : BitVec 32) (m : Ram) : Except Fault Ram := do
  let pd := pdIndex virt.toNat
  let pt := ptIndex virt.toNat
  let m ←
    if load dir pd m.words &&& present = 0#32 then do
      let (a, frames) ← m.frames.alloc 1
      .ok ⟨store dir pd (BitVec.ofNat 32 a ||| flags ||| present) (clear a m.words), frames⟩
    else .ok m
  .ok { m with words := store (tableAt dir pd m.words) pt (phys ||| flags ||| present) m.words }

def mapPages (dir : Nat) (flags : BitVec 32) : Nat → Nat → Nat → Ram → Except Fault Ram
  | 0, _, _, m => .ok m
  | turns + 1, virt, phys, m => do
    let m ← mapPage dir (BitVec.ofNat 32 virt) (BitVec.ofNat 32 phys) flags m
    mapPages dir flags turns (virt + pageSize) (phys + pageSize) m

def mapZone (dir virtStart virtEnd phyStart phyEnd : Nat) (flags : BitVec 32) (m : Ram) :
    Except Fault Ram :=
  if (virtEnd : Int) - virtStart ≠ phyEnd - phyStart then .error .panic
  else
    mapPages dir flags (turns (align virtStart) (alignUp virtEnd)) (align virtStart)
      (align phyStart) m

def unmapPage (dir virt : Nat) (words : Words) : Words :=
  if load dir (pdIndex virt) words &&& present = 0#32 then words
  else store (tableAt dir (pdIndex virt) words) (ptIndex virt) 0#32 words

def unmapPages (dir : Nat) : Nat → Nat → Words → Words
  | 0, _, words => words
  | turns + 1, virt, words => unmapPages dir turns (virt + pageSize) (unmapPage dir virt words)

def unmapZone (dir virtStart virtEnd : Nat) (words : Words) : Words :=
  unmapPages dir (turns (align virtStart) (alignUp virtEnd)) (align virtStart) words

def copyEntries (pgdir dir : Nat) : Nat → Words → Words
  | 0, words => words
  | n + 1, words =>
    let words := copyEntries pgdir dir n words
    store dir n (load pgdir n words) words

def pageDirectoryCreate (pgdir : Nat) (m : Ram) : Except Fault (Nat × Ram) := do
  let (dir, frames) ← m.frames.alloc 1
  .ok (dir, ⟨copyEntries pgdir dir 64 (clear dir m.words), frames⟩)

def isUserAddr (dir virt : Nat) (words : Words) : Bool :=
  if load dir (pdIndex virt) words &&& present = 0#32 then false
  else decide (load (tableAt dir (pdIndex virt) words) (ptIndex virt) words &&& us ≠ 0#32)

def pageEntry (dir virt : Nat) (words : Words) : BitVec 32 :=
  if load dir (pdIndex virt) words &&& present = 0#32 then 0#32
  else load (tableAt dir (pdIndex virt) words) (ptIndex virt) words

section Bits

def flagBits (flags : Flags) : BitVec 32 :=
  (if flags.rw then rw else 0#32) ||| (if flags.us then us else 0#32)

def entryBits (e : Entry) : BitVec 32 := BitVec.ofNat 32 e.addr ||| flagBits e.flags ||| present

def bits : Option Entry → BitVec 32
  | none => 0#32
  | some e => entryBits e

theorem flagBits_and {flags : Flags} : flagBits flags &&& 0xfffff000 = 0#32 ∧
    (flagBits flags &&& us ≠ 0#32 ↔ flags.us = true) ∧ flagBits flags &&& 0xfff = flagBits flags := by
  obtain ⟨rw, us⟩ := flags
  cases rw <;> cases us <;> decide

theorem and_or_and (x y z c : BitVec 32) :
    (x ||| y ||| z) &&& c = (x &&& c) ||| (y &&& c) ||| (z &&& c) := by
  rw [BitVec.and_or_distrib_right, BitVec.and_or_distrib_right]

theorem entryBits_present (e : Entry) : entryBits e &&& present ≠ 0#32 := by
  intro h
  have hbit := congrArg (BitVec.getLsbD · 0) h
  simp [entryBits, present] at hbit

theorem bits_eq_zero {e : Option Entry} : bits e &&& present = 0#32 ↔ e = none := by
  cases e with
  | none => exact ⟨fun _ => rfl, fun _ => rfl⟩
  | some e => exact ⟨fun h => absurd h (entryBits_present e), nofun⟩

theorem page_low (ha : a % 0x1000 = 0) : BitVec.ofNat 32 a &&& 0xfff = 0#32 := by
  refine BitVec.eq_of_toNat_eq ?_
  have hmod : a % 2 ^ 32 &&& 2 ^ 12 - 1 = a % 2 ^ 32 % 2 ^ 12 := Nat.and_two_pow_sub_one_eq_mod _ 12
  rw [BitVec.toNat_and, BitVec.toNat_ofNat]
  change a % 2 ^ 32 &&& 2 ^ 12 - 1 = 0
  rw [hmod]
  omega

theorem page_high (ha : a % 0x1000 = 0) : BitVec.ofNat 32 a &&& 0xfffff000 = BitVec.ofNat 32 a := by
  have hsplit : BitVec.ofNat 32 a &&& (0xfff ||| 0xfffff000) = BitVec.ofNat 32 a :=
    BitVec.and_allOnes
  rw [BitVec.and_or_distrib_left, page_low ha, BitVec.zero_or] at hsplit
  exact hsplit

theorem entryBits_addr {e : Entry} (ha : e.addr % 0x1000 = 0) (hlt : e.addr < 2 ^ 32) :
    (entryBits e &&& 0xfffff000).toNat = e.addr := by
  unfold entryBits
  rw [and_or_and, page_high ha, flagBits_and.1, BitVec.or_zero,
    show present &&& 0xfffff000 = 0#32 from by decide, BitVec.or_zero, BitVec.toNat_ofNat,
    Nat.mod_eq_of_lt hlt]

theorem entryBits_us {e : Entry} (ha : e.addr % 0x1000 = 0) :
    entryBits e &&& us ≠ 0#32 ↔ e.flags.us = true := by
  have hlow : BitVec.ofNat 32 e.addr &&& us = 0#32 := by
    rw [show us = 0xfff &&& us from by decide, ← BitVec.and_assoc, page_low ha, BitVec.zero_and]
  unfold entryBits
  rw [and_or_and, hlow, BitVec.zero_or, show present &&& us = 0#32 from by decide, BitVec.or_zero]
  exact flagBits_and.2.1

theorem entryBits_low {e : Entry} (ha : e.addr % 0x1000 = 0) :
    entryBits e &&& 0xfff = entryBits ⟨0, e.flags⟩ := by
  unfold entryBits
  rw [and_or_and, page_low ha, flagBits_and.2.2, show present &&& 0xfff = present from by decide]

theorem entryBits_ofNat : BitVec.ofNat 32 n ||| flagBits flags ||| present =
    entryBits ⟨n % 2 ^ 32, flags⟩ := by
  have hmod : BitVec.ofNat 32 (n % 2 ^ 32) = BitVec.ofNat 32 n :=
    BitVec.eq_of_toNat_eq (by rw [BitVec.toNat_ofNat, BitVec.toNat_ofNat, Nat.mod_mod])
  unfold entryBits
  rw [hmod]

end Bits

section Cells

theorem load_store (ha : a % 0x1000 = 0) (hb : b % 0x1000 = 0) (hi : i < 1024) (hj : j < 1024)
    {x : BitVec 32} :
    load b j (store a i x words) = if b = a ∧ j = i then x else load b j words := by
  unfold load store
  by_cases h : b = a ∧ j = i
  · rw [if_pos h, h.1, h.2]
    exact Function.update_self ..
  · rw [if_neg h]
    exact Function.update_of_ne (by omega) ..

theorem load_clear (ha : a % 0x1000 = 0) (hb : b % 0x1000 = 0) (hj : j < 1024) :
    load b j (clear a words) = if b = a then 0#32 else load b j words := by
  unfold load clear
  by_cases h : b = a
  · rw [if_pos h, h, if_pos ⟨Nat.le_add_right _ _, Nat.add_lt_add_left hj _⟩]
  · rw [if_neg h, if_neg (by omega)]

theorem load_copy (ha : a % 0x1000 = 0) (hp : pgdir % 0x1000 = 0) (hne : pgdir ≠ a)
    (hb : b % 0x1000 = 0) (hj : j < 1024) (hn : n ≤ 1024) :
    load b j (copyEntries pgdir a n words) =
      if b = a ∧ j < n then load pgdir j words else load b j words := by
  induction n generalizing b j with
  | zero => rw [if_neg fun h => Nat.not_lt_zero _ h.2]; rfl
  | succ n ih =>
    unfold copyEntries
    have hsource : load pgdir n (copyEntries pgdir a n words) = load pgdir n words := by
      rw [ih hp hn (Nat.le_of_succ_le hn), if_neg fun h => hne h.1]
    rw [load_store ha hb hn hj, hsource, ih hb hj (Nat.le_of_succ_le hn)]
    by_cases hcell : b = a ∧ j = n
    · rw [if_pos hcell, if_pos ⟨hcell.1, by omega⟩, hcell.2]
    · rw [if_neg hcell]
      by_cases hbefore : b = a ∧ j < n
      · rw [if_pos hbefore, if_pos ⟨hbefore.1, by omega⟩]
      · rw [if_neg hbefore, if_neg (by omega)]

end Cells

def tableEntry (table : Table) : Entry := ⟨table.addr, table.flags⟩

structure HoldsTable (words : Words) (dirAt : Nat) (table : Table) : Prop where
  aligned : table.addr % 0x1000 = 0
  lt : table.addr < 2 ^ 32
  ne : table.addr ≠ dirAt
  entry : ∀ j < 1024, load table.addr j words = bits (table.entries j)

/-- The words of memory hold a directory and its tables, each in a frame of its own. -/
structure Holds (words : Words) (dirAt : Nat) (dir : Dir) : Prop where
  aligned : dirAt % 0x1000 = 0
  entry : ∀ i < 1024, load dirAt i words = bits ((dir i).map tableEntry)
  table : ∀ i < 1024, ∀ table, dir i = some table → HoldsTable words dirAt table
  apart : ∀ i < 1024, ∀ j < 1024, ∀ t u, dir i = some t → dir j = some u → i ≠ j → t.addr ≠ u.addr

namespace Holds

theorem present_iff (h : Holds words dirAt dir) (hi : i < 1024) :
    load dirAt i words &&& present = 0#32 ↔ dir i = none := by
  rw [h.entry i hi, bits_eq_zero, Option.map_eq_none_iff]

theorem tableAt_eq {table : Table} (h : Holds words dirAt dir) (hi : i < 1024)
    (hd : dir i = some table) : tableAt dirAt i words = table.addr := by
  have ht := h.table i hi table hd
  unfold tableAt
  rw [h.entry i hi, hd]
  exact entryBits_addr (e := tableEntry table) ht.aligned ht.lt

/-- A table of the directory after a table has been replaced by one at the same place. -/
theorem replaced {table table' t : Table} (hd : dir i = some table)
    (ha : table'.addr = table.addr) (ht : Function.update dir i (some table') j = some t) :
    ∃ u, dir j = some u ∧ u.addr = t.addr := by
  by_cases hj : j = i
  · subst hj
    cases (Function.update_self ..).symm.trans ht
    exact ⟨table, hd, ha.symm⟩
  · exact ⟨t, (Function.update_of_ne hj ..).symm.trans ht, rfl⟩

theorem set {table : Table} (h : Holds words dirAt dir) (hi : i < 1024) (hj : j < 1024)
    (hd : dir i = some table) (e : Option Entry) :
    Holds (store table.addr j (bits e) words) dirAt
      (Function.update dir i (some (table.set j e))) where
  aligned := h.aligned
  entry k hk := by
    have ht := h.table i hi table hd
    rw [load_store ht.aligned h.aligned hj hk, if_neg fun h => ht.ne h.1.symm, h.entry k hk]
    by_cases hki : k = i
    · rw [hki, Function.update_self, hd]
      rfl
    · rw [Function.update_of_ne hki]
  table k hk u hu := by
    have ht := h.table i hi table hd
    by_cases hki : k = i
    · subst hki
      cases (Function.update_self ..).symm.trans hu
      refine ⟨ht.aligned, ht.lt, ht.ne, fun l hl => ?_⟩
      change load table.addr l _ = bits (Function.update table.entries j e l)
      rw [load_store ht.aligned ht.aligned hj hl]
      by_cases hlj : l = j
      · rw [if_pos ⟨rfl, hlj⟩, hlj, Function.update_self]
      · rw [if_neg fun h => hlj h.2, Function.update_of_ne hlj, ht.entry l hl]
    · have hdk := (Function.update_of_ne hki ..).symm.trans hu
      have hu' := h.table k hk u hdk
      refine ⟨hu'.aligned, hu'.lt, hu'.ne, fun l hl => ?_⟩
      rw [load_store ht.aligned hu'.aligned hj hl,
        if_neg fun hsame => h.apart k hk i hi u table hdk hd hki hsame.1, hu'.entry l hl]
  apart k hk l hl t u ht hu hne := by
    have haddr : (table.set j e).addr = table.addr := rfl
    obtain ⟨t₀, ht₀, hta⟩ := replaced hd haddr ht
    obtain ⟨u₀, hu₀, hua⟩ := replaced hd haddr hu
    rw [← hta, ← hua]
    exact h.apart k hk l hl t₀ u₀ ht₀ hu₀ hne

theorem new (flags : Flags) (h : Holds words dirAt dir) (hi : i < 1024) (hd : dir i = none)
    (ha : a % 0x1000 = 0) (hlt : a < 2 ^ 32) (hne : a ≠ dirAt)
    (hfree : ∀ k < 1024, ∀ t, dir k = some t → t.addr ≠ a) :
    Holds (store dirAt i (entryBits ⟨a, flags⟩) (clear a words)) dirAt
      (Function.update dir i (some ⟨a, flags, fun _ => none⟩)) where
  aligned := h.aligned
  entry k hk := by
    rw [load_store h.aligned h.aligned hi hk]
    by_cases hki : k = i
    · rw [if_pos ⟨rfl, hki⟩, hki, Function.update_self]
      rfl
    · rw [if_neg fun h => hki h.2, Function.update_of_ne hki, load_clear ha h.aligned hk,
        if_neg hne.symm, h.entry k hk]
  table k hk u hu := by
    by_cases hki : k = i
    · subst hki
      cases (Function.update_self ..).symm.trans hu
      refine ⟨ha, hlt, hne, fun l hl => ?_⟩
      rw [load_store h.aligned ha hi hl, if_neg fun h => hne h.1, load_clear ha ha hl, if_pos rfl]
      rfl
    · have hdk := (Function.update_of_ne hki ..).symm.trans hu
      have hu' := h.table k hk u hdk
      refine ⟨hu'.aligned, hu'.lt, hu'.ne, fun l hl => ?_⟩
      rw [load_store h.aligned hu'.aligned hi hl, if_neg fun h => hu'.ne h.1,
        load_clear ha hu'.aligned hl, if_neg (hfree k hk u hdk), hu'.entry l hl]
  apart k hk l hl t u ht hu hkl := by
    by_cases hki : k = i
    · subst hki
      cases (Function.update_self ..).symm.trans ht
      exact (hfree l hl u ((Function.update_of_ne (Ne.symm hkl) ..).symm.trans hu)).symm
    · have hdk := (Function.update_of_ne hki ..).symm.trans ht
      by_cases hli : l = i
      · subst hli
        cases (Function.update_self ..).symm.trans hu
        exact hfree k hk t hdk
      · exact h.apart k hk l hl t u hdk ((Function.update_of_ne hli ..).symm.trans hu) hkl

theorem pageEntry_eq (h : Holds words dirAt dir) (hv : v < 2 ^ 32) :
    pageEntry dirAt v words = bits (Dir.entry dir v) := by
  have hi : pdIndex v < 1024 := by
    rw [pdIndex_eq]
    omega
  have hj : ptIndex v < 1024 := by
    rw [ptIndex_eq]
    omega
  unfold pageEntry Dir.entry
  cases hd : dir (pdIndex v) with
  | none =>
    rw [if_pos ((h.present_iff hi).mpr hd)]
    rfl
  | some table =>
    have hsome : dir (pdIndex v) ≠ none := hd ▸ Option.some_ne_none table
    rw [if_neg (mt (h.present_iff hi).mp hsome), h.tableAt_eq hi hd,
      (h.table _ hi table hd).entry _ hj]
    rfl

end Holds

theorem isUserAddr_eq : isUserAddr dirAt v words = decide (pageEntry dirAt v words &&& us ≠ 0#32) := by
  unfold isUserAddr pageEntry
  split
  · rw [BitVec.zero_and, decide_eq_false (not_not_intro rfl)]
  · rfl

section Refinement

/-- The frames of a directory are its own: allocated, or below those that the allocator has. -/
structure Owned (s : Frames) (dirAt : Nat) (dir : Dir) : Prop where
  root : (dirAt, 1) ∈ s.live
  table : ∀ i < 1024, ∀ table, dir i = some table →
    (table.addr, 1) ∈ s.live ∨ table.addr < 0x4000000

theorem Owned.fresh (h : Owned s dirAt dir) (ha : s.Admits a 1) :
    a ≠ dirAt ∧ ∀ i < 1024, ∀ t, dir i = some t → t.addr ≠ a := by
  have hne : ∀ b, (b, 1) ∈ s.live → b ≠ a := by
    rintro b hb rfl
    exact (ha.2.2.2 _ hb).ne Nat.one_pos rfl
  refine ⟨(hne dirAt h.root).symm, fun i hi t ht => ?_⟩
  rcases h.table i hi t ht with hl | hlow
  · exact hne t.addr hl
  · have := ha.2.1
    omega

theorem mapPage_refines (hh : Holds words dirAt dir) (ho : Owned s dirAt dir)
    (h : Paging.mapPage (virt % 2 ^ 32) (phys % 2 ^ 32) flags dir s = .ok (dir', s')) :
    ∃ words', mapPage dirAt (BitVec.ofNat 32 virt) (BitVec.ofNat 32 phys) (flagBits flags)
        ⟨words, s⟩ = .ok ⟨words', s'⟩ ∧ Holds words' dirAt dir' ∧ Owned s' dirAt dir' := by
  have hlt : virt % 2 ^ 32 < 2 ^ 32 := Nat.mod_lt _ (by decide)
  have hi : pdIndex (virt % 2 ^ 32) < 1024 := by
    rw [pdIndex_eq]
    omega
  have hj : ptIndex (virt % 2 ^ 32) < 1024 := by
    rw [ptIndex_eq]
    omega
  unfold Paging.mapPage at h
  unfold mapPage
  simp only [BitVec.toNat_ofNat, entryBits_ofNat]
  cases hd : dir (pdIndex (virt % 2 ^ 32)) with
  | some table =>
    rw [hd] at h
    cases h
    have hsome : dir (pdIndex (virt % 2 ^ 32)) ≠ none := hd ▸ Option.some_ne_none table
    rw [if_neg (mt (hh.present_iff hi).mp hsome), ok_bind]
    refine ⟨_, rfl, ?_, ho.root, fun k hk t ht => ?_⟩
    · rw [hh.tableAt_eq hi hd]
      exact hh.set hi hj hd (some _)
    · have haddr : (table.set (ptIndex (virt % 2 ^ 32)) (some ⟨phys % 2 ^ 32, flags⟩)).addr =
          table.addr := rfl
      obtain ⟨u, hu, hua⟩ := Holds.replaced hd haddr ht
      exact hua ▸ ho.table k hk u hu
  | none =>
    rw [hd] at h
    obtain ⟨⟨a, s₁⟩, halloc, hrest⟩ := bind_ok.mp h
    cases hrest
    obtain ⟨hlive, hadm, _⟩ := alloc_ok halloc
    obtain ⟨hne, hfree⟩ := ho.fresh hadm
    have hhigh : a < 2 ^ 32 := by
      have := hadm.2.2.1
      omega
    have hnew := hh.new flags hi hd hadm.1 hhigh hne hfree
    have hself : Function.update dir (pdIndex (virt % 2 ^ 32)) (some ⟨a, flags, fun _ => none⟩)
        (pdIndex (virt % 2 ^ 32)) = some ⟨a, flags, fun _ => none⟩ := Function.update_self ..
    rw [if_pos ((hh.present_iff hi).mpr hd), halloc]
    simp only [ok_bind, Nat.mod_eq_of_lt hhigh]
    rw [hnew.tableAt_eq hi hself]
    have hset := hnew.set hi hj hself (some ⟨phys % 2 ^ 32, flags⟩)
    rw [Function.update_idem] at hset
    refine ⟨_, rfl, hset, hlive ▸ List.mem_cons_of_mem _ ho.root, fun k hk t ht => ?_⟩
    rw [hlive]
    by_cases hki : k = pdIndex (virt % 2 ^ 32)
    · subst hki
      cases (Function.update_self ..).symm.trans ht
      exact Or.inl List.mem_cons_self
    · exact (ho.table k hk t ((Function.update_of_ne hki ..).symm.trans ht)).imp_left
        (List.mem_cons_of_mem _)

theorem mapPages_refines (hh : Holds words dirAt dir) (ho : Owned s dirAt dir)
    (h : Paging.mapPages flags n virt phys dir s = .ok (dir', s')) :
    ∃ words', mapPages dirAt (flagBits flags) n virt phys ⟨words, s⟩ = .ok ⟨words', s'⟩ ∧
      Holds words' dirAt dir' ∧ Owned s' dirAt dir' := by
  induction n generalizing virt phys dir s words with
  | zero =>
    cases h
    exact ⟨words, rfl, hh, ho⟩
  | succ n ih =>
    obtain ⟨⟨dir₁, s₁⟩, hpage, hrest⟩ := bind_ok.mp h
    obtain ⟨words₁, hrun, hh₁, ho₁⟩ := mapPage_refines hh ho hpage
    obtain ⟨words', hrun', hh', ho'⟩ := ih hh₁ ho₁ hrest
    refine ⟨words', ?_, hh', ho'⟩
    unfold mapPages
    rw [hrun, ok_bind]
    exact hrun'

theorem mapZone_refines (hh : Holds words dirAt dir) (ho : Owned s dirAt dir)
    (h : Paging.mapZone virt virtEnd phys phyEnd flags dir s = .ok (dir', s')) :
    ∃ words', mapZone dirAt virt virtEnd phys phyEnd (flagBits flags) ⟨words, s⟩ =
        .ok ⟨words', s'⟩ ∧ Holds words' dirAt dir' ∧ Owned s' dirAt dir' := by
  unfold Paging.mapZone at h
  unfold mapZone
  split at h
  · cases h
  · rename_i hsame
    rw [if_neg hsame]
    exact mapPages_refines hh ho h

theorem unmapPage_refines (hh : Holds words dirAt dir) (ho : Owned s dirAt dir)
    (hv : virt < 2 ^ 32) : Holds (unmapPage dirAt virt words) dirAt (Paging.unmapPage virt dir) ∧
      Owned s dirAt (Paging.unmapPage virt dir) := by
  have hi : pdIndex virt < 1024 := by
    rw [pdIndex_eq]
    omega
  have hj : ptIndex virt < 1024 := by
    rw [ptIndex_eq]
    omega
  unfold unmapPage Paging.unmapPage
  cases hd : dir (pdIndex virt) with
  | none =>
    rw [if_pos ((hh.present_iff hi).mpr hd)]
    exact ⟨hh, ho⟩
  | some table =>
    have hsome : dir (pdIndex virt) ≠ none := hd ▸ Option.some_ne_none table
    rw [if_neg (mt (hh.present_iff hi).mp hsome), hh.tableAt_eq hi hd]
    refine ⟨hh.set hi hj hd none, ho.root, fun k hk t ht => ?_⟩
    have haddr : (table.set (ptIndex virt) none).addr = table.addr := rfl
    obtain ⟨u, hu, hua⟩ := Holds.replaced hd haddr ht
    exact hua ▸ ho.table k hk u hu

theorem unmapPages_refines (hh : Holds words dirAt dir) (ho : Owned s dirAt dir)
    (hv : ∀ u, Within virt n u → u < 2 ^ 32) :
    Holds (unmapPages dirAt n virt words) dirAt (Paging.unmapPages n virt dir) ∧
      Owned s dirAt (Paging.unmapPages n virt dir) := by
  induction n generalizing virt dir words with
  | zero => exact ⟨hh, ho⟩
  | succ n ih =>
    have hfirst : Within virt (n + 1) virt := ⟨le_rfl, by omega⟩
    obtain ⟨hh₁, ho₁⟩ := unmapPage_refines hh ho (hv virt hfirst)
    refine ih hh₁ ho₁ fun u hu => hv u ?_
    unfold Within pageSize at hu
    unfold Within
    omega

theorem unmapZone_refines (hh : Holds words dirAt dir) (ho : Owned s dirAt dir)
    (hle : virt ≤ virtEnd) (hhigh : virtEnd < 2 ^ 32) :
    Holds (unmapZone dirAt virt virtEnd words) dirAt (Paging.unmapZone virt virtEnd dir) ∧
      Owned s dirAt (Paging.unmapZone virt virtEnd dir) := by
  have hpages := turns_pages (Nat.div_le_div_right (c := 0x1000) hle)
  refine unmapPages_refines hh ho fun u hu => ?_
  unfold Within at hu
  rw [hpages, align_page] at hu
  omega

end Refinement

section Create

structure Booted (words : Words) (pgdir : Nat) (early : EarlyMem) : Prop where
  pgdirAligned : pgdir % 0x1000 = 0
  pgdirLow : pgdir < 0x4000000
  pgtabAligned : early.pgtab % 0x1000 = 0
  pgtabLow : early.pgtab + 64 * 0x1000 ≤ 0x4000000
  entry : ∀ i < 64, load pgdir i words = entryBits (tableEntry (early.table i))
  table : ∀ i < 64, ∀ j < 1024,
    load (early.table i).addr j words = bits ((early.table i).entries j)

theorem early_dir {t : Table} (h : early.dir i = some t) : i < 64 ∧ t = early.table i := by
  unfold EarlyMem.dir at h
  split at h
  · rename_i hi
    exact ⟨hi, (Option.some.inj h).symm⟩
  · cases h

theorem create_holds (hb : Booted m.words pgdir early)
    (h : pageDirectoryCreate pgdir m = .ok (dirAt, m')) :
    Holds m'.words dirAt early.dir ∧ Owned m'.frames dirAt early.dir := by
  obtain ⟨⟨a, s⟩, halloc, hrest⟩ := bind_ok.mp h
  cases hrest
  obtain ⟨hlive, ⟨hal, hlow, hhigh, _⟩, _⟩ := alloc_ok halloc
  have htable (i : Nat) (hi : i < 64) : (early.table i).addr % 0x1000 = 0 ∧
      (early.table i).addr < 0x4000000 := by
    have hal := hb.pgtabAligned
    have hlow := hb.pgtabLow
    unfold EarlyMem.table
    simp only
    omega
  have hpgdir : pgdir ≠ dirAt := by
    have := hb.pgdirLow
    omega
  have hload {b j : Nat} (hba : b % 0x1000 = 0) (hblow : b < 0x4000000) (hj : j < 1024) :
      load b j (copyEntries pgdir dirAt 64 (clear dirAt m.words)) = load b j m.words := by
    have hne : b ≠ dirAt := by omega
    rw [load_copy hal hb.pgdirAligned hpgdir hba hj (by decide), if_neg fun h => hne h.1,
      load_clear hal hba hj, if_neg hne]
  refine ⟨⟨hal, fun i hi => ?_, fun i hi t ht => ?_, fun i hi j hj t u ht hu hne => ?_⟩,
    hlive ▸ List.mem_cons_self, fun i hi t ht => ?_⟩
  · rw [load_copy hal hb.pgdirAligned hpgdir hal hi (by decide)]
    unfold EarlyMem.dir
    by_cases hi' : i < 64
    · rw [if_pos ⟨rfl, hi'⟩, load_clear hal hb.pgdirAligned hi, if_neg hpgdir, hb.entry i hi',
        if_pos hi']
      rfl
    · rw [if_neg fun h => hi' h.2, load_clear hal hal hi, if_pos rfl, if_neg hi']
      rfl
  · obtain ⟨hi', rfl⟩ := early_dir ht
    obtain ⟨hta, htl⟩ := htable i hi'
    refine ⟨hta, by omega, by omega, fun j hj => ?_⟩
    rw [hload hta htl hj]
    exact hb.table i hi' j hj
  · obtain ⟨_, rfl⟩ := early_dir ht
    obtain ⟨_, rfl⟩ := early_dir hu
    unfold EarlyMem.table
    simp only
    omega
  · obtain ⟨hi', rfl⟩ := early_dir ht
    exact Or.inr (htable i hi').2

end Create

/-- A directory that has been made by `page_directory_create`, after zones have been mapped and
unmapped in it; `M` says what they were. -/
inductive Zoned (pgdir : Nat) (early : EarlyMem) : Ram → Nat → PageMap → Prop
  | create {m m' : Ram} {dirAt : Nat} : Booted m.words pgdir early →
      pageDirectoryCreate pgdir m = .ok (dirAt, m') →
      Zoned pgdir early m' dirAt (Dir.pages early.dir)
  | map {m m' : Ram} {dirAt virt virtEnd phys phyEnd : Nat} {M : PageMap} {flags : Flags}
      {offers : List Nat} : Zoned pgdir early m dirAt M → Zone virt virtEnd phys phyEnd →
      phyEnd < 2 ^ 32 → Supplied (m.frames.offer offers) M virt virtEnd →
      mapZone dirAt virt virtEnd phys phyEnd (flagBits flags)
        { m with frames := m.frames.offer offers } = .ok m' →
      Zoned pgdir early m' dirAt (M.mapZone virt virtEnd phys flags)
  | unmap {m : Ram} {dirAt virt virtEnd : Nat} {M : PageMap} : Zoned pgdir early m dirAt M →
      virt ≤ virtEnd → 0x10000000 ≤ virt → virtEnd < 2 ^ 32 →
      Zoned pgdir early { m with words := unmapZone dirAt virt virtEnd m.words } dirAt
        (M.unmapZone virt virtEnd)

/-- Memory says of every page what `M` says, `is_user_addr` says whether `M` lets user code have
it, and the flags of a table are those that it was made with. -/
structure Exact (m : Ram) (dirAt : Nat) (M : PageMap) : Prop where
  entry : ∀ v < 2 ^ 32, pageEntry dirAt v m.words = bits (M.page (v / 0x1000))
  table : ∀ i < 1024, load dirAt i m.words &&& 0xfff = bits ((M.table i).map fun f => ⟨0, f⟩)
  user : ∀ v < 2 ^ 32, isUserAddr dirAt v m.words = true ↔
    ∃ e, M.page (v / 0x1000) = some e ∧ e.flags.us = true

/-- Behind every such directory there is one of tables, and its entries are of whole pages. -/
structure Behind (m : Ram) (dirAt : Nat) (M : PageMap) (dir : Dir) : Prop where
  holds : Holds m.words dirAt dir
  owned : Owned m.frames dirAt dir
  pages : Dir.pages dir = M
  aligned : ∀ p e, M.page p = some e → e.addr % 0x1000 = 0

theorem Behind.exact (h : Behind m dirAt M dir) : Exact m dirAt M := by
  have hentry : ∀ v < 2 ^ 32, pageEntry dirAt v m.words = bits (M.page (v / 0x1000)) := by
    intro v hv
    rw [h.holds.pageEntry_eq hv, ← Dir.pages_page, h.pages]
  refine ⟨hentry, fun i hi => ?_, fun v hv => ?_⟩
  · rw [h.holds.entry i hi, ← h.pages, Dir.pages_table, Option.map_map]
    cases hd : dir i with
    | none => exact BitVec.zero_and
    | some t => exact entryBits_low (e := tableEntry t) (h.holds.table i hi t hd).aligned
  rw [isUserAddr_eq, hentry v hv, decide_eq_true_iff]
  cases hp : M.page (v / 0x1000) with
  | none => exact ⟨fun h => absurd BitVec.zero_and h, fun ⟨_, h, _⟩ => nomatch h⟩
  | some e =>
    refine (entryBits_us (h.aligned _ e hp)).trans ⟨fun hus => ⟨e, rfl, hus⟩, ?_⟩
    rintro ⟨e', he', hus⟩
    cases he'
    exact hus

theorem Behind.map (flags : Flags) {offers : List Nat} (h : Behind m dirAt M dir)
    (hz : Zone virt virtEnd phys phyEnd) (hs : Supplied (m.frames.offer offers) M virt virtEnd) :
    ∃ m' dir', mapZone dirAt virt virtEnd phys phyEnd (flagBits flags)
        { m with frames := m.frames.offer offers } = .ok m' ∧
      Behind m' dirAt (M.mapZone virt virtEnd phys flags) dir' := by
  obtain ⟨hh, ho, hp, ha⟩ := h
  subst hp
  obtain ⟨dir', s', hrun⟩ := mapZone_total flags hz hs
  have hpages := mapZone_pages hz.le hz.low hz.high hrun
  have hoffered : Owned (m.frames.offer offers) dirAt dir := ⟨ho.root, ho.table⟩
  obtain ⟨words', hrun', hh', ho'⟩ := mapZone_refines hh hoffered hrun
  refine ⟨_, dir', hrun', hh', ho', hpages, fun p e he => ?_⟩
  unfold PageMap.mapZone at he
  simp only at he
  split at he
  · cases he
    rw [align_page]
    simp only
    omega
  · exact ha p e he

theorem Behind.unmap (h : Behind m dirAt M dir) (hle : virt ≤ virtEnd) (hhigh : virtEnd < 2 ^ 32) :
    Behind { m with words := unmapZone dirAt virt virtEnd m.words } dirAt
      (M.unmapZone virt virtEnd) (Paging.unmapZone virt virtEnd dir) := by
  obtain ⟨hh, ho⟩ := unmapZone_refines h.holds h.owned hle hhigh
  refine ⟨hh, ho, ?_, fun p e he => ?_⟩
  · rw [unmapZone_pages hle, h.pages]
  · unfold PageMap.unmapZone at he
    simp only at he
    split at he
    · cases he
    · exact h.aligned p e he

theorem Zoned.behind (h : Zoned pgdir early m dirAt M) : ∃ dir, Behind m dirAt M dir := by
  induction h with
  | create hb hrun =>
    obtain ⟨hh, ho⟩ := create_holds hb hrun
    refine ⟨_, hh, ho, rfl, fun p e he => ?_⟩
    unfold Dir.pages Dir.entry at he
    obtain ⟨t, ht, he⟩ := Option.bind_eq_some_iff.mp he
    obtain ⟨_, rfl⟩ := early_dir ht
    unfold EarlyMem.table at he
    simp only at he
    split at he
    · cases he
    · cases he
      exact Nat.mul_mod_left _ _
  | map _ hz _ hs hrun ih =>
    obtain ⟨dir, hd⟩ := ih
    obtain ⟨m', dir', hrun', hd'⟩ := hd.map _ hz hs
    cases hrun.symm.trans hrun'
    exact ⟨dir', hd'⟩
  | unmap _ hle _ hhigh ih =>
    obtain ⟨dir, hd⟩ := ih
    exact ⟨_, hd.unmap hle hhigh⟩

/-- `map_zone` and `unmap_zone` are exact, after any zones before. A physical address has 32
bits. -/
theorem zones_exact (h : Zoned pgdir early m dirAt M) : Exact m dirAt M ∧
    (∀ virt virtEnd phys phyEnd flags offers, Zone virt virtEnd phys phyEnd → phyEnd < 2 ^ 32 →
      Supplied (m.frames.offer offers) M virt virtEnd →
      ∃ m', mapZone dirAt virt virtEnd phys phyEnd (flagBits flags)
          { m with frames := m.frames.offer offers } = .ok m' ∧
        Zoned pgdir early m' dirAt (M.mapZone virt virtEnd phys flags) ∧
        Exact m' dirAt (M.mapZone virt virtEnd phys flags)) ∧
    ∀ virt virtEnd, virt ≤ virtEnd → 0x10000000 ≤ virt → virtEnd < 2 ^ 32 →
      Exact { m with words := unmapZone dirAt virt virtEnd m.words } dirAt
        (M.unmapZone virt virtEnd) := by
  obtain ⟨dir, hd⟩ := h.behind
  refine ⟨hd.exact, fun virt virtEnd phys phyEnd flags offers hz hp hs => ?_,
    fun virt virtEnd hle _ hhigh => (hd.unmap hle hhigh).exact⟩
  obtain ⟨m', dir', hrun, hd'⟩ := hd.map flags hz hs
  exact ⟨m', hrun, .map h hz hp hs hrun, hd'.exact⟩

/-- Memory that early_mm.c has filled in, and nothing else. -/
def earlyWords (pgdir : Nat) (early : EarlyMem) : Words := fun k =>
  if pgdir / 4 ≤ k ∧ k < pgdir / 4 + 64 then entryBits (tableEntry (early.table (k - pgdir / 4)))
  else if early.pgtab / 4 ≤ k ∧ k < early.pgtab / 4 + 0x10000 then
    bits ((early.table ((k - early.pgtab / 4) / 1024)).entries ((k - early.pgtab / 4) % 1024))
  else 0#32

theorem earlyWords_booted (hd : pgdir % 0x1000 = 0) (ht : early.pgtab % 0x1000 = 0)
    (happart : early.pgtab + 64 * 0x1000 ≤ pgdir) (hlow : pgdir < 0x4000000) :
    Booted (earlyWords pgdir early) pgdir early := by
  refine ⟨hd, hlow, ht, by omega, fun i hi => ?_, fun i hi j hj => ?_⟩
  · unfold load earlyWords
    rw [if_pos ⟨Nat.le_add_right _ _, Nat.add_lt_add_left hi _⟩, Nat.add_sub_cancel_left]
  · have haddr : (early.table i).addr / 4 + j = early.pgtab / 4 + (i * 1024 + j) := by
      unfold EarlyMem.table
      simp only
      omega
    unfold load earlyWords
    rw [haddr, if_neg (by omega), if_pos ⟨Nat.le_add_right _ _, by omega⟩, Nat.add_sub_cancel_left,
      show (i * 1024 + j) / 1024 = i by omega, show (i * 1024 + j) % 1024 = j by omega]

def anEarlyMem : EarlyMem := ⟨0x100000, fun _ => true⟩

def firstRam : Ram where
  words := copyEntries 0x140000 0x4000000 64 (clear 0x4000000 (earlyWords 0x140000 anEarlyMem))
  frames := ⟨[(0x4000000, 1)], []⟩

theorem firstRam_zoned :
    Zoned 0x140000 anEarlyMem firstRam 0x4000000 (Dir.pages anEarlyMem.dir) := by
  have hb : Booted (earlyWords 0x140000 anEarlyMem) 0x140000 anEarlyMem :=
    earlyWords_booted (by decide) (by decide) (by decide) (by decide)
  have hrun : pageDirectoryCreate 0x140000 ⟨earlyWords 0x140000 anEarlyMem, ⟨[], [0x4000000]⟩⟩ =
      .ok (0x4000000, firstRam) := rfl
  exact .create hb hrun

theorem firstRam_supplied {offers : List Nat} (hf : (firstRam.frames.offer offers).Fresh)
    (hcard : (Finset.Icc (pdIndex virt) (pdIndex virtEnd)).card ≤ offers.length) :
    Supplied (firstRam.frames.offer offers) M virt virtEnd :=
  ⟨hf, (Finset.card_filter_le _ _).trans hcard⟩

/-- Three pages in two tables, of which the one in the middle is unmapped again. -/
theorem zones_exact_three : ∃ m, mapZone 0x4000000 0x403fe000 0x40400fff 0x5000000 0x5002fff
      (flagBits ⟨true, true⟩) { firstRam with frames := firstRam.frames.offer [0x4001000, 0x4002000] } =
        .ok m ∧
    isUserAddr 0x4000000 0x403ff123 m.words = true ∧
    isUserAddr 0x4000000 0x403ff123 (unmapZone 0x4000000 0x403ff000 0x403fffff m.words) = false ∧
    pageEntry 0x4000000 0x40400123 (unmapZone 0x4000000 0x403ff000 0x403fffff m.words) = 0x5002007 := by
  obtain ⟨m, hrun, hz, hexact⟩ := (zones_exact firstRam_zoned).2.1 0x403fe000 0x40400fff 0x5000000
    0x5002fff ⟨true, true⟩ [0x4001000, 0x4002000] ⟨by decide, by decide, by decide, by decide⟩
    (by decide) (firstRam_supplied ⟨by decide, by decide⟩ (by decide))
  have hunmap := (zones_exact hz).2.2 0x403ff000 0x403fffff (by decide) (by decide) (by decide)
  refine ⟨m, hrun, (hexact.user _ (by decide)).mpr ⟨_, PageMap.mapZone_page _ _ _ (by decide), rfl⟩,
    Bool.eq_false_iff.mpr fun huser => ?_, ?_⟩
  · obtain ⟨e, he, _⟩ := (hunmap.user _ (by decide)).mp huser
    cases he
  · refine (hunmap.entry _ (by decide)).trans ?_
    have hpage : (((Dir.pages anEarlyMem.dir).mapZone 0x403fe000 0x40400fff 0x5000000
        ⟨true, true⟩).unmapZone 0x403ff000 0x403fffff).page (0x40400123 / 0x1000) =
        some ⟨0x5002000, ⟨true, true⟩⟩ :=
      (PageMap.unmapZone_page _ (by decide)).trans (PageMap.mapZone_page _ _ _ (by decide))
    rw [hpage]
    decide

/-- The second page of a zone that ends with the physical addresses leads to address 0. -/
theorem zone_end_wraps : ∃ m m' dirAt M offers, Zoned 0x140000 anEarlyMem m dirAt M ∧
    Zone 0x10000fff 0x10001000 0xfffff000 0xfffff001 ∧ 0xfffff001 < 2 ^ 32 ∧
    Supplied (m.frames.offer offers) M 0x10000fff 0x10001000 ∧
    mapZone dirAt 0x10000fff 0x10001000 0xfffff000 0xfffff001 (flagBits ⟨true, true⟩)
      { m with frames := m.frames.offer offers } = .ok m' ∧
    (pageEntry dirAt 0x10001000 m'.words &&& 0xfffff000).toNat = 0 ∧
    align 0xfffff000 + 1 * 0x1000 ≠ 0 := by
  have hz : Zone 0x10000fff 0x10001000 0xfffff000 0xfffff001 :=
    ⟨by decide, by decide, by decide, by decide⟩
  have hs : Supplied (firstRam.frames.offer [0x4001000]) (Dir.pages anEarlyMem.dir) 0x10000fff
      0x10001000 := firstRam_supplied ⟨by decide, by decide⟩ (by decide)
  obtain ⟨dir, hd⟩ := firstRam_zoned.behind
  obtain ⟨m', dir', hrun, hd'⟩ := hd.map ⟨true, true⟩ hz hs
  refine ⟨firstRam, m', _, _, _, firstRam_zoned, hz, by decide, hs, hrun, ?_, by decide⟩
  rw [hd'.exact.entry _ (by decide)]
  have hpage : ((Dir.pages anEarlyMem.dir).mapZone 0x10000fff 0x10001000 0xfffff000
      ⟨true, true⟩).page (0x10001000 / 0x1000) = some ⟨0, ⟨true, true⟩⟩ :=
    PageMap.mapZone_page _ _ _ (by decide)
  rw [hpage]
  decide

end DominOS.PageWords
