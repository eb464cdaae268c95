import DominOS.PageWords

/-! early_mm.c: the check of the linked kernel, and the page tables that it boots with. -/
namespace DominOS.EarlyMm
open Paging PageWords

abbrev Word := BitVec 32

/-- The symbols of kernel.lds and crt0.S. -/
structure Symbols where
  start : Word
  textStart : Word
  textEnd : Word
  multibootStart : Word
  multibootEnd : Word
  bootstrapStackStart : Word
  bootstrapStackEnd : Word
  rodataStart : Word
  rodataEnd : Word
  dataStart : Word
  dataEnd : Word
  bssStart : Word
  bssEnd : Word
  kernelEnd : Word
  memEnd : Word
  pgdir : Word
  pgtab : Word

/-- `ASSERT_ALIGNED`, after which the kernel goes on or halts. -/
def assertAligned (symbol : Word) : Bool := decide (symbol &&& 0xfffff000 = symbol)

def assertConsistent (start last : Word) : Bool := !decide ((last - start).toInt < 4096)

/-- Where the source says `.bss` it looks at `.data` again. -/
def earlyMmCheck (k : Symbols) : Bool :=
  assertAligned k.start &&
  assertAligned k.textStart && assertAligned k.textEnd && assertConsistent k.textStart k.textEnd &&
  assertAligned k.multibootStart && assertAligned k.multibootEnd &&
    assertConsistent k.multibootStart k.multibootEnd &&
  assertAligned k.bootstrapStackStart && assertAligned k.bootstrapStackEnd &&
    assertConsistent k.bootstrapStackStart k.bootstrapStackEnd &&
  assertAligned k.rodataStart && assertAligned k.rodataEnd &&
    assertConsistent k.rodataStart k.rodataEnd &&
  assertAligned k.dataStart && assertAligned k.dataEnd && assertConsistent k.dataStart k.dataEnd &&
  assertAligned k.dataStart && assertAligned k.dataEnd && assertConsistent k.dataStart k.dataEnd &&
  assertConsistent k.start k.kernelEnd

def pageDirFlags : Word := 0x3
def pageTableRo : Word := 0x1
def pageTableRw : Word := 0x3

def memsetZero (a n : Nat) (words : Words) : Words := fun k =>
  if a / 4 ≤ k ∧ k < a / 4 + n / 4 then 0#32 else words k

def earlyMmFillPgdir (pagedir pagetab : Word) (count : Nat) (words : Words) : Words :=
  let words := (List.range count).foldl (fun words i =>
    store pagedir.toNat i ((pagetab + BitVec.ofNat 32 i * 0x1000) ||| pageDirFlags) words) words
  (List.range' count (1024 - count)).foldl (fun words i => store pagedir.toNat i 0#32 words) words

/-- The loop of `early_mm_map_region`. `address` has 2^20 values before they come again. -/
def mapRegion (pdir last flags : Word) : Nat → Word → Words → Option Words
  | 0, _, _ => none
  | fuel + 1, address, words =>
    if address < last then
      let pdIndex := (address >>> 22).toNat
      let ptIndex := ((address >>> 12) &&& 0x3ff).toNat
      let ptable := tableAt pdir.toNat pdIndex words
      mapRegion pdir last flags fuel (address + 4096)
        (store ptable ptIndex ((address &&& 0xfffff000) ||| flags) words)
    else some words

def earlyMmMapRegion (pdir start last flags : Word) (words : Words) : Option Words :=
  mapRegion pdir last flags (2 ^ 20 + 1) start words

/-- The calls of `early_mm_map_region`: start, end and flags. -/
def Symbols.regions (k : Symbols) : List (Word × Word × Word) :=
  [(4096, k.start, pageTableRw),
    (k.start, k.textStart, pageTableRw),
    (k.textStart, k.textEnd, pageTableRo),
    (k.multibootStart, k.multibootEnd, pageTableRo),
    (k.rodataStart, k.rodataEnd, pageTableRo),
    (k.bootstrapStackStart, k.bootstrapStackEnd, pageTableRw),
    (k.dataStart, k.dataEnd, pageTableRw),
    (k.bssStart, k.bssEnd, pageTableRw),
    (k.kernelEnd, k.memEnd, pageTableRw)]

def earlyMmMapKernel (k : Symbols) (words : Words) : Option Words :=
  let words := memsetZero k.pgtab.toNat (4096 * 64) words
  let words := earlyMmFillPgdir k.pgdir k.pgtab 64 words
  k.regions.foldlM (fun words r => earlyMmMapRegion k.pgdir r.1 r.2.1 r.2.2 words) words

/-- As far as paging: `none` when the kernel halts. -/
def boot (k : Symbols) (words : Words) : Option Words :=
  if earlyMmCheck k then earlyMmMapKernel k words else none

/-- What kernel.lds and crt0.S lay down: the sections follow each other. -/
structure Symbols.Linked (k : Symbols) : Prop where
  start : 4096 ≤ k.start.toNat
  pgdir : k.pgdir.toNat = k.start.toNat + 0x1000
  pgtab : k.pgtab.toNat = k.start.toNat + 0x2000
  textStart : k.start.toNat + 0x42000 ≤ k.textStart.toNat
  text : k.textStart.toNat ≤ k.textEnd.toNat
  multibootStart : k.multibootStart = k.textEnd
  multiboot : k.multibootStart.toNat ≤ k.multibootEnd.toNat
  bootstrapStackStart : k.bootstrapStackStart = k.multibootEnd
  bootstrapStack : k.bootstrapStackStart.toNat ≤ k.bootstrapStackEnd.toNat
  rodataStart : k.rodataStart = k.bootstrapStackEnd
  rodata : k.rodataStart.toNat ≤ k.rodataEnd.toNat
  dataStart : k.dataStart = k.rodataEnd
  data : k.dataStart.toNat ≤ k.dataEnd.toNat
  bssStart : k.bssStart = k.dataEnd
  bss : k.bssStart.toNat ≤ k.kernelEnd.toNat
  bssEnd : k.bssEnd.toNat = (k.kernelEnd.toNat + 0xfff) / 0x1000 * 0x1000
  kernelEnd : k.kernelEnd.toNat ≤ 0x4000000
  memEnd : k.memEnd = 0x10000000

def Symbols.writable (k : Symbols) (p : Nat) : Bool :=
  !decide (k.textStart.toNat ≤ p * 0x1000 ∧ p * 0x1000 < k.multibootEnd.toNat ∨
    k.rodataStart.toNat ≤ p * 0x1000 ∧ p * 0x1000 < k.rodataEnd.toNat)

def Symbols.early (k : Symbols) : EarlyMem := ⟨k.pgtab.toNat, k.writable⟩

variable {k : Symbols} {words words' : Words} {P : Nat → Option Bool} {pgdir pgtab i j n : Nat}
  {pdir address start last flags x : Word} {w : Bool}

section Bits

theorem and_page (a : Word) : a &&& (0xfffff000 : Word) = (a >>> (12 : Nat)) <<< (12 : Nat) := by
  have hmask : (0xfffff000 : Word) = BitVec.allOnes 32 <<< (12 : Nat) := by decide
  rw [hmask]
  ext i hi
  rw [BitVec.getElem_and, BitVec.getElem_shiftLeft, BitVec.getElem_shiftLeft]
  by_cases h : i < 12
  · rw [decide_eq_true h, Bool.not_true, Bool.false_and, Bool.false_and, Bool.and_false]
  · have hi' : 12 + (i - 12) = i := by omega
    rw [BitVec.getElem_allOnes, BitVec.getElem_ushiftRight, hi', decide_eq_false h, Bool.not_false,
      Bool.true_and, Bool.true_and, Bool.and_true, BitVec.getLsbD_eq_getElem]

theorem and_page_toNat (a : Word) : (a &&& 0xfffff000).toNat = a.toNat / 0x1000 * 0x1000 := by
  rw [and_page, BitVec.toNat_shiftLeft, BitVec.toNat_ushiftRight, Nat.shiftRight_eq_div_pow,
    Nat.shiftLeft_eq]
  have := a.isLt
  omega

theorem assertAligned_iff : assertAligned x = true ↔ x.toNat % 0x1000 = 0 := by
  unfold assertAligned
  rw [decide_eq_true_iff, ← BitVec.toNat_inj, and_page_toNat]
  omega

theorem index_toNat (a : Word) : (a >>> 22).toNat = a.toNat / 0x400000 ∧
    ((a >>> 12) &&& 0x3ff).toNat = a.toNat / 0x1000 % 0x400 := by
  constructor
  · rw [BitVec.toNat_ushiftRight, Nat.shiftRight_eq_div_pow]
  · rw [BitVec.toNat_and, BitVec.toNat_ushiftRight, Nat.shiftRight_eq_div_pow]
    exact Nat.and_two_pow_sub_one_eq_mod _ 10

end Bits

structure Placed (pgdir pgtab : Nat) : Prop where
  pgdirAligned : pgdir % 0x1000 = 0
  pgtabAligned : pgtab % 0x1000 = 0
  apart : pgdir + 0x1000 ≤ pgtab
  high : pgtab + 64 * 0x1000 ≤ 2 ^ 32

/-- The directory leads to the tables, and these map each page `p` that is in `P` to itself, for
the kernel only; `P p` says whether to be written. -/
structure Tables (words : Words) (pgdir pgtab : Nat) (P : Nat → Option Bool) : Prop where
  dir : ∀ i < 64, load pgdir i words = entryBits ⟨pgtab + i * 0x1000, ⟨true, false⟩⟩
  empty : ∀ i, 64 ≤ i → i < 1024 → load pgdir i words = 0#32
  table : ∀ i < 64, ∀ j < 1024, load (pgtab + i * 0x1000) j words =
    bits ((P (i * 1024 + j)).map fun w => ⟨(i * 1024 + j) * 0x1000, ⟨w, false⟩⟩)

section Fill

theorem load_fill (f : Nat → BitVec 32) (hb : pgdir % 0x1000 = 0) {a : Nat} (ha : a % 0x1000 = 0)
    (hj : j < 1024) (hn : i + n ≤ 1024) :
    load a j ((List.range' i n).foldl (fun words l => store pgdir l (f l) words) words) =
      if a = pgdir ∧ i ≤ j ∧ j < i + n then f j else load a j words := by
  induction n generalizing i words with
  | zero => rw [if_neg (by omega)]; rfl
  | succ n ih =>
    rw [List.range'_succ, List.foldl_cons, ih (by omega), load_store hb ha (by omega) hj]
    by_cases hcell : a = pgdir ∧ j = i
    · rw [if_neg (by omega), if_pos hcell, if_pos (by omega), hcell.2]
    · rw [if_neg hcell]
      by_cases hlater : a = pgdir ∧ i + 1 ≤ j ∧ j < i + 1 + n
      · rw [if_pos hlater, if_pos (by omega)]
      · rw [if_neg hlater, if_neg (by omega)]

theorem load_memset {a b : Nat} (ha : a % 0x1000 = 0) (hb : b % 0x1000 = 0) (hj : j < 1024) :
    load b j (memsetZero a (4096 * n) words) =
      if a ≤ b ∧ b < a + n * 0x1000 then 0#32 else load b j words := by
  unfold load memsetZero
  by_cases h : a ≤ b ∧ b < a + n * 0x1000
  · rw [if_pos h, if_pos (by omega)]
  · rw [if_neg h, if_neg (by omega)]

theorem dirEntry_eq (a : Word) (i : Nat) :
    (a + BitVec.ofNat 32 i * 0x1000) ||| pageDirFlags =
      entryBits ⟨a.toNat + i * 0x1000, ⟨true, false⟩⟩ := by
  have haddr : a + BitVec.ofNat 32 i * 0x1000 = BitVec.ofNat 32 (a.toNat + i * 0x1000) := by
    refine BitVec.eq_of_toNat_eq ?_
    rw [BitVec.toNat_add, BitVec.toNat_mul, BitVec.toNat_ofNat, BitVec.toNat_ofNat]
    show (a.toNat + i % 2 ^ 32 * 4096 % 2 ^ 32) % 2 ^ 32 = _
    omega
  have hflags : pageDirFlags = flagBits ⟨true, false⟩ ||| present := by decide
  unfold entryBits
  rw [haddr, BitVec.or_assoc, hflags]

theorem tables_filled (hp : Placed k.pgdir.toNat k.pgtab.toNat) (words : Words) :
    Tables (earlyMmFillPgdir k.pgdir k.pgtab 64 (memsetZero k.pgtab.toNat (4096 * 64) words))
      k.pgdir.toNat k.pgtab.toNat fun _ => none := by
  have hload {a j : Nat} (ha : a % 0x1000 = 0) (hj : j < 1024) :
      load a j (earlyMmFillPgdir k.pgdir k.pgtab 64 (memsetZero k.pgtab.toNat (4096 * 64) words)) =
        if a = k.pgdir.toNat ∧ 64 ≤ j ∧ j < 1024 then 0#32
        else if a = k.pgdir.toNat ∧ j < 64 then
          (k.pgtab + BitVec.ofNat 32 j * 0x1000) ||| pageDirFlags
        else if k.pgtab.toNat ≤ a ∧ a < k.pgtab.toNat + 64 * 0x1000 then 0#32 else load a j words := by
    unfold earlyMmFillPgdir
    rw [List.range_eq_range', load_fill (fun _ => 0#32) hp.pgdirAligned ha hj (by decide),
      load_fill (fun i => (k.pgtab + BitVec.ofNat 32 i * 0x1000) ||| pageDirFlags) hp.pgdirAligned ha
        hj (by decide), load_memset hp.pgtabAligned ha hj]
    simp only [Nat.zero_le, true_and, Nat.zero_add, show 64 + (1024 - 64) = 1024 from rfl]
  have hapart := hp.apart
  refine ⟨fun i hi => ?_, fun i hi hi' => ?_, fun i hi j hj => ?_⟩
  · rw [hload hp.pgdirAligned (by omega), if_neg (by omega), if_pos ⟨rfl, hi⟩, dirEntry_eq]
  · rw [hload hp.pgdirAligned hi', if_pos ⟨rfl, hi, hi'⟩]
  · have halign := hp.pgtabAligned
    rw [hload (by omega) hj, if_neg (by omega), if_neg (by omega), if_pos (by omega)]
    rfl

end Fill

section Map

theorem Tables.tableAt (h : Tables words pgdir pgtab P) (hp : Placed pgdir pgtab) (hi : i < 64) :
    tableAt pgdir i words = pgtab + i * 0x1000 := by
  have halign := hp.pgtabAligned
  have hhigh := hp.high
  unfold PageWords.tableAt
  rw [h.dir i hi]
  refine entryBits_addr ?_ ?_
  · show (pgtab + i * 0x1000) % 0x1000 = 0
    omega
  · show pgtab + i * 0x1000 < 2 ^ 32
    omega

theorem Tables.set (h : Tables words pgdir pgtab P) (hp : Placed pgdir pgtab) (hi : i < 64)
    (hj : j < 1024) (w : Bool) :
    Tables (store (pgtab + i * 0x1000) j (entryBits ⟨(i * 1024 + j) * 0x1000, ⟨w, false⟩⟩) words)
      pgdir pgtab (Function.update P (i * 1024 + j) (some w)) := by
  have halign := hp.pgtabAligned
  have hdir := hp.pgdirAligned
  have hapart := hp.apart
  have hother {l : Nat} (hl : l < 1024) :
      load pgdir l (store (pgtab + i * 0x1000) j (entryBits ⟨(i * 1024 + j) * 0x1000, ⟨w, false⟩⟩)
        words) = load pgdir l words := by
    rw [load_store (by omega) hdir hj hl, if_neg (by omega)]
  refine ⟨fun l hl => ?_, fun l hl hl' => ?_, fun l hl m hm => ?_⟩
  · rw [hother (by omega), h.dir l hl]
  · rw [hother hl', h.empty l hl hl']
  · rw [load_store (by omega) (by omega) hj hm, h.table l hl m hm]
    by_cases hcell : l = i ∧ m = j
    · rw [if_pos (by omega), hcell.1, hcell.2, Function.update_self]
      rfl
    · rw [if_neg (by omega), Function.update_of_ne (by omega)]

/-- What a region adds; the loop goes by whole pages from its start. -/
def region (start last : Nat) (w : Bool) (P : Nat → Option Bool) : Nat → Option Bool := fun p =>
  if start / 0x1000 ≤ p ∧ p * 0x1000 + start % 0x1000 < last then some w else P p

theorem region_aligned {start last p : Nat} (h : start % 0x1000 = 0) :
    region start last w P p =
      if start ≤ p * 0x1000 ∧ p * 0x1000 < last then some w else P p := by
  unfold region
  by_cases hp : start ≤ p * 0x1000 ∧ p * 0x1000 < last
  · rw [if_pos hp, if_pos (by omega)]
  · rw [if_neg hp, if_neg (by omega)]

theorem region_next {start last : Nat} (h : start < last) (P : Nat → Option Bool) :
    region (start + 0x1000) last w (Function.update P (start / 0x1000) (some w)) =
      region start last w P := by
  funext p
  unfold region
  by_cases hp : p = start / 0x1000
  · rw [if_neg (by omega), if_pos (by omega), hp, Function.update_self]
  · rw [Function.update_of_ne hp]
    by_cases hlater : (start + 0x1000) / 0x1000 ≤ p ∧ p * 0x1000 + (start + 0x1000) % 0x1000 < last
    · rw [if_pos hlater, if_pos (by omega)]
    · rw [if_neg hlater, if_neg (by omega)]

theorem mapRegion_spec (h : Tables words pdir.toNat pgtab P) (hp : Placed pdir.toNat pgtab)
    (hf : flags = flagBits ⟨w, false⟩ ||| present) (hl : last.toNat ≤ 0x10000000)
    (hn : last.toNat ≤ address.toNat + n * 0x1000) :
    ∃ words', mapRegion pdir last flags (n + 1) address words = some words' ∧
      Tables words' pdir.toNat pgtab (region address.toNat last.toNat w P) := by
  have hdone {address : Word} {words : Words} {P : Nat → Option Bool}
      (h : Tables words pdir.toNat pgtab P) (hle : ¬address.toNat < last.toNat) :
      Tables words pdir.toNat pgtab (region address.toNat last.toNat w P) := by
    have hnone : region address.toNat last.toNat w P = P := by
      funext p
      unfold region
      rw [if_neg (by omega)]
    rwa [hnone]
  induction n generalizing address words P with
  | zero =>
    have hle : ¬address.toNat < last.toNat := by omega
    unfold mapRegion
    rw [if_neg (mt BitVec.lt_def.mp hle)]
    exact ⟨words, rfl, hdone h hle⟩
  | succ n ih =>
    unfold mapRegion
    by_cases hlast : address < last
    · have hlt : address.toNat < last.toNat := BitVec.lt_def.mp hlast
      have hnext : (address + 4096).toNat = address.toNat + 0x1000 := by
        rw [BitVec.toNat_add]
        show (address.toNat + 4096) % 2 ^ 32 = _
        omega
      obtain ⟨hpd, hpt⟩ := index_toNat address
      have hpage : address.toNat / 0x400000 * 1024 + address.toNat / 0x1000 % 0x400 =
          address.toNat / 0x1000 := by omega
      have hi : address.toNat / 0x400000 < 64 := by omega
      have hentry : (address &&& 0xfffff000) ||| flags =
          entryBits ⟨address.toNat / 0x1000 * 0x1000, ⟨w, false⟩⟩ := by
        unfold entryBits
        rw [hf, ← BitVec.or_assoc, ← and_page_toNat, BitVec.ofNat_toNat, BitVec.setWidth_eq]
      have hset := h.set hp hi (Nat.mod_lt (address.toNat / 0x1000) (show 0 < 0x400 by decide)) w
      rw [hpage] at hset
      have hturns : last.toNat ≤ (address + 4096).toNat + n * 0x1000 := by omega
      obtain ⟨words', hrun, htables⟩ := ih hset hturns
      refine ⟨words', ?_, ?_⟩
      · rw [if_pos hlast, ← hrun]
        show mapRegion pdir last flags (n + 1) (address + 4096) (store
          (tableAt pdir.toNat (address >>> 22).toNat words) ((address >>> 12) &&& 0x3ff).toNat
          ((address &&& 0xfffff000) ||| flags) words) = _
        rw [hpd, hpt, h.tableAt hp hi, hentry]
      · rwa [hnext, region_next hlt] at htables
    · have hle : ¬address.toNat < last.toNat := mt BitVec.lt_def.mpr hlast
      rw [if_neg hlast]
      exact ⟨words, rfl, hdone h hle⟩

def mapped (rs : List (Word × Word × Word)) (P : Nat → Option Bool) : Nat → Option Bool :=
  rs.foldl (fun P r => region r.1.toNat r.2.1.toNat (decide (r.2.2 = pageTableRw)) P) P

theorem mapRegions_spec {rs : List (Word × Word × Word)} (h : Tables words pdir.toNat pgtab P)
    (hp : Placed pdir.toNat pgtab)
    (hr : ∀ r ∈ rs, r.2.1.toNat ≤ 0x10000000 ∧ (r.2.2 = pageTableRo ∨ r.2.2 = pageTableRw)) :
    ∃ words', rs.foldlM (fun words r => earlyMmMapRegion pdir r.1 r.2.1 r.2.2 words) words =
        some words' ∧ Tables words' pdir.toNat pgtab (mapped rs P) := by
  induction rs generalizing words P with
  | nil => exact ⟨words, rfl, h⟩
  | cons r rs ih =>
    obtain ⟨⟨hlast, hflags⟩, hrest⟩ := List.forall_mem_cons.mp hr
    have hf : r.2.2 = flagBits ⟨decide (r.2.2 = pageTableRw), false⟩ ||| present := by
      rcases hflags with hflags | hflags <;> rw [hflags] <;> decide
    have hturns : r.2.1.toNat ≤ r.1.toNat + 2 ^ 20 * 0x1000 := by omega
    obtain ⟨words₁, hrun, h₁⟩ := mapRegion_spec h hp hf hlast hturns
    obtain ⟨words', hrest, h'⟩ := ih h₁ hrest
    refine ⟨words', ?_, h'⟩
    rw [List.foldlM_cons]
    show (earlyMmMapRegion pdir r.1 r.2.1 r.2.2 words).bind _ = _
    unfold earlyMmMapRegion
    rw [hrun]
    exact hrest

end Map

section Boot

theorem check_aligned (h : earlyMmCheck k = true) : k.start.toNat % 0x1000 = 0 ∧
    k.textStart.toNat % 0x1000 = 0 ∧ k.multibootStart.toNat % 0x1000 = 0 ∧
    k.bootstrapStackStart.toNat % 0x1000 = 0 ∧ k.rodataStart.toNat % 0x1000 = 0 ∧
    k.dataStart.toNat % 0x1000 = 0 ∧ k.dataEnd.toNat % 0x1000 = 0 := by
  simp only [earlyMmCheck, Bool.and_eq_true, assertAligned_iff] at h
  omega

theorem zones {x start text multiboot stack rodata data bss free last : Nat} (h₀ : 0x1000 ≤ start) (h₁ : start ≤ text)
    (h₂ : text ≤ multiboot) (h₃ : multiboot ≤ stack) (h₄ : stack ≤ rodata) (h₅ : rodata ≤ data)
    (h₆ : data ≤ bss) (h₇ : bss ≤ free) (h₈ : free ≤ last) (hx : x = 0 ∨ 0x1000 ≤ x) :
    (if free ≤ x then some true
      else if bss ≤ x ∧ x < last then some true
      else if data ≤ x ∧ x < bss then some true
      else if stack ≤ x ∧ x < rodata then some true
      else if rodata ≤ x ∧ x < data then some false
      else if multiboot ≤ x ∧ x < stack then some false
      else if text ≤ x ∧ x < multiboot then some false
      else if start ≤ x ∧ x < text then some true
      else if 0x1000 ≤ x ∧ x < start then some true
      else none) =
    if x = 0 then none
    else some !decide (text ≤ x ∧ x < stack ∨ rodata ≤ x ∧ x < data) := by
  grind

theorem Symbols.Linked.sections (hl : k.Linked) :
    k.start.toNat + 0x42000 ≤ k.textStart.toNat ∧ k.textStart.toNat ≤ k.textEnd.toNat ∧
      k.textEnd.toNat ≤ k.multibootEnd.toNat ∧
      k.multibootEnd.toNat ≤ k.bootstrapStackEnd.toNat ∧
      k.bootstrapStackEnd.toNat ≤ k.rodataEnd.toNat ∧ k.rodataEnd.toNat ≤ k.dataEnd.toNat ∧
      k.dataEnd.toNat ≤ k.kernelEnd.toNat :=
  ⟨hl.textStart, hl.text, hl.multibootStart ▸ hl.multiboot,
    hl.bootstrapStackStart ▸ hl.bootstrapStack, hl.rodataStart ▸ hl.rodata,
    hl.dataStart ▸ hl.data, hl.bssStart ▸ hl.bss⟩

/-- All of memory is mapped but the first page, and what is not code or constants to be written. -/
theorem mapped_regions (hl : k.Linked) (hc : earlyMmCheck k = true) {p : Nat} (hp : p < 0x10000) :
    mapped k.regions (fun _ => none) p = if p = 0 then none else some (k.writable p) := by
  obtain ⟨hstart, htext, hmultiboot, hstack, hrodata, hdata, hbss⟩ := check_aligned hc
  have hro : decide (pageTableRo = pageTableRw) = false := by decide
  have hmem : (0x10000000 : Word).toNat = 0x10000000 := rfl
  have hlow := hl.start
  obtain ⟨htextStart, htextEnd, hmultibootEnd, hstackEnd, hrodataEnd, hdataEnd, hend⟩ := hl.sections
  have hbssEnd := hl.bssEnd
  have hheap := hl.kernelEnd
  have hbssStart : k.bssStart.toNat % 0x1000 = 0 := hl.bssStart ▸ hbss
  simp only [mapped, Symbols.regions, List.foldl, hro, decide_true, hl.memEnd, Symbols.writable]
  rw [region, hmem, region_aligned hbssStart, region_aligned hdata, region_aligned hstack,
    region_aligned hrodata, region_aligned hmultiboot, region_aligned htext, region_aligned hstart,
    region_aligned (by decide)]
  rw [hl.multibootStart, hl.bootstrapStackStart, hl.rodataStart, hl.dataStart, hl.bssStart]
  have hfirst : (4096 : Word).toNat = 0x1000 := rfl
  have hfree : (k.kernelEnd.toNat / 0x1000 ≤ p ∧
      p * 0x1000 + k.kernelEnd.toNat % 0x1000 < 0x10000000) ↔
        k.kernelEnd.toNat / 0x1000 * 0x1000 ≤ p * 0x1000 := by
    omega
  have hzero : p = 0 ↔ p * 0x1000 = 0 := by omega
  have hfrom : k.dataEnd.toNat ≤ k.kernelEnd.toNat / 0x1000 * 0x1000 := by omega
  have hupto : k.kernelEnd.toNat / 0x1000 * 0x1000 ≤ k.bssEnd.toNat := by omega
  have hpage : p * 0x1000 = 0 ∨ 0x1000 ≤ p * 0x1000 := by omega
  simp only [hfree, hfirst, hzero]
  exact zones hlow (by omega) htextEnd hmultibootEnd hstackEnd hrodataEnd hdataEnd hfrom hupto hpage

theorem Symbols.Linked.placed (hl : k.Linked) (hc : earlyMmCheck k = true) :
    Placed k.pgdir.toNat k.pgtab.toNat := by
  have hstart := (check_aligned hc).1
  have hpgdir := hl.pgdir
  have hpgtab := hl.pgtab
  have htext := hl.textStart
  have hlt := k.textStart.isLt
  constructor <;> omega

theorem boot_tables (hl : k.Linked) (hc : earlyMmCheck k = true) (words : Words) :
    ∃ words', boot k words = some words' ∧ Tables words' k.pgdir.toNat k.pgtab.toNat fun p =>
      if p = 0 then none else if p < 0x10000 then some (k.writable p) else none := by
  have hp := hl.placed hc
  have hregions : ∀ r ∈ k.regions,
      r.2.1.toNat ≤ 0x10000000 ∧ (r.2.2 = pageTableRo ∨ r.2.2 = pageTableRw) := by
    obtain ⟨htextStart, htextEnd, hmultibootEnd, hstackEnd, hrodataEnd, hdataEnd, hend⟩ := hl.sections
    have hbssEnd := hl.bssEnd
    have hheap := hl.kernelEnd
    have hmem : k.memEnd.toNat = 0x10000000 := by rw [hl.memEnd]; rfl
    simp only [Symbols.regions, List.forall_mem_cons, List.not_mem_nil, false_implies, implies_true,
      and_true, or_true, true_or]
    omega
  obtain ⟨words', hrun, ht⟩ := mapRegions_spec (tables_filled hp words) hp hregions
  refine ⟨words', ?_, ht.dir, ht.empty, fun i hi j hj => ?_⟩
  · unfold boot
    rw [if_pos hc]
    exact hrun
  · have hlt : i * 1024 + j < 0x10000 := by omega
    rw [ht.table i hi j hj, mapped_regions hl hc hlt, if_pos hlt]

theorem boot_booted (hl : k.Linked) (hc : earlyMmCheck k = true)
    (ht : Tables words k.pgdir.toNat k.pgtab.toNat fun p =>
      if p = 0 then none else if p < 0x10000 then some (k.writable p) else none) :
    Booted words k.pgdir.toNat k.early := by
  have hp := hl.placed hc
  have hpgdir := hl.pgdir
  have hpgtab := hl.pgtab
  obtain ⟨htextStart, htextEnd, hmultibootEnd, hstackEnd, hrodataEnd, hdataEnd, hend⟩ := hl.sections
  have hheap := hl.kernelEnd
  have hlow : k.pgtab.toNat + 64 * 0x1000 ≤ 0x4000000 := by omega
  have hpgdirLow : k.pgdir.toNat < 0x4000000 := by omega
  refine ⟨hp.pgdirAligned, hpgdirLow, hp.pgtabAligned, hlow, ht.dir, fun i hi j hj => ?_⟩
  refine (ht.table i hi j hj).trans (congrArg bits ?_)
  have hlt : i * 1024 + j < 0x10000 := by omega
  have hzero : i * 1024 + j = 0 ↔ i = 0 ∧ j = 0 := by omega
  unfold EarlyMem.table
  simp only [hlt, hzero, if_true]
  by_cases h : i = 0 ∧ j = 0
  · rw [if_pos h, if_pos h]
    rfl
  · rw [if_neg h, if_neg h]
    rfl

/-- The entry for an address of the kernel: memory as it is, never for users, and no writing to
code and constants. The first page is missing. -/
def kernelEntry (k : Symbols) (v : Nat) : BitVec 32 :=
  if v < 0x1000 then 0#32
  else entryBits ⟨v / 0x1000 * 0x1000, ⟨k.writable (v / 0x1000), false⟩⟩

def smallKernel : Symbols where
  start := 0x100000
  textStart := 0x142000
  textEnd := 0x143000
  multibootStart := 0x143000
  multibootEnd := 0x144000
  bootstrapStackStart := 0x144000
  bootstrapStackEnd := 0x145000
  rodataStart := 0x145000
  rodataEnd := 0x146000
  dataStart := 0x146000
  dataEnd := 0x147000
  bssStart := 0x147000
  bssEnd := 0x148000
  kernelEnd := 0x147010
  memEnd := 0x10000000
  pgdir := 0x101000
  pgtab := 0x102000

theorem smallKernel_linked : smallKernel.Linked := by
  constructor <;> decide

/-- The directory that the processor starts with. -/
theorem boot_maps_kernel (hl : k.Linked) (hc : earlyMmCheck k = true) (words : Words) :
    ∃ words', boot k words = some words' ∧ Booted words' k.pgdir.toNat k.early ∧
      ∀ v < 2 ^ 32, pageEntry k.pgdir.toNat v words' =
        if v < 0x10000000 then kernelEntry k v else 0#32 := by
  obtain ⟨words', hrun, ht⟩ := boot_tables hl hc words
  refine ⟨words', hrun, boot_booted hl hc ht, fun v hv => ?_⟩
  have hp := hl.placed hc
  unfold pageEntry
  rw [pdIndex_eq, ptIndex_eq]
  by_cases hlow : v < 0x10000000
  · have hi : v / 0x400000 < 64 := by omega
    have hpage : v / 0x400000 * 1024 + v / 0x1000 % 0x400 = v / 0x1000 := by omega
    have hpresent := entryBits_present ⟨k.pgtab.toNat + v / 0x400000 * 0x1000, ⟨true, false⟩⟩
    rw [ht.dir _ hi, if_neg hpresent, ht.tableAt hp hi, ht.table _ hi _ (Nat.mod_lt _ (by decide)),
      hpage, if_pos hlow]
    unfold kernelEntry
    by_cases hfirst : v < 0x1000
    · rw [if_pos hfirst, if_pos (by omega)]
      rfl
    · rw [if_neg hfirst, if_neg (by omega), if_pos (by omega)]
      rfl
  · rw [ht.empty _ (by omega) (by omega), if_pos BitVec.zero_and, if_neg hlow]

theorem boot_maps_kernel_small : ∃ words', boot smallKernel (fun _ => 0) = some words' ∧
    Booted words' smallKernel.pgdir.toNat smallKernel.early ∧
    ∀ v < 2 ^ 32, pageEntry smallKernel.pgdir.toNat v words' =
      if v < 0x10000000 then kernelEntry smallKernel v else 0#32 :=
  boot_maps_kernel smallKernel_linked (by decide) fun _ => 0

theorem early_kernel {early : EarlyMem} {v : Nat} (hv : v < 0x10000000) :
    Dir.entry early.dir v = if v < 0x1000 then none
      else some ⟨v / 0x1000 * 0x1000, ⟨early.writable (v / 0x1000), false⟩⟩ := by
  have hi : v / 0x400000 < 64 := by omega
  have hpage : v / 0x400000 * 1024 + v / 0x1000 % 0x400 = v / 0x1000 := by omega
  have hzero : v / 0x400000 = 0 ∧ v / 0x1000 % 0x400 = 0 ↔ v < 0x1000 := by omega
  unfold Dir.entry EarlyMem.dir
  rw [pdIndex_eq, ptIndex_eq, if_pos hi]
  show (if v / 0x400000 = 0 ∧ v / 0x1000 % 0x400 = 0 then none else some _) = _
  simp only [hzero, hpage]

theorem kernel_page {early : EarlyMem} {m : Ram} {dirAt : Nat} {M : PageMap}
    (h : Zoned pgdir early m dirAt M) {p : Nat} (hp : p < 0x10000) :
    M.page p = (Dir.pages early.dir).page p := by
  induction h with
  | create hb hrun => rfl
  | @map m m' dirAt virt virtEnd phys phyEnd M flags offers hz hzone hphys hs hrun ih =>
    have hlow := hzone.low
    have hout : ¬(virt / 0x1000 ≤ p ∧ p ≤ virtEnd / 0x1000) := by omega
    exact (if_neg hout).trans ih
  | @unmap m dirAt virt virtEnd M hz hle hlow hhigh ih =>
    have hout : ¬(virt / 0x1000 ≤ p ∧ p ≤ virtEnd / 0x1000) := by omega
    exact (if_neg hout).trans ih

/-- In whatever address space, and after any zones have been mapped and unmapped in it, an address
of the kernel means the same. -/
theorem kernel_in_every_space {m : Ram} {dirAt : Nat} {M : PageMap}
    (h : Zoned k.pgdir.toNat k.early m dirAt M) : ∀ v < 0x10000000,
      pageEntry dirAt v m.words = kernelEntry k v ∧ isUserAddr dirAt v m.words = false := by
  intro v hv
  obtain ⟨dir, hd⟩ := h.behind
  have hentry : pageEntry dirAt v m.words = kernelEntry k v := by
    rw [hd.exact.entry v (by omega), kernel_page h (by omega), Dir.pages_page, early_kernel hv]
    unfold kernelEntry
    split <;> rfl
  refine ⟨hentry, ?_⟩
  rw [isUserAddr_eq, hentry]
  unfold kernelEntry
  split
  · rfl
  · have huser := entryBits_us (e := ⟨v / 0x1000 * 0x1000, ⟨k.writable (v / 0x1000), false⟩⟩)
      (Nat.mul_mod_left _ _)
    simp only [Bool.false_eq_true, iff_false] at huser
    exact decide_eq_false huser

/-- Three pages of user code are mapped in a directory, and one is unmapped again. -/
theorem kernel_in_every_space_small : ∃ m dirAt M,
    Zoned smallKernel.pgdir.toNat smallKernel.early m dirAt M ∧
    isUserAddr dirAt 0x403fe123 m.words = true ∧ isUserAddr dirAt 0x403ff123 m.words = false ∧
    pageEntry dirAt 0x142004 m.words = 0x142001 ∧ isUserAddr dirAt 0x142004 m.words = false := by
  obtain ⟨words, -, ht⟩ := boot_tables smallKernel_linked (by decide) fun _ => 0
  have hb : Booted words smallKernel.pgdir.toNat smallKernel.early :=
    boot_booted smallKernel_linked (by decide) ht
  have hrun : pageDirectoryCreate smallKernel.pgdir.toNat ⟨words, ⟨[], [0x4000000]⟩⟩ =
      .ok (0x4000000, ⟨copyEntries smallKernel.pgdir.toNat 0x4000000 64 (clear 0x4000000 words),
        ⟨[(0x4000000, 1)], []⟩⟩) := rfl
  have hz := Zoned.create hb hrun
  have hzone : Zone 0x403fe000 0x40400fff 0x5000000 0x5002fff :=
    ⟨by decide, by decide, by decide, by decide⟩
  have hs : Supplied (Frames.offer [0x4001000, 0x4002000] ⟨[(0x4000000, 1)], []⟩)
      (Dir.pages smallKernel.early.dir) 0x403fe000 0x40400fff :=
    ⟨⟨by decide, by decide⟩, (Finset.card_filter_le _ _).trans (by decide)⟩
  obtain ⟨dir, hd⟩ := hz.behind
  obtain ⟨m, dir', hmap, _⟩ := hd.map ⟨true, true⟩ hzone hs
  have hz' : Zoned smallKernel.pgdir.toNat smallKernel.early
      { m with words := unmapZone 0x4000000 0x403ff000 0x403fffff m.words } 0x4000000
      (PageMap.unmapZone 0x403ff000 0x403fffff (PageMap.mapZone 0x403fe000 0x40400fff 0x5000000
        ⟨true, true⟩ (Dir.pages smallKernel.early.dir))) :=
    .unmap (.map hz hzone (by decide) hs hmap) (by decide) (by decide) (by decide)
  obtain ⟨hentry, huser⟩ := kernel_in_every_space hz' 0x142004 (by decide)
  obtain ⟨dir'', hd''⟩ := hz'.behind
  have hexact := hd''.exact
  refine ⟨_, _, _, hz', (hexact.user _ (by decide)).mpr ⟨⟨0x5000000, ⟨true, true⟩⟩, ?_, rfl⟩,
    Bool.eq_false_iff.mpr fun hbad => ?_, hentry.trans (by decide), huser⟩
  · exact (PageMap.unmapZone_page _ (by decide)).trans (PageMap.mapZone_page _ _ _ (by decide))
  · obtain ⟨e, he, _⟩ := (hexact.user _ (by decide)).mp hbad
    cases he

end Boot

end DominOS.EarlyMm
