import DominOS.AddressSpacesSpec
import DominOS.PageWords

/-! What a new process finds on its stack: `start_task` writes it through physical addresses, the
process reads it through its directory. -/
namespace DominOS.AddressSpaces
open Paging Fallible PageWords
open Process (TaskPtr ustackSzMax)

variable {m m' : Mem} {dir : Dir} {space : Space} {code ssize : Nat} {o : StartOffers}
  {words : Words} {arg : BitVec 32} {v : Nat} {e : Entry} {flags : Flags}

def userStackBegin : Nat := 0xffeffff8

/-- `stack_end`: the address of the stack in physical memory, where its lowest page is filled from
the end. The test is true of any address but 0. -/
def stackEnd (stackPages real : Nat) : Nat :=
  if stackPages &&& 0xfffff000 ≠ 0 then stackPages + (pageSize - real % pageSize) else stackPages

def writeStack (stackPages ssize : Nat) (arg : BitVec 32) (words : Words) : Words :=
  let sizeInWords := realSize ssize / 4
  let top := stackEnd stackPages (realSize ssize) / 4 + sizeInWords
  let words := Function.update words (top - 1) arg
  let words := Function.update words (top - 2) 0#32
  Function.update words (top - 3) (BitVec.ofNat 32 userStart)

def physical (dir : Dir) (virt : Nat) : Option (Nat × Flags) :=
  (Dir.translate dir virt).map fun e => (e.addr + virt % pageSize, e.flags)

def readUser (dir : Dir) (words : Words) (virt : Nat) : Option (BitVec 32) :=
  (physical dir virt).bind fun (addr, flags) => if flags.us then some (words (addr / 4)) else none

/-- A process with this directory finds its argument, and `ssize` words below the initial stack
pointer, in bytes of its own. -/
structure SeesStack (dir : Dir) (words : Words) (ssize : Nat) (arg : BitVec 32) : Prop where
  arg : readUser dir words (userStackBegin + 4) = some arg
  mapped : ∀ v, userStackBegin - ssize * 4 ≤ v → v < userStackBegin →
    ∃ addr, physical dir v = some (addr, ⟨true, true⟩)
  apart : ∀ v w addr flags flags', userStackBegin - ssize * 4 ≤ v → v < userStackBegin →
    userStackBegin - ssize * 4 ≤ w → w < userStackBegin → physical dir v = some (addr, flags) →
    physical dir w = some (addr, flags') → v = w

theorem translate_eq {f : Flags} (hp : (Dir.pages dir).page (v / 0x1000) = some e)
    (ht : (Dir.pages dir).table (pdIndex v) = some f) :
    Dir.translate dir v = some ⟨e.addr, f.rw && e.flags.rw, f.us && e.flags.us⟩ := by
  rw [Dir.pages_page] at hp
  rw [Dir.pages_table] at ht
  obtain ⟨table, hd, rfl⟩ := Option.map_eq_some_iff.mp ht
  obtain ⟨table', hd', he⟩ := Option.bind_eq_some_iff.mp hp
  cases hd.symm.trans hd'
  unfold Dir.translate
  rw [hd, Option.bind_some, he, Option.map_some]

structure Stacked (space : Space) (ssize : Nat) : Prop where
  aligned : space.stackPages % 0x1000 = 0
  low : 0x4000000 ≤ space.stackPages
  high : space.stackPages + nbStackPages ssize * 0x1000 ≤ 0x10000000
  physical : ∀ v, userStackEnd - realSize ssize ≤ v → v < userStackEnd →
    physical space.dir v = some (space.stackPages +
      (v - (userStackEnd - realSize ssize) / 0x1000 * 0x1000), ⟨true, true⟩)

theorem realSize_le (hs : ssize ≤ ustackSzMax) :
    realSize ssize ≤ 0x8008 ∧ realSize ssize = ssize * 4 + 8 := by
  unfold ustackSzMax at hs
  unfold realSize extraStackSpace
  omega

theorem startTask_stacked (hs : ssize ≤ ustackSzMax) (h : m.startTask code ssize o = .ok m') :
    ∃ space, m'.spaces m.fresh = some space ∧ Stacked space ssize := by
  unfold Mem.startTask at h
  obtain ⟨⟨cr3, dir₀, s₁⟩, hdir, h⟩ := bind_ok.mp h
  obtain ⟨⟨codePages, s₂⟩, hcode, h⟩ := bind_ok.mp h
  obtain ⟨⟨dir₁, s₃⟩, hmap, h⟩ := bind_ok.mp h
  obtain ⟨⟨stackPages, s₄⟩, hstack, h⟩ := bind_ok.mp h
  obtain ⟨⟨dir₂, s₅⟩, hmap', h⟩ := bind_ok.mp h
  cases h
  obtain ⟨⟨dirAt, s₀⟩, hdirAt, hdir⟩ := bind_ok.mp hdir
  cases hdir
  obtain ⟨_, ⟨_, _, hend, _⟩, _⟩ := alloc_ok hcode
  obtain ⟨_, ⟨hal, hlow, hhigh, _⟩, _⟩ := alloc_ok hstack
  obtain ⟨hreal, hssize⟩ := realSize_le hs
  have hsize : codeSize code < 0x10000000 := by
    unfold nbCodePages pageSize at hend
    omega
  have hpages := mapZone_pages (by omega) (by unfold userStart; omega)
    (by unfold userStart; omega) hmap
  have hpages' := mapZone_pages (by unfold userStackEnd; omega) (by unfold userStackEnd; omega)
    (by unfold userStackEnd; omega) hmap'
  have hnb : realSize ssize < nbStackPages ssize * 0x1000 := by
    unfold nbStackPages pageSize
    omega
  have halign : align stackPages = stackPages := by
    unfold align
    omega
  refine ⟨_, Function.update_self .., hal, hlow, hhigh, fun v hv hv' => ?_⟩
  unfold userStackEnd at hv hv'
  have hpd : pdIndex v = 1023 := by
    rw [pdIndex_eq]
    omega
  -- nothing was mapped in the last 4MB before, so their table lets user code through
  have hfirst : (Dir.pages dir₁).table 1023 = none := by
    have hout : ¬ (pdIndex userStart ≤ 1023 ∧ 1023 ≤ pdIndex (userStart + codeSize code)) := by
      rw [pdIndex_eq, pdIndex_eq]
      unfold userStart
      omega
    rw [hpages]
    exact if_neg hout
  have htable : (Dir.pages dir₂).table (pdIndex v) = some ⟨true, true⟩ := by
    have hin : pdIndex (userStackEnd - realSize ssize + 1) ≤ 1023 ∧ 1023 ≤ pdIndex userStackEnd := by
      rw [pdIndex_eq, pdIndex_eq]
      unfold userStackEnd
      omega
    rw [hpages', hpd]
    refine (if_pos hin).trans ?_
    rw [hfirst]
    rfl
  have hwithin : (userStackEnd - realSize ssize + 1) / 0x1000 ≤ v / 0x1000 ∧
      v / 0x1000 ≤ userStackEnd / 0x1000 := by
    unfold userStackEnd
    omega
  have hpage := PageMap.mapZone_page (Dir.pages dir₁) stackPages ⟨true, true⟩ hwithin
  rw [← hpages', halign] at hpage
  have haddr : (stackPages + (v / 0x1000 - (userStackEnd - realSize ssize + 1) / 0x1000) * 0x1000) %
      2 ^ 32 + v % pageSize =
      stackPages + (v - (userStackEnd - realSize ssize) / 0x1000 * 0x1000) := by
    unfold userStackEnd pageSize
    omega
  unfold AddressSpaces.physical
  rw [translate_eq hpage htable, Option.map_some, haddr]
  rfl

theorem stack_top (hs : ssize ≤ ustackSzMax) (hst : Stacked space ssize) :
    stackEnd space.stackPages (realSize ssize) / 4 + realSize ssize / 4 =
      (space.stackPages + nbStackPages ssize * 0x1000) / 4 := by
  obtain ⟨_, hssize⟩ := realSize_le hs
  have hal := hst.aligned
  have hlow := hst.low
  have hhigh := hst.high
  have hmask := congrArg BitVec.toNat (page_high hal)
  rw [BitVec.toNat_and, BitVec.toNat_ofNat, Nat.mod_eq_of_lt (by omega)] at hmask
  change space.stackPages &&& 0xfffff000 = space.stackPages at hmask
  unfold stackEnd nbStackPages pageSize
  rw [hmask, if_pos (by omega)]
  omega

/-- The frames of a stack have room for the three words, and no other word is written. -/
theorem writeStack_of_ne {k : Nat} (hs : ssize ≤ ustackSzMax) (hst : Stacked space ssize)
    (hk : k * 4 + 12 < space.stackPages + nbStackPages ssize * 0x1000 ∨
      space.stackPages + nbStackPages ssize * 0x1000 ≤ k * 4) :
    writeStack space.stackPages ssize arg words k = words k := by
  have hal := hst.aligned
  have hlow := hst.low
  unfold writeStack
  simp only [stack_top hs hst]
  rw [Function.update_of_ne (by omega), Function.update_of_ne (by omega),
    Function.update_of_ne (by omega)]

theorem writeStack_arg (hs : ssize ≤ ustackSzMax) (hst : Stacked space ssize) :
    writeStack space.stackPages ssize arg words
      ((space.stackPages + nbStackPages ssize * 0x1000) / 4 - 1) = arg := by
  have hlow := hst.low
  unfold writeStack
  simp only [stack_top hs hst]
  rw [Function.update_of_ne (by omega), Function.update_of_ne (by omega)]
  exact Function.update_self ..

theorem readUser_arg (hs : ssize ≤ ustackSzMax) (hst : Stacked space ssize) (words : Words) :
    readUser space.dir words (userStackBegin + 4) = some (words
      (if realSize ssize % pageSize ≠ 0 then
        (space.stackPages + nbStackPages ssize * 0x1000) / 4 - 1
      else (space.stackPages + realSize ssize - 4) / 4)) := by
  obtain ⟨hreal, hssize⟩ := realSize_le hs
  have hal := hst.aligned
  have hphys := hst.physical (userStackBegin + 4) (by unfold userStackEnd userStackBegin; omega)
    (by decide)
  have haddr : (space.stackPages +
      (userStackBegin + 4 - (userStackEnd - realSize ssize) / 0x1000 * 0x1000)) / 4 =
      if realSize ssize % pageSize ≠ 0 then
        (space.stackPages + nbStackPages ssize * 0x1000) / 4 - 1
      else (space.stackPages + realSize ssize - 4) / 4 := by
    unfold userStackBegin userStackEnd nbStackPages pageSize
    split <;> omega
  unfold readUser
  rw [hphys, Option.bind_some, ← haddr]
  rfl

/-- The argument is where the process looks for it, unless the stack fills its pages: then it is
written one page too high. -/
theorem sees_stack (hs : ssize ≤ ustackSzMax) (h : m.startTask code ssize o = .ok m')
    (words : Words) (arg : BitVec 32) : ∃ space, m'.spaces m.fresh = some space ∧
      (SeesStack space.dir (writeStack space.stackPages ssize arg words) ssize arg ↔
        realSize ssize % pageSize ≠ 0 ∨ words ((space.stackPages + realSize ssize - 4) / 4) = arg) := by
  obtain ⟨space, hspace, hst⟩ := startTask_stacked hs h
  obtain ⟨hreal, hssize⟩ := realSize_le hs
  have hread := readUser_arg hs hst (writeStack space.stackPages ssize arg words)
  have hfull : ¬ realSize ssize % pageSize ≠ 0 →
      (space.stackPages + realSize ssize - 4) / 4 * 4 + 12 <
        space.stackPages + nbStackPages ssize * 0x1000 := by
    unfold nbStackPages pageSize
    omega
  have hbelow {v : Nat} (hv : userStackBegin - ssize * 4 ≤ v) (hv' : v < userStackBegin) :
      userStackEnd - realSize ssize ≤ v ∧ v < userStackEnd := by
    unfold userStackBegin at hv hv'
    unfold userStackEnd
    omega
  have hmapped : ∀ v, userStackBegin - ssize * 4 ≤ v → v < userStackBegin →
      ∃ addr, physical space.dir v = some (addr, ⟨true, true⟩) := fun v hv hv' =>
    ⟨_, hst.physical v (hbelow hv hv').1 (hbelow hv hv').2⟩
  have hapart : ∀ v w addr flags flags', userStackBegin - ssize * 4 ≤ v → v < userStackBegin →
      userStackBegin - ssize * 4 ≤ w → w < userStackBegin →
      physical space.dir v = some (addr, flags) → physical space.dir w = some (addr, flags') →
      v = w := by
    intro v w addr flags flags' hv hv' hw hw' hpv hpw
    obtain ⟨hv, hv'⟩ := hbelow hv hv'
    obtain ⟨hw, hw'⟩ := hbelow hw hw'
    have ha := congrArg (Option.map Prod.fst) (hpv.symm.trans (hst.physical v hv hv'))
    have hb := congrArg (Option.map Prod.fst) (hpw.symm.trans (hst.physical w hw hw'))
    simp only [Option.map_some, Option.some.injEq] at ha hb
    omega
  refine ⟨space, hspace, ⟨fun hsees => ?_, fun hcond => ⟨?_, hmapped, hapart⟩⟩⟩
  · by_cases hmod : realSize ssize % pageSize ≠ 0
    · exact Or.inl hmod
    · have heq := hsees.arg
      rw [hread, if_neg hmod, writeStack_of_ne hs hst (Or.inl (hfull hmod))] at heq
      exact Or.inr (Option.some.inj heq)
  · by_cases hmod : realSize ssize % pageSize ≠ 0
    · rw [hread, if_pos hmod, writeStack_arg hs hst]
    · rw [hread, if_neg hmod, writeStack_of_ne hs hst (Or.inl (hfull hmod)),
        hcond.resolve_left hmod]

def aMem : Mem := Mem.boot ⟨0x100000, fun _ => true⟩

theorem sees_stack_small : ∃ m' space, aMem.startTask 100 1000
      ⟨0x4000000, 0x4001000, [0x4002000], 0x4003000, [0x4004000]⟩ = .ok m' ∧
    m'.spaces 0 = some space ∧
    SeesStack space.dir (writeStack space.stackPages 1000 42#32 fun _ => 0#32) 1000 42#32 := by
  have hrun : Ends (aMem.startTask 100 1000
      ⟨0x4000000, 0x4001000, [0x4002000], 0x4003000, [0x4004000]⟩) fun m => m.fresh = 1 := by
    decide +kernel
  obtain ⟨m', hm', _⟩ := hrun.elim
  obtain ⟨space, hspace, hiff⟩ := sees_stack (by decide) hm' (fun _ => 0#32) 42#32
  exact ⟨m', space, hm', hspace, hiff.mpr (Or.inl (by decide))⟩

/-- A process whose stack has 1022 words reads 0 for its argument, which is 42. -/
theorem argument_lost : ∃ m' space, aMem.startTask 100 1022
      ⟨0x4000000, 0x4001000, [0x4002000], 0x4003000, [0x4005000]⟩ = .ok m' ∧
    m'.spaces 0 = some space ∧
    readUser space.dir (writeStack space.stackPages 1022 42#32 fun _ => 0#32)
      (userStackBegin + 4) = some 0#32 ∧
    ¬ SeesStack space.dir (writeStack space.stackPages 1022 42#32 fun _ => 0#32) 1022 42#32 := by
  have hrun : Ends (aMem.startTask 100 1022
      ⟨0x4000000, 0x4001000, [0x4002000], 0x4003000, [0x4005000]⟩) fun m =>
      ∀ space, m.spaces 0 = some space →
        readUser space.dir (writeStack space.stackPages 1022 42#32 fun _ => 0#32)
          (userStackBegin + 4) = some 0#32 := by
    decide +kernel
  obtain ⟨m', hm', hread⟩ := hrun.elim
  obtain ⟨space, hspace, _⟩ := startTask_stacked (by decide) hm'
  refine ⟨m', space, hm', hspace, hread space hspace, fun hsees => ?_⟩
  have h := (hread space hspace).symm.trans hsees.arg
  exact absurd h (by decide)

end DominOS.AddressSpaces
