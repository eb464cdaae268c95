import DominOS.Cga
import Mathlib.Data.List.TakeWhile
import Mathlib.Tactic.Common

/-! The console against its terminal: what one byte does to both, and then any number of calls. -/
namespace DominOS.Cga
open ByteMemory

variable {k k' : Console} {t t' : Terminal} {o : Option Console} {c color : Byte}

def drawn (color c : Byte) : Byte := color ||| if c.msb then 0xFF else 0

theorem color_word : ∀ color : Byte, (color.setWidth 16 <<< 8).setWidth 8 = 0#8 ∧
    (color.setWidth 16 <<< 8 >>> 8).setWidth 8 = color := by decide +kernel

theorem char_word : ∀ c : Byte, (c.signExtend 16).setWidth 8 = c ∧
    (c.signExtend 16 >>> 8).setWidth 8 = if c.msb then 0xFF#8 else 0#8 := by decide +kernel

theorem cellWord_low (c color : Byte) : (Console.cellWord c color).setWidth 8 = c := by
  unfold Console.cellWord
  rw [BitVec.setWidth_or, (color_word color).1, (char_word c).1, BitVec.zero_or]

theorem cellWord_high (c color : Byte) :
    (Console.cellWord c color >>> 8).setWidth 8 = drawn color c := by
  unfold Console.cellWord drawn
  rw [BitVec.ushiftRight_or_distrib, BitVec.setWidth_or, (color_word color).2, (char_word c).2]
  rfl

theorem Console.terminal_eq (h : k.Inside) (hline : k.curLine.toNat = t.line)
    (hcolumn : k.curColumn.toNat = t.column) (hcolor : k.globalColor = t.color)
    (hcell : ∀ (l : Fin 25) (c : Fin 80), k.cell l c = t.screen l c) : k.terminal h = t := by
  apply Terminal.ext
  · funext l c
    exact hcell l c
  · exact Fin.ext hline
  · exact Fin.ext hcolumn
  · exact hcolor

theorem shows_self (h : k.Inside) : Shows (some k) (k.terminal h) := ⟨k, rfl, h, rfl⟩

theorem Shows.bind {f : Console → Option Console} (h : Shows o t)
    (hf : ∀ k (hk : k.Inside), k.terminal hk = t → Shows (f k) t') :
    Shows (o.bind f) t' := by
  obtain ⟨k, rfl, hk, ht⟩ := h
  exact hf k hk ht

theorem Shows.map {f : Console → Console} (h : Shows o t)
    (hf : ∀ k (hk : k.Inside), k.terminal hk = t → Shows (some (f k)) t') :
    Shows (o.map f) t' := by
  obtain ⟨k, rfl, hk, ht⟩ := h
  exact hf k hk ht

section Cells

theorem cell_holds (l : Fin 25) (c : Fin 80) : video.Holds (ptrMem l c) 2 := by
  simp only [Window.Holds, video, ptrMem, baseMemAddr, numberLine, numberColumn]
  omega

theorem ptrMem_inj {l l' c c' : Nat} (hc : c < 80) (hc' : c' < 80) (h : ptrMem l c = ptrMem l' c') :
    l = l' ∧ c = c' := by
  unfold ptrMem baseMemAddr numberColumn at h
  omega

theorem cell_set (m : Memory) (v : BitVec 16) (l l' : Fin 25) (c c' : Fin 80) :
    (⟨Function.update (Function.update m (ptrMem l c) (v.setWidth 8)) (ptrMem l c + 1)
        ((v >>> 8).setWidth 8) (ptrMem l' c'),
      Function.update (Function.update m (ptrMem l c) (v.setWidth 8)) (ptrMem l c + 1)
        ((v >>> 8).setWidth 8) (ptrMem l' c' + 1)⟩ : Cell) =
    if l' = l ∧ c' = c then ⟨v.setWidth 8, (v >>> 8).setWidth 8⟩
    else ⟨m (ptrMem l' c'), m (ptrMem l' c' + 1)⟩ := by
  have heven : ptrMem l' c' ≠ ptrMem l c + 1 ∧ ptrMem l' c' + 1 ≠ ptrMem l c := by
    unfold ptrMem baseMemAddr
    omega
  split
  · rename_i h
    rw [h.1, h.2, Function.update_self, Function.update_of_ne (by omega), Function.update_self]
  · rename_i h
    have hne : ptrMem l' c' ≠ ptrMem l c := by
      intro he
      obtain ⟨hl, hc⟩ := ptrMem_inj c'.isLt c.isLt he
      exact h ⟨Fin.ext hl, Fin.ext hc⟩
    rw [Function.update_of_ne heven.1, Function.update_of_ne hne,
      Function.update_of_ne (by omega), Function.update_of_ne heven.2]

theorem Terminal.set_screen (t : Terminal) (x : Cell) (l : Fin 25) (c : Fin 80) :
    (t.set x).screen l c = if l = t.line ∧ c = t.column then x else t.screen l c := by
  unfold Terminal.set
  simp only
  by_cases hl : l = t.line
  · subst hl
    by_cases hc : c = t.column
    · simp [hc]
    · simp [hc]
  · simp [hl]

theorem draw_cursor (h : k.Inside) (v : BitVec 16) :
    Shows (k.draw (store16 video (ptrMem k.curLine.toNat k.curColumn.toNat) v))
      ((k.terminal h).set ⟨v.setWidth 8, (v >>> 8).setWidth 8⟩) := by
  have hholds := cell_holds ⟨k.curLine.toNat, h.line⟩ ⟨k.curColumn.toNat, h.column⟩
  unfold Console.draw
  rw [store16_eq hholds, Option.map_some]
  refine ⟨_, rfl, ⟨h.line, h.column⟩, ?_⟩
  apply Console.terminal_eq
  · rfl
  · rfl
  · rfl
  · intro l c
    rw [Terminal.set_screen]
    exact cell_set k.memory v ⟨_, h.line⟩ l ⟨_, h.column⟩ c

theorem cell_blank (m : Memory) {a n : Nat} (l : Fin 25) (c : Fin 80) (heven : ptrMem l c % 2 = a % 2) :
    (⟨filled whiteOnBlack n a m (ptrMem l c), filled whiteOnBlack n a m (ptrMem l c + 1)⟩ : Cell) =
      if a ≤ ptrMem l c ∧ ptrMem l c < a + 2 * n then blank
      else ⟨m (ptrMem l c), m (ptrMem l c + 1)⟩ := by
  have hlow : whiteOnBlack.setWidth 8 = (0 : Byte) := by decide
  have hhigh : (whiteOnBlack >>> 8).setWidth 8 = (0x0F : Byte) := by decide
  unfold filled blank
  split
  · rename_i hin
    rw [if_pos (by omega), if_pos (by omega), if_neg (by omega), hlow, hhigh]
  · rename_i hout
    rw [if_neg (by omega)]

theorem clearScreen_shows (h : k.Inside) :
    Shows k.clearScreen { k.terminal h with screen := fun _ _ => blank } := by
  have hholds : video.Holds (ptrMem 0 0) (2 * (numberColumn * numberLine)) := by decide
  unfold Console.clearScreen Console.draw
  rw [fill16_eq hholds, Option.map_some]
  refine ⟨_, rfl, ⟨h.line, h.column⟩, ?_⟩
  apply Console.terminal_eq
  · rfl
  · rfl
  · rfl
  · intro l c
    have hin : ptrMem 0 0 ≤ ptrMem l c ∧
        ptrMem l c < ptrMem 0 0 + 2 * (numberColumn * numberLine) := by
      unfold ptrMem baseMemAddr numberColumn numberLine
      omega
    refine (cell_blank k.memory l c ?_).trans (if_pos hin)
    unfold ptrMem baseMemAddr
    omega

theorem scrollScreen_shows (h : k.Inside) : Shows k.scrollScreen (k.terminal h).scroll := by
  have hmove : video.Holds baseMemAddr (2 * (numberLine - 1) * numberColumn) := by decide
  have hfill : video.Holds (ptrMem (numberLine - 1) 0) (2 * numberColumn) := by decide
  unfold Console.scrollScreen Console.draw
  rw [memmove_eq hmove, Option.map_some, Option.bind_some, fill16_eq hfill, Option.map_some]
  refine ⟨_, rfl, ⟨h.line, h.column⟩, ?_⟩
  apply Console.terminal_eq
  · rfl
  · rfl
  · rfl
  · intro l c
    refine (cell_blank _ l c ?_).trans ?_
    · unfold ptrMem baseMemAddr numberColumn numberLine
      omega
    unfold Terminal.scroll
    simp only
    by_cases hl : l.val + 1 < 25
    · have hout : ¬ (ptrMem (numberLine - 1) 0 ≤ ptrMem l c ∧
          ptrMem l c < ptrMem (numberLine - 1) 0 + 2 * numberColumn) := by
        unfold ptrMem baseMemAddr numberColumn numberLine
        omega
      have hmoved : ∀ i, i < 2 → copied baseMemAddr (ptrMem 1 0)
          (2 * (numberLine - 1) * numberColumn) k.memory (ptrMem l c + i) =
            k.memory (ptrMem (l + 1) c + i) := by
        intro i hi
        unfold copied
        rw [if_pos (by unfold ptrMem baseMemAddr numberColumn numberLine; omega)]
        apply congrArg
        unfold ptrMem baseMemAddr numberColumn
        omega
      rw [dif_pos hl]
      refine (if_neg hout).trans ?_
      exact congrArg₂ Cell.mk (hmoved 0 (by omega)) (hmoved 1 (by omega))
    · have hin : ptrMem (numberLine - 1) 0 ≤ ptrMem l c ∧
          ptrMem l c < ptrMem (numberLine - 1) 0 + 2 * numberColumn := by
        unfold ptrMem baseMemAddr numberColumn numberLine
        omega
      rw [dif_neg hl]
      exact if_pos hin

end Cells

section Putchar

theorem scrollCase_inside (h : k.Inside) : k.scrollCase = some k := by
  have hne : k.curLine ≠ 25 := by
    intro he
    have := h.line
    rw [he] at this
    exact absurd this (by decide)
  exact if_neg hne

theorem scrollScreen_line (k : Console) (line : Byte) :
    Console.scrollScreen { k with curLine := line } =
      k.scrollScreen.map fun k => { k with curLine := line } := by
  unfold Console.scrollScreen Console.draw
  cases memmove video baseMemAddr (ptrMem 1 0) (2 * (numberLine - 1) * numberColumn) k.memory with
  | none => rfl
  | some m =>
    simp only [Option.map_some, Option.bind_some]
    cases fill16 video whiteOnBlack numberColumn (ptrMem (numberLine - 1) 0) m with
    | none => rfl
    | some m' => rfl

theorem toNat_succ {x : Byte} (h : x.toNat < 80) : (x + 1).toNat = x.toNat + 1 := by
  rw [BitVec.toNat_add_of_lt (by simp; omega)]
  rfl

theorem toNat_pred {x : Byte} (h : x ≠ 0) : (x - 1).toNat = x.toNat - 1 := by
  have hpos : x.toNat ≠ 0 := fun hz => h (BitVec.eq_of_toNat_eq hz)
  rw [BitVec.toNat_sub_of_le (by rw [BitVec.le_def]; simp; omega)]
  rfl

theorem scrollCase_below (h : k.Inside) :
    Shows (Console.scrollCase { k with curLine := k.curLine + 1 })
      (k.terminal h).lineFeed := by
  have hline := h.line
  have hsucc := toNat_succ (x := k.curLine) (by omega)
  unfold Console.scrollCase Terminal.lineFeed
  by_cases hlast : k.curLine.toNat + 1 < 25
  · have hne : k.curLine + 1 ≠ 25 := by
      intro he
      have := congrArg BitVec.toNat he
      rw [hsucc] at this
      exact absurd this (Nat.ne_of_lt hlast)
    rw [dif_pos (show (k.terminal h).line.val + 1 < 25 from hlast), if_neg hne]
    refine ⟨_, rfl, ⟨by simp only [hsucc]; exact hlast, h.column⟩, ?_⟩
    exact Console.terminal_eq _ hsucc rfl rfl fun _ _ => rfl
  · have heq : k.curLine + 1 = 25 := by
      apply BitVec.eq_of_toNat_eq
      rw [hsucc]
      show _ = 25
      omega
    rw [dif_neg (show ¬ (k.terminal h).line.val + 1 < 25 from hlast), if_pos heq,
      scrollScreen_line, Option.map_map]
    apply Shows.map (scrollScreen_shows h)
    intro k' hk' ht
    have hback : k.curLine + 1 - 1 = k.curLine := by rw [BitVec.add_sub_cancel]
    refine ⟨_, rfl, ⟨?_, hk'.column⟩, ?_⟩
    · simp only [Function.comp_apply, hback]
      exact h.line
    · rw [← ht]
      apply Console.terminal_eq
      · have := congrArg (fun t => t.line.val) ht
        simp only [Function.comp_apply, hback]
        exact this.symm
      · rfl
      · rfl
      · exact fun _ _ => rfl

theorem Shows.settled (h : Shows o t) : Shows (o.bind Console.scrollCase) t := by
  apply Shows.bind h
  intro k hk ht
  rw [scrollCase_inside hk, ← ht]
  exact shows_self hk

theorem column_shows (h : k.Inside) {x : Byte} {column : Fin 80} (hx : x.toNat = column) :
    Shows (some { k with curColumn := x }) { k.terminal h with column := column } := by
  refine ⟨_, rfl, ⟨h.line, by simp only [hx]; exact column.isLt⟩, ?_⟩
  exact Console.terminal_eq _ rfl hx rfl fun _ _ => rfl

theorem scrollCase_return (h : k.Inside) :
    Shows (Console.scrollCase { k with curLine := k.curLine + 1, curColumn := 0 })
      (k.terminal h).newline :=
  scrollCase_below (k := { k with curColumn := 0 }) ⟨h.line, Nat.zero_lt_succ _⟩

theorem tab_column : ∀ x : Byte, x.toNat < 80 →
    (if x &&& 0b11111000 = 72 then 79 else x &&& 0b11111000 ||| 0b111 : Byte).toNat =
      x.toNat / 8 * 8 + 7 := by decide +kernel

theorem left_shows (h : k.Inside) :
    Shows (some (if k.curColumn ≠ 0 then { k with curColumn := k.curColumn - 1 } else k))
      (k.terminal h).left := by
  split
  · rename_i hne
    exact column_shows h (toNat_pred hne)
  · rename_i hzero
    have hnat : k.curColumn.toNat = 0 := by rw [not_not.mp hzero]; rfl
    refine ⟨k, rfl, h, ?_⟩
    apply Console.terminal_eq
    · rfl
    · show _ = k.curColumn.toNat - 1
      omega
    · rfl
    · exact fun _ _ => rfl

theorem back_shows (h : k.Inside) :
    Shows (some (if k.curColumn ≠ 0 then { k with curColumn := k.curColumn - 1 }
      else if 0 < k.curLine then { k with curLine := k.curLine - 1, curColumn := 79 } else k))
      (k.terminal h).back := by
  have hleft := left_shows h
  have hline := h.line
  unfold Terminal.back
  by_cases hcolumn : k.curColumn ≠ 0
  · have hnat : k.curColumn.toNat ≠ 0 := fun hz => hcolumn (BitVec.eq_of_toNat_eq hz)
    rw [if_pos hcolumn] at hleft ⊢
    rw [if_neg (fun he => hnat he.1)]
    exact hleft
  have hnat : k.curColumn.toNat = 0 := by rw [not_not.mp hcolumn]; rfl
  rw [if_neg hcolumn] at hleft ⊢
  by_cases hup : 0 < k.curLine
  · have hpos : 0 < k.curLine.toNat := hup
    have hne : k.curLine ≠ 0 := by
      intro he
      rw [he] at hpos
      exact Nat.lt_irrefl 0 hpos
    have hpred := toNat_pred hne
    rw [if_pos hup, if_pos ⟨hnat, Nat.ne_of_gt hpos⟩]
    refine ⟨_, rfl, ⟨by simp only [hpred]; omega, Nat.lt_succ_self 79⟩, ?_⟩
    exact Console.terminal_eq _ hpred rfl rfl fun _ _ => rfl
  · have hzero : k.curLine.toNat = 0 := Nat.eq_zero_of_not_pos hup
    rw [if_neg hup, if_neg (fun he => he.2 hzero)]
    exact hleft

theorem advance_shows (h : k.Inside) :
    Shows (Console.scrollCase (if k.curColumn = 79 then
      { k with curLine := k.curLine + 1, curColumn := 0 } else { k with curColumn := k.curColumn + 1 }))
      (k.terminal h).advance := by
  have hcolumn := h.column
  have hsucc := toNat_succ hcolumn
  unfold Terminal.advance
  by_cases hlast : k.curColumn = 79
  · have hnat : k.curColumn.toNat = 79 := by rw [hlast]; rfl
    have hout : ¬ (k.terminal h).column.val + 1 < 80 := by
      show ¬ k.curColumn.toNat + 1 < 80
      omega
    rw [if_pos hlast, dif_neg hout]
    exact scrollCase_return h
  · have hnat : k.curColumn.toNat ≠ 79 := fun he => hlast (BitVec.eq_of_toNat_eq he)
    have hin : (k.terminal h).column.val + 1 < 80 := by
      show k.curColumn.toNat + 1 < 80
      omega
    rw [if_neg hlast, dif_pos hin]
    exact (column_shows h hsucc).settled

theorem consolePutchar_shows (h : k.Inside) (c : Byte) :
    Shows (k.consolePutchar c) ((k.terminal h).put drawn c) := by
  unfold Console.consolePutchar Console.putcharCase Terminal.put
  by_cases hbs : c = bs
  · rw [if_pos hbs, if_pos hbs]
    exact (left_shows h).settled
  rw [if_neg hbs, if_neg hbs]
  by_cases htab : c = tab
  · rw [if_pos htab, if_pos htab]
    exact (column_shows h (tab_column _ h.column)).settled
  rw [if_neg htab, if_neg htab]
  by_cases hnl : c = nl
  · rw [if_pos hnl, if_pos hnl, Option.bind_some]
    exact scrollCase_return h
  rw [if_neg hnl, if_neg hnl]
  by_cases hff : c = ff
  · rw [if_pos hff, if_pos hff]
    apply Shows.settled
    apply Shows.map (clearScreen_shows h)
    intro k' hk' ht
    refine ⟨_, rfl, ⟨Nat.zero_lt_succ _, Nat.zero_lt_succ _⟩, ?_⟩
    apply Console.terminal_eq
    · rfl
    · rfl
    · exact congrArg Terminal.color ht
    · intro l c
      exact congrArg (fun t => t.screen l c) ht
  rw [if_neg hff, if_neg hff]
  by_cases hcr : c = cr
  · rw [if_pos hcr, if_pos hcr]
    exact (column_shows h rfl).settled
  rw [if_neg hcr, if_neg hcr]
  by_cases hdel : c = del
  · rw [if_pos hdel, if_pos hdel]
    apply Shows.settled
    apply Shows.bind (f := fun k => k.draw (store16 video
      (ptrMem k.curLine.toNat k.curColumn.toNat) whiteOnBlack)) (back_shows h)
    intro k' hk' ht
    rw [← ht]
    exact draw_cursor hk' whiteOnBlack
  rw [if_neg hdel, if_neg hdel]
  have hword := draw_cursor h (Console.cellWord c k.globalColor)
  rw [cellWord_low, cellWord_high] at hword
  rw [Option.bind_map]
  apply Shows.bind hword
  intro k' hk' ht
  have hadvance := advance_shows hk'
  rw [ht] at hadvance
  exact hadvance

end Putchar

section Runs
variable {paint : Byte → Byte → Byte} {str : List Byte} {op : Op} {ops done : List Op}

theorem putAll_shows (h : k.Inside) (str : List Byte) :
    Shows (k.putAll str) (str.foldl (Terminal.put drawn) (k.terminal h)) := by
  induction str generalizing k with
  | nil => exact shows_self h
  | cons c str ih =>
    unfold Console.putAll
    rw [List.foldl_cons]
    apply Shows.bind (consolePutchar_shows h c)
    intro k' hk' ht
    rw [← ht]
    exact ih hk'

theorem strnlen_eq (h : 0 ∉ str) : Console.strnlen str = str.length := by
  unfold Console.strnlen
  apply congrArg List.length
  apply List.takeWhile_eq_self_iff.mpr
  intro c hc
  have hne : c ≠ 0 := fun he => h (he ▸ hc)
  simpa using hne

theorem exec_shows (h : k.Inside) (hop : NulFree [op]) :
    Shows (k.exec op) ((k.terminal h).exec drawn op) := by
  cases op with
  | consWrite str =>
    have hlen := strnlen_eq (hop str (List.mem_singleton_self _))
    show Shows (k.consWrite str) _
    unfold Console.consWrite
    rw [if_neg (fun hne => hne hlen.symm)]
    apply Shows.map (putAll_shows h str)
    intro k' hk' ht
    refine ⟨_, rfl, ⟨hk'.line, hk'.column⟩, ?_⟩
    rw [Terminal.exec, ← ht]
    exact Console.terminal_eq _ rfl rfl rfl fun _ _ => rfl
  | changeColor color =>
    refine ⟨_, rfl, ⟨h.line, h.column⟩, ?_⟩
    exact Console.terminal_eq _ rfl rfl rfl fun _ _ => rfl

theorem run_shows (h : k.Inside) (hops : NulFree ops) :
    Shows (k.run ops) ((k.terminal h).run drawn ops) := by
  induction ops generalizing k with
  | nil => exact shows_self h
  | cons op ops ih =>
    have hop : NulFree [op] := fun str hs => hops str (by simp_all)
    unfold Console.run Terminal.run
    rw [List.foldl_cons]
    apply Shows.bind (exec_shows h hop)
    intro k' hk' ht
    rw [← ht]
    exact ih hk' fun str hs => hops str (List.mem_cons_of_mem op hs)

theorem Shows.unique (h : Shows o t) (h' : Shows o t') : t = t' := by
  obtain ⟨k, rfl, hk, rfl⟩ := h
  obtain ⟨k', he, hk', rfl⟩ := h'
  cases he
  rfl

end Runs

section Attributes
variable {paint : Byte → Byte → Byte} {str : List Byte} {op : Op} {ops done : List Op}

theorem drawn_plain_iff : drawn color c = plain color c ↔ c.msb = false ∨ color = 0xFF := by
  unfold drawn plain
  cases hc : c.msb with
  | false => simp
  | true =>
    have hall : color ||| 0xFF#8 = 0xFF#8 := BitVec.or_allOnes
    rw [if_pos rfl]
    simp only [Bool.true_eq_false, false_or]
    exact ⟨fun h => h.symm.trans hall, fun h => hall.trans h.symm⟩

@[simp] theorem Terminal.lineFeed_color (t : Terminal) : t.lineFeed.color = t.color := by
  unfold Terminal.lineFeed
  split
  · rfl
  · rfl

@[simp] theorem Terminal.advance_color (t : Terminal) : t.advance.color = t.color := by
  unfold Terminal.advance
  split
  · rfl
  · exact lineFeed_color _

@[simp] theorem Terminal.back_color (t : Terminal) : t.back.color = t.color := by
  unfold Terminal.back
  split
  · rfl
  · rfl

theorem Terminal.put_color (paint : Byte → Byte → Byte) (t : Terminal) (c : Byte) :
    (t.put paint c).color = t.color := by
  unfold Terminal.put
  simp only [apply_ite Terminal.color, newline, Terminal.lineFeed_color, Terminal.advance_color]
  simp [Terminal.left, Terminal.tabulate, carriageReturn, clear, Terminal.set]

theorem Terminal.foldl_color (paint : Byte → Byte → Byte) (str : List Byte) (t : Terminal) :
    (str.foldl (put paint) t).color = t.color := by
  induction str generalizing t with
  | nil => rfl
  | cons c str ih => rw [List.foldl_cons, ih, put_color]

theorem Terminal.lineFeed_keeps (t : Terminal) :
    ∃ l, ∀ screen c, ({ t with screen := screen } : Terminal).lineFeed.screen l c = screen t.line c := by
  unfold Terminal.lineFeed
  by_cases h : t.line.val + 1 < 25
  · refine ⟨t.line, fun screen c => ?_⟩
    simp only [dif_pos h]
  · have hlt : t.line.val - 1 + 1 < 25 := by omega
    refine ⟨⟨t.line - 1, by omega⟩, fun screen c => ?_⟩
    simp only [dif_neg h, scroll, dif_pos hlt]
    congr 1
    apply Fin.ext
    show t.line.val - 1 + 1 = t.line.val
    omega

theorem Terminal.advance_shown (t : Terminal) : ∃ l, ∀ x, (t.set x).advance.screen l t.column = x := by
  by_cases h : t.column.val + 1 < 80
  · refine ⟨t.line, fun x => ?_⟩
    unfold advance
    rw [dif_pos (show (t.set x).column.val + 1 < 80 from h)]
    exact (set_screen t x t.line t.column).trans (if_pos ⟨rfl, rfl⟩)
  · obtain ⟨l, hl⟩ := lineFeed_keeps { t with column := 0 }
    refine ⟨l, fun x => ?_⟩
    unfold advance
    rw [dif_neg (show ¬ (t.set x).column.val + 1 < 80 from h)]
    exact (hl _ t.column).trans ((set_screen t x t.line t.column).trans (if_pos ⟨rfl, rfl⟩))

theorem Terminal.put_congr {paint paint' : Byte → Byte → Byte}
    (h : paint t.color c = paint' t.color c) : t.put paint c = t.put paint' c := by
  unfold Terminal.put
  rw [h]

theorem Terminal.put_drawn_iff (t : Terminal) (c : Byte) :
    t.put drawn c = t.put plain c ↔ c.msb = false ∨ t.color = 0xFF := by
  constructor
  · intro h
    by_cases hc : c.msb = false
    · exact .inl hc
    right
    have hprint : c ≠ bs ∧ c ≠ tab ∧ c ≠ nl ∧ c ≠ ff ∧ c ≠ cr ∧ c ≠ del := by
      refine ⟨?_, ?_, ?_, ?_, ?_, ?_⟩ <;>
      · rintro rfl
        exact hc rfl
    obtain ⟨hbs, htab, hnl, hff, hcr, hdel⟩ := hprint
    unfold Terminal.put at h
    simp only [if_neg hbs, if_neg htab, if_neg hnl, if_neg hff, if_neg hcr, if_neg hdel] at h
    obtain ⟨l, hl⟩ := t.advance_shown
    have hcell : (⟨c, drawn t.color c⟩ : Cell) = ⟨c, plain t.color c⟩ := by
      rw [← hl ⟨c, drawn t.color c⟩, h, hl]
    exact (drawn_plain_iff.mp (congrArg Cell.attr hcell)).resolve_left hc
  · exact fun h => put_congr (drawn_plain_iff.mpr h)

theorem Terminal.foldl_drawn (h : ∀ c ∈ str, c.msb = false ∨ t.color = 0xFF) :
    str.foldl (put drawn) t = str.foldl (put plain) t := by
  induction str generalizing t with
  | nil => rfl
  | cons c str ih =>
    rw [List.foldl_cons, List.foldl_cons, (put_drawn_iff t c).mpr (h c List.mem_cons_self)]
    apply ih
    intro x hx
    rw [put_color]
    exact h x (List.mem_cons_of_mem c hx)

theorem Terminal.run_drawn (h : Ascii t.color ops) : t.run drawn ops = t.run plain ops := by
  induction ops generalizing t with
  | nil => rfl
  | cons op ops ih =>
    unfold run
    rw [List.foldl_cons, List.foldl_cons]
    cases op with
    | consWrite str =>
      obtain ⟨hstr, hops⟩ := h
      simp only [exec]
      rw [foldl_drawn hstr]
      apply ih
      rw [foldl_color]
      exact hops
    | changeColor color => exact ih h

theorem Begins.cons (h : Begins done ops) (op : Op) : Begins (op :: done) (op :: ops) := by
  obtain hpre | ⟨pre, str, more, rfl, hpre⟩ := h
  · exact .inl (List.cons_prefix_cons.mpr ⟨rfl, hpre⟩)
  · exact .inr ⟨op :: pre, str, more, rfl, List.cons_prefix_cons.mpr ⟨rfl, hpre⟩⟩

theorem Begins.inv (h : Begins done (op :: ops)) :
    done = [] ∨ (∃ done', done = op :: done' ∧ Begins done' ops) ∨
      ∃ str more, done = [.consWrite str] ∧ op = .consWrite (str ++ more) := by
  obtain hpre | ⟨pre, str, more, rfl, hpre⟩ := h
  · cases done with
    | nil => exact .inl rfl
    | cons op' done =>
      obtain ⟨rfl, htail⟩ := List.cons_prefix_cons.mp hpre
      exact .inr (.inl ⟨done, rfl, .inl htail⟩)
  · cases pre with
    | nil => exact .inr (.inr ⟨str, more, rfl, (List.cons_prefix_cons.mp hpre).1.symm⟩)
    | cons op' pre =>
      obtain ⟨rfl, htail⟩ := List.cons_prefix_cons.mp hpre
      exact .inr (.inl ⟨_, rfl, .inr ⟨pre, str, more, rfl, htail⟩⟩)

theorem Begins.ascii (h : Begins done ops) (hascii : Ascii color ops) : Ascii color done := by
  induction ops generalizing done color with
  | nil =>
    obtain hpre | ⟨pre, str, more, rfl, hpre⟩ := h
    · rw [List.prefix_nil.mp hpre]
      trivial
    · simp at hpre
  | cons op ops ih =>
    obtain rfl | ⟨done', rfl, hdone⟩ | ⟨str, more, rfl, rfl⟩ := h.inv
    · trivial
    · cases op with
      | consWrite str => exact ⟨hascii.1, ih hdone hascii.2⟩
      | changeColor x => exact (ih hdone hascii : Ascii x done')
    · exact ⟨fun c hc => hascii.1 c (List.mem_append_left more hc), trivial⟩

theorem begins_string (str more : List Byte) (ops : List Op) :
    Begins [.consWrite str] (.consWrite (str ++ more) :: ops) :=
  .inr ⟨[], str, more, rfl, List.prefix_append _ _⟩

theorem Begins.nulFree (h : Begins done ops) (hops : NulFree ops) : NulFree done := by
  obtain hpre | ⟨pre, str, more, rfl, hpre⟩ := h
  · exact fun s hs => hops s (hpre.subset hs)
  · intro s hs
    obtain hs | hs := List.mem_append.mp hs
    · exact hops s (hpre.subset (List.mem_append_left _ hs))
    · cases List.mem_singleton.mp hs
      have hmem := hops _ (hpre.subset (List.mem_append_right _ (List.mem_singleton_self _)))
      exact fun hz => hmem (List.mem_append_left _ hz)

theorem Terminal.ascii_of_run (h : ∀ done, Begins done ops → t.run drawn done = t.run plain done) :
    Ascii t.color ops := by
  induction ops generalizing t with
  | nil => trivial
  | cons op ops ih =>
    cases op with
    | changeColor color => exact ih (t := { t with color := color }) fun done hdone => h _ (hdone.cons _)
    | consWrite str =>
      have hpart : ∀ pre more, str = pre ++ more → pre.foldl (put drawn) t = pre.foldl (put plain) t := by
        rintro pre more rfl
        exact h _ (begins_string pre more ops)
      have hall := hpart str [] (by simp)
      refine ⟨fun c hc => ?_, ?_⟩
      · obtain ⟨pre, more, rfl⟩ := List.append_of_mem hc
        have hbefore := hpart pre (c :: more) rfl
        have hafter := hpart (pre ++ [c]) more (by simp)
        simp only [List.foldl_append, List.foldl_cons, List.foldl_nil, hbefore] at hafter
        rw [put_drawn_iff, foldl_color] at hafter
        exact hafter
      · have htail := ih (t := str.foldl (put plain) t) fun done hdone => by
          have hrun := h _ (hdone.cons (.consWrite str))
          unfold run at hrun ⊢
          simp only [List.foldl_cons, exec] at hrun
          rw [hall] at hrun
          exact hrun
        rw [foldl_color] at htail
        exact htail

end Attributes

/-- Whatever bytes are written in whatever colors, all stores go to cells and the cursor stays on the
screen; the screen is the terminal's at every moment exactly when bytes with the high bit are only
written in color 0xFF, since the others lose their color to the sign of the character. -/
theorem console_refines (k : Console) (h : k.Inside) (ops : List Op) (hops : NulFree ops) :
    (∃ k', k.run ops = some k' ∧ k'.Inside) ∧
      ((∀ done, Begins done ops → Shows (k.run done) ((k.terminal h).run plain done)) ↔
        Ascii k.globalColor ops) := by
  refine ⟨?_, ?_, ?_⟩
  · obtain ⟨k', hk, hin, -⟩ := run_shows h hops
    exact ⟨k', hk, hin⟩
  · intro hshows
    apply Terminal.ascii_of_run (t := k.terminal h)
    intro done hdone
    exact (run_shows h (hdone.nulFree hops)).unique (hshows done hdone)
  · intro hascii done hdone
    have hdrawn := run_shows h (hdone.nulFree hops)
    rw [Terminal.run_drawn (t := k.terminal h) (hdone.ascii hascii)] at hdrawn
    exact hdrawn

def boot : Console := ⟨fun _ => 0, 0, 0, 0x0F, fun _ => 0⟩

theorem boot_inside : boot.Inside := ⟨by decide, by decide⟩

theorem console_refines_abc :
    (∃ k', boot.run [.consWrite [97, 98, 99]] = some k' ∧ k'.Inside) ∧
      ((∀ done, Begins done [.consWrite [97, 98, 99]] →
        Shows (boot.run done) ((boot.terminal boot_inside).run plain done)) ↔
          Ascii boot.globalColor [.consWrite [97, 98, 99]]) :=
  console_refines boot boot_inside [.consWrite [97, 98, 99]] (by
    intro str hs
    cases List.mem_singleton.mp hs
    decide)

/-- A byte of 0xE9 in white on black comes out in white on white, and blinking. -/
theorem high_byte_colored :
    (boot.run [.consWrite [0xE9]]).map (fun k => k.cell 0 0) = some ⟨0xE9, 0xFF⟩ ∧
      ((boot.terminal boot_inside).run plain [.consWrite [0xE9]]).screen 0 0 = ⟨0xE9, 0x0F⟩ ∧
      ¬ Shows (boot.run [.consWrite [0xE9]])
        ((boot.terminal boot_inside).run plain [.consWrite [0xE9]]) := by
  have hcode : (boot.run [.consWrite [0xE9]]).map (fun k => k.cell 0 0) = some ⟨0xE9, 0xFF⟩ := by
    decide +kernel
  have hplain : ((boot.terminal boot_inside).run plain [.consWrite [0xE9]]).screen 0 0 =
      ⟨0xE9, 0x0F⟩ := by decide +kernel
  refine ⟨hcode, hplain, ?_⟩
  rintro ⟨k, hk, hin, ht⟩
  rw [hk] at hcode
  have hcell := congrArg (fun t => t.screen 0 0) ht
  rw [hplain] at hcell
  exact absurd ((Option.some.inj hcode).symm.trans hcell) (by decide)

end DominOS.Cga
