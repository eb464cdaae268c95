import DominOS.DoprntSpec
import Mathlib.Algebra.Order.Ring.Int

/-! What `_doprnt` puts out for a format is what its items show, one after the other. -/
namespace DominOS.Doprnt
open NumberText
variable {b n : Nat} {u : BitVec 32} {rest : List Byte} {f : Style} {args : List Arg}

theorem wrap_eq {x : Int} (h : -2 ^ 31 ≤ x) (h' : x < 2 ^ 31) : wrap x = x := by
  unfold wrap
  exact Int.bmod_eq_of_le (by omega) (by omega)

theorem digs_get : ∀ d < 16, digs[d]? = some (digitChar d) := by decide

theorem toNat_base (hb : b ≤ 16) : (BitVec.ofNat 32 b).toNat = b := by
  rw [BitVec.toNat_ofNat]
  omega

theorem base_ne_zero (hb : 1 < b) (hb' : b ≤ 16) : BitVec.ofNat 32 b ≠ 0 := by
  intro h
  have := toNat_base hb'
  rw [h] at this
  simp at this
  omega

theorem quotient_ne_zero (hb : 1 < b) (hb' : b ≤ 16) : u / BitVec.ofNat 32 b ≠ 0 ↔ b ≤ u.toNat := by
  have hdiv : (u / BitVec.ofNat 32 b).toNat = u.toNat / b := by
    rw [BitVec.toNat_udiv, toNat_base hb']
  rw [Ne, BitVec.toNat_eq, hdiv]
  simp only [BitVec.ofNat_eq_ofNat, BitVec.toNat_ofNat, Nat.zero_mod, Nat.div_eq_zero_iff]
  omega

theorem build_eq (hb : 1 < b) (hb' : b ≤ 16) {room : Nat} (p : List Byte)
    (h : (digitsOf b u.toNat).length ≤ room) :
    build room u (BitVec.ofNat 32 b) p = some (numeral b u.toNat ++ p) := by
  induction room generalizing u p with
  | zero =>
    have := List.length_pos_of_ne_nil (digitsOf_ne_nil (b := b) (n := u.toNat))
    omega
  | succ room ih =>
    have hchar : digs[(u % BitVec.ofNat 32 b).toNat]? = some (digitChar (u.toNat % b)) := by
      have := Nat.mod_lt u.toNat (show 0 < b by omega)
      rw [BitVec.toNat_umod, toNat_base hb']
      exact digs_get _ (by omega)
    have hdiv : (u / BitVec.ofNat 32 b).toNat = u.toNat / b := by
      rw [BitVec.toNat_udiv, toNat_base hb']
    unfold build
    rw [if_neg (base_ne_zero hb hb'), hchar]
    simp only [Option.bind_eq_bind, Option.bind_some]
    by_cases hge : b ≤ u.toNat
    · have hsplit : digitsOf b u.toNat = digitsOf b (u.toNat / b) ++ [u.toNat % b] :=
        digitsOf_ge hb hge
      have hroom : (digitsOf b (u / BitVec.ofNat 32 b).toNat).length ≤ room := by
        rw [hsplit, List.length_append, List.length_singleton] at h
        rw [hdiv]
        omega
      rw [if_pos ((quotient_ne_zero hb hb').mpr hge), ih _ hroom, hdiv]
      unfold numeral
      rw [hsplit]
      simp
    · have hlt : u.toNat < b := by omega
      rw [if_neg (mt (quotient_ne_zero hb hb').mp hge), Nat.mod_eq_of_lt hlt]
      unfold numeral
      rw [digitsOf_lt hlt]
      rfl

theorem numeral_length_le (hb : 1 < b) (u : BitVec 32) : (numeral b u.toNat).length ≤ maxbuf := by
  have hlt : u.toNat < b ^ maxbuf := u.isLt.trans_le (Nat.pow_le_pow_left hb 32)
  unfold numeral
  rw [List.length_map]
  exact length_digitsOf_le hb (by decide) hlt

theorem printnum_eq (hb : 1 < b) (hb' : b ≤ 16) (u : BitVec 32) :
    printnum u (BitVec.ofNat 32 b) = some (numeral b u.toNat) := by
  have hroom : (digitsOf b u.toNat).length ≤ maxbuf := by
    have := numeral_length_le hb u
    unfold numeral at this
    rwa [List.length_map] at this
  unfold printnum
  rw [build_eq hb hb' [] hroom, List.append_nil]

/-! The text between a `%` and the conversion. -/

theorem isdigit_digitChar : ∀ d < 10, isdigit (digitChar d) = true := by decide

theorem ctod_digitChar : ∀ d < 10, ctod (digitChar d) = d := by decide

def decimal (c : Byte) : Option Nat := if isdigit c then some (ctod c).toNat else none

theorem ctod_isdigit : ∀ c : Byte, isdigit c = true → ((ctod c).toNat : Int) = ctod c := by decide

theorem number_eq_scan (fmt : List Byte) (v : Int) :
    number fmt v = ((scan decimal (fun n (d : Nat) => wrap (10 * n + d)) v fmt).2,
      (scan decimal (fun n (d : Nat) => wrap (10 * n + d)) v fmt).1) := by
  induction fmt generalizing v with
  | nil => rfl
  | cons c fmt ih =>
    unfold number scan decimal
    by_cases hc : isdigit c
    · rw [if_pos hc, if_pos hc]
      dsimp only
      rw [ih, ctod_isdigit c hc]
      rfl
    · rw [if_neg hc, if_neg hc]

theorem foldl_wrap (v : Nat) (ds : List Nat) (h : valueFrom 10 v ds < 2 ^ 31) :
    ds.foldl (fun n (d : Nat) => wrap (10 * n + d)) (v : Int) = valueFrom 10 v ds := by
  induction ds generalizing v with
  | nil => rfl
  | cons d ds ih =>
    have hle : v * 10 + d ≤ valueFrom 10 v (d :: ds) := le_valueFrom (by decide) _ ds
    have hwrap : wrap (10 * v + d) = ((v * 10 + d : Nat) : Int) := by
      rw [wrap_eq (by omega) (by omega)]
      push_cast
      ring
    rw [List.foldl_cons, hwrap]
    exact ih _ h

theorem number_numeral (hn : n < 2 ^ 31) (hrest : isdigit (peek rest) = false) :
    number (numeral 10 n ++ rest) 0 = (rest, (n : Int)) := by
  have hdigits : ∀ d ∈ digitsOf 10 n, decimal (digitChar d) = some d := by
    intro d hd
    have hlt : d < 10 := mem_digitsOf (by decide) hd
    unfold decimal
    rw [if_pos (isdigit_digitChar d hlt), ctod_digitChar d hlt, Int.toNat_natCast]
  have hstops : Stops decimal rest := by
    intro c hc
    have hpeek : peek rest = c := by
      unfold peek
      rw [List.headD_eq_head?_getD, hc]
      rfl
    unfold decimal
    rw [← hpeek, hrest]
    rfl
  have hfold := foldl_wrap 0 (digitsOf 10 n) (by rwa [valueFrom_digitsOf])
  rw [number_eq_scan, numeral, scan_map hdigits hstops]
  rw [Nat.cast_zero, valueFrom_digitsOf] at hfold
  rw [hfold]

theorem peek_numeral (n : Nat) (rest : List Byte) : ∃ d < 10, peek (numeral 10 n ++ rest) = digitChar d ∧ (n ≠ 0 → d ≠ 0) := by
  obtain ⟨d, ds, hds⟩ := List.exists_cons_of_ne_nil (digitsOf_ne_nil (b := 10) (n := n))
  have hlt : d < 10 := mem_digitsOf (n := n) (by decide) (by rw [hds]; exact List.mem_cons_self)
  refine ⟨d, hlt, by rw [numeral, hds]; rfl, fun hn => ?_⟩
  exact digitsOf_head hn (by rw [hds]; rfl)

theorem isdigit_numeral : isdigit (peek (numeral 10 n ++ rest)) = true := by
  obtain ⟨d, hlt, hpeek, -⟩ := peek_numeral n rest
  rw [hpeek]
  exact isdigit_digitChar d hlt

def special : List Byte := text "#-+ 0123456789*.l"

@[simp] theorem peek_cons (c : Byte) (p : List Byte) : peek (c :: p) = c := rfl

def Follows (s : String) (p : List Byte) : Prop := peek p ∈ text s ∨ peek p ∉ special

namespace Style

def longText (f : Style) : List Byte := if f.long then [ch 'l'] else []

def zeroText (f : Style) : List Byte := if f.zero then [ch '0'] else []

theorem text_append : f.text ++ rest = f.flags.map Flag.char ++
    (f.zeroText ++ (f.widthText ++ (f.precText ++ (f.longText ++ rest)))) := by
  unfold text zeroText longText
  simp only [List.append_assoc]

end Style

theorem Follows.mono {s t : String} (h : Follows s rest) (hst : text s ⊆ text t) : Follows t rest :=
  h.imp (fun hin => hst hin) id

theorem follows_cons {s : String} {c : Byte} (hc : c ∈ text s) : Follows s (c :: rest) := .inl hc

theorem follows_long (h : peek rest ∉ special) : Follows "l" (f.longText ++ rest) := by
  unfold Style.longText
  split
  · exact follows_cons (by decide)
  · exact .inr h

theorem follows_prec (h : Follows "l" rest) : Follows ".l" (f.precText ++ rest) := by
  unfold Style.precText
  cases f.prec with
  | none => exact h.mono (by decide)
  | some n => exact follows_cons (by decide)

theorem digitChar_mem : ∀ d < 10, d ≠ 0 → digitChar d ∈ text "123456789*.l" := by decide

theorem follows_width (h : Follows ".l" rest) : Follows "123456789*.l" (f.widthText ++ rest) := by
  unfold Style.widthText Count.text
  split
  · exact h.mono (by decide)
  · rename_i hne
    split
    · exact follows_cons (by decide)
    · rename_i hstar
      obtain ⟨d, hlt, hpeek, hd⟩ := peek_numeral f.width.value.toNat rest
      have hn : f.width.value.toNat ≠ 0 := by
        have := f.width.written
        simp only [hstar] at hne this
        simp at hne this
        omega
      unfold Follows
      rw [hpeek]
      exact .inl (digitChar_mem d hlt (hd hn))

theorem follows_zero (h : Follows "123456789*.l" rest) :
    Follows "0123456789*.l" (f.zeroText ++ rest) := by
  unfold Style.zeroText
  split
  · exact follows_cons (by decide)
  · exact h.mono (by decide)

theorem ne_of_not_special {c d : Byte} (h : c ∉ special) (hd : d ∈ special) : c ≠ d :=
  fun heq => h (heq ▸ hd)

theorem isdigit_special : ∀ c : Byte, isdigit c = true → c ∈ special := by decide

def Flag.set (g : Layout) : Flag → Layout
  | alt => { g with altfmt := true }
  | left => { g with ladjust := true }
  | plus => { g with plusSign := ch '+' }
  | blank => if g.plusSign = 0 then { g with plusSign := ch ' ' } else g

theorem not_flag {c : Byte} (h : c ∈ text "0123456789*.l" ∨ c ∉ special) :
    c ≠ ch '#' ∧ c ≠ ch '-' ∧ c ≠ ch '+' ∧ c ≠ ch ' ' := by
  rcases h with h | h
  · revert c
    decide
  · exact ⟨ne_of_not_special h (by decide), ne_of_not_special h (by decide),
      ne_of_not_special h (by decide), ne_of_not_special h (by decide)⟩

theorem flags_end (h : Follows "0123456789*.l" rest) (g : Layout) : flags rest g = (rest, g) := by
  cases rest with
  | nil => rfl
  | cons c rest =>
    obtain ⟨h1, h2, h3, h4⟩ := not_flag (c := c) h
    unfold flags
    rw [if_neg h1, if_neg h2, if_neg h3, if_neg h4]

theorem flags_text (fs : List Flag) (h : Follows "0123456789*.l" rest) (g : Layout) :
    flags (fs.map Flag.char ++ rest) g = (rest, fs.foldl Flag.set g) := by
  induction fs generalizing g with
  | nil => exact flags_end h g
  | cons x fs ih =>
    rw [List.map_cons, List.cons_append, flags]
    cases x with
    | alt => exact ih _
    | left => exact ih _
    | plus => exact ih _
    | blank => exact ih _

theorem foldl_set (fs : List Flag) (g : Layout) : fs.foldl Flag.set g = { g with
    altfmt := g.altfmt || decide (.alt ∈ fs)
    ladjust := g.ladjust || decide (.left ∈ fs)
    plusSign := if .plus ∈ fs then ch '+'
      else if g.plusSign = 0#8 ∧ .blank ∈ fs then ch ' ' else g.plusSign } := by
  induction fs generalizing g with
  | nil => simp
  | cons x fs ih =>
    have hplus : ch '+' ≠ 0#8 := by decide
    have hblank : ch ' ' ≠ 0#8 := by decide
    rw [List.foldl_cons, ih]
    by_cases hg : g.plusSign = 0#8 <;> by_cases hp : .plus ∈ fs <;> by_cases hb : .blank ∈ fs <;>
      cases x <;> simp [Flag.set, hg, hp, hb, hplus, hblank]

namespace Style

def flagged (f : Style) : Layout := ⟨0, -1, decide (.left ∈ f.flags), ch ' ', f.plus.headD 0, f.alt⟩

def layout (f : Style) : Layout :=
  ⟨f.size, f.prec.elim (-1) Count.value, f.left, if f.zero then ch '0' else ch ' ', f.plus.headD 0,
    f.alt⟩

theorem foldl_flags (f : Style) : f.flags.foldl Flag.set Layout.init = f.flagged := by
  rw [foldl_set]
  unfold flagged plus alt Layout.init
  by_cases hplus : .plus ∈ f.flags
  · simp [hplus]
  · by_cases hblank : .blank ∈ f.flags <;> simp [hplus, hblank]

end Style

theorem zero_text (h : Follows "123456789*.l" rest) (g : Layout) (hg : g.padc = ch ' ') :
    zero (f.zeroText ++ rest) g =
      (rest, { g with padc := if f.zero then ch '0' else ch ' ' }) := by
  have hne : peek rest ≠ ch '0' := by
    rcases h with h | h
    · revert h
      generalize peek rest = c
      revert c
      decide
    · exact ne_of_not_special h (by decide)
  unfold Style.zeroText zero
  by_cases hz : f.zero
  · simp [hz, peek]
  · simp [hz, hne, ← hg]

theorem not_count {c : Byte} (h : c ∈ text ".l" ∨ c ∉ special) :
    isdigit c = false ∧ c ≠ ch '*' := by
  rcases h with h | h
  · revert c
    decide
  · refine ⟨?_, ne_of_not_special h (by decide)⟩
    by_contra hdigit
    exact h (isdigit_special c (by simpa using hdigit))

theorem isdigit_star : isdigit (ch '*') = false := by decide

theorem Count.toInt_ofInt (n : Count) : (BitVec.ofInt 32 n.value).toInt = n.value := by
  have hsmall := abs_lt.mp n.small
  rw [BitVec.toInt_ofInt]
  exact Int.bmod_eq_of_le (by omega) (by omega)

theorem width_star (n : Count) (rest : List Byte) (args : List Arg) (g : Layout) :
    width (ch '*' :: rest) (.word (BitVec.ofInt 32 n.value) :: args) g = some (rest, args,
      { g with length := n.value.natAbs, ladjust := g.ladjust ^^ decide (n.value < 0) }) := by
  have hsmall := abs_lt.mp n.small
  unfold width
  rw [peek_cons, isdigit_star, if_neg (by decide), if_pos rfl]
  simp only [vaWord, Option.bind_eq_bind, Option.bind_some, Count.toInt_ofInt, List.tail_cons]
  by_cases hneg : n.value < 0
  · rw [if_pos hneg, wrap_eq (by omega) (by omega), ← Int.ofNat_natAbs_of_nonpos hneg.le]
    simp [hneg]
  · rw [if_neg hneg, Int.natAbs_of_nonneg (not_lt.mp hneg)]
    simp [hneg]

theorem width_digits (hn : n < 2 ^ 31) (hrest : isdigit (peek rest) = false) (g : Layout) :
    width (numeral 10 n ++ rest) args g = some (rest, args, { g with length := n }) := by
  unfold width
  rw [if_pos isdigit_numeral, number_numeral hn hrest]

theorem width_none (hdigit : isdigit (peek rest) = false) (hstar : peek rest ≠ ch '*')
    (g : Layout) : width rest args g = some (rest, args, g) := by
  unfold width
  rw [hdigit, if_neg (by decide), if_neg hstar]

theorem width_text (h : Follows ".l" rest) (args : List Arg) (g : Layout) (hg : g.length = 0) :
    width (f.widthText ++ rest) (f.width.args ++ args) g = some (rest, args,
      { g with length := f.size, ladjust := g.ladjust ^^ decide (f.width.value < 0) }) := by
  obtain ⟨hdigit, hstar⟩ := not_count h
  have hsmall := abs_lt.mp f.width.small
  unfold Style.widthText Style.size Count.text Count.args
  by_cases hs : f.width.star
  · rw [if_neg (by simp [hs]), if_pos hs, if_pos hs]
    exact width_star f.width rest args g
  · have hpos : 0 ≤ f.width.value := by
      have := f.width.written
      simpa [hs] using this
    have hside : decide (f.width.value < 0) = false := by simpa using hpos
    rw [if_neg hs, if_neg hs, hside, Bool.xor_false, List.nil_append]
    by_cases hv : f.width.value = 0
    · rw [if_pos ⟨hv, hs⟩, List.nil_append, width_none hdigit hstar, hv, Int.natAbs_zero]
      simp [← hg]
    · rw [if_neg (by simp [hv]), width_digits (by omega) hdigit]
      have hsize : f.width.value.toNat = f.width.value.natAbs := by omega
      rw [hsize]

theorem precision_text (h : Follows "l" rest) (args : List Arg) (g : Layout) (hg : g.prec = -1) :
    precision (f.precText ++ rest) (f.prec.elim [] Count.args ++ args) g = some (rest, args,
      { g with prec := f.prec.elim (-1) Count.value }) := by
  have hmono : Follows ".l" rest := h.mono (by decide)
  obtain ⟨hdigit, hstar⟩ := not_count hmono
  have hpoint : peek rest ≠ ch '.' := by
    rcases h with h | h
    · revert h
      generalize peek rest = c
      revert c
      decide
    · exact ne_of_not_special h (by decide)
  unfold Style.precText
  cases hprec : f.prec with
  | none =>
    simp only [Option.elim_none, List.nil_append]
    unfold precision
    rw [if_neg hpoint, ← hg]
  | some n =>
    have hsmall := abs_lt.mp n.small
    simp only [Option.elim_some, List.cons_append]
    unfold precision
    rw [peek_cons, if_pos rfl, List.tail_cons]
    unfold Count.text Count.args
    by_cases hs : n.star
    · rw [if_pos hs, if_pos hs, List.singleton_append, peek_cons, isdigit_star,
        if_neg (by decide), if_pos rfl]
      simp only [List.singleton_append, vaWord, Option.bind_eq_bind, Option.bind_some,
        Count.toInt_ofInt, List.tail_cons]
    · have hpos : 0 ≤ n.value := by
        have := n.written
        simpa [hs] using this
      rw [if_neg hs, if_neg hs, if_pos isdigit_numeral, number_numeral (by omega) hdigit,
        List.nil_append, Int.toNat_of_nonneg hpos]

theorem layout_text (h : peek rest ∉ special) (args : List Arg) :
    layout (f.text ++ rest) (f.args ++ args) = some (rest, args, f.layout) := by
  have hl := follows_long (f := f) h
  have hp := follows_prec (f := f) hl
  have hw := follows_width (f := f) hp
  have hz := follows_zero (f := f) hw
  unfold layout Style.args
  rw [Style.text_append, flags_text f.flags hz, f.foldl_flags, zero_text hw f.flagged rfl,
    List.append_assoc]
  dsimp only
  rw [width_text hp _ _ rfl]
  dsimp only [Option.bind_eq_bind, Option.bind_some]
  rw [precision_text hl _ _ rfl]
  dsimp only [Option.bind_eq_bind, Option.bind_some]
  have hlong : (if peek (f.longText ++ rest) = ch 'l' then (f.longText ++ rest).tail
      else f.longText ++ rest) = rest := by
    have hne : peek rest ≠ ch 'l' := by
      intro heq
      rw [heq] at h
      exact h (by decide)
    unfold Style.longText
    by_cases hf : f.long
    · simp [hf, peek]
    · simp [hf, hne]
  rw [hlong]
  rfl

end DominOS.Doprnt
