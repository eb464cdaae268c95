import DominOS.DoprntFormats

/-! What the conversions put out is the field that they stand for. -/
namespace DominOS.Doprnt
open NumberText
variable {b : Nat} {u w : BitVec 32} {f : Style} {args : List Arg}

theorem countdown_eq {x : Int} (h : -2 ^ 31 < x) (h' : x < 2 ^ 31) :
    countdown x = (x.toNat, min (x - 1) (-1)) := by
  unfold countdown
  rw [wrap_eq (by omega) (by omega), Int.sub_add_cancel]

def markOf (b : Nat) (u : BitVec 32) (alt : Bool) : List Byte :=
  if u ≠ 0 ∧ alt then if b = 8 then text "0" else if b = 16 then text "0x" else [] else []

theorem markOf_length (alt : Bool) : (markOf b u alt).length ≤ 2 := by
  unfold markOf
  split_ifs <;> decide

theorem base_eq_iff {b c : Nat} (hb : b ≤ 16) (hc : c ≤ 16) :
    BitVec.ofNat 32 b = BitVec.ofNat 32 c ↔ b = c := by
  rw [BitVec.toNat_eq, toNat_base hb, toNat_base hc]

def signOf (s : Byte) : List Byte := if s ≠ 0 then [s] else []

theorem signOf_length (s : Byte) : (signOf s).length ≤ 1 := by
  unfold signOf
  split <;> simp

def digitsOfLeast (b least : Nat) (u : BitVec 32) : List Byte :=
  List.replicate (least - (numeral b u.toNat).length) (ch '0') ++ numeral b u.toNat

namespace Layout

/-- No `int` overflows. -/
structure Small (g : Layout) : Prop where
  padded : g.padc = ch ' ' ∨ g.padc = ch '0'
  length_nonneg : 0 ≤ g.length
  length_lt : g.length < 2 ^ 30
  lt_prec : -2 ^ 30 < g.prec
  prec_lt : g.prec < 2 ^ 30

def fill (g : Layout) : Fill :=
  if g.padc = ch '0' then .between else if g.ladjust then .after else .before

end Layout

variable {g : Layout}

theorem putNum_eq {length prec : Int} (hpad : g.padc = ch ' ' ∨ g.padc = ch '0')
    (hlo : -2 ^ 31 + 2 < length) (hhi : length < 2 ^ 31) (hplo : -2 ^ 31 < prec)
    (hphi : prec < 2 ^ 31) (sign pre digits : List Byte) :
    putNum length prec sign pre digits g = match g.fill with
      | .before => List.replicate length.toNat (ch ' ') ++ (sign ++ pre) ++
        (List.replicate prec.toNat (ch '0') ++ digits)
      | .between => sign ++ pre ++ List.replicate length.toNat (ch '0') ++
        (List.replicate prec.toNat (ch '0') ++ digits)
      | .after => sign ++ pre ++ (List.replicate prec.toNat (ch '0') ++ digits) ++
        List.replicate length.toNat (ch ' ') := by
  have hne : ch '0' ≠ ch ' ' := by decide
  have hlength := countdown_eq (x := length) (by omega) hhi
  unfold putNum Layout.fill
  rw [countdown_eq hplo hphi]
  dsimp only
  rcases hpad with hblank | hzero
  · by_cases hleft : g.ladjust <;> simp [hblank, hleft, hne.symm, hlength]
  · have hzeros : List.replicate prec.toNat (ch '0') ++ List.replicate length.toNat (ch '0') =
        List.replicate length.toNat (ch '0') ++ List.replicate prec.toNat (ch '0') := by
      rw [← List.replicate_add, ← List.replicate_add, Nat.add_comm]
    have hafter : (countdown (min (length - 1) (-1))).1 = 0 := by
      rw [countdown_eq (by omega) (by omega)]
      omega
    simp only [hzero, hne, if_true, false_and, if_false, hlength, hafter, ite_self]
    simp only [List.replicate_zero, List.nil_append, List.append_nil, List.append_assoc]
    rw [← List.append_assoc (List.replicate prec.toNat _), hzeros, List.append_assoc]

theorem printNum_eq (hg : g.Small) (hb : 1 < b) (hb' : b ≤ 16) (u : BitVec 32) (s : Byte) :
    printNum u (BitVec.ofNat 32 b) s g = some (pad g.fill g.length.toNat
      (signOf s ++ markOf b u g.altfmt) (digitsOfLeast b g.prec.toNat u)) := by
  obtain ⟨hpad, hnonneg, hlt, hplo, hphi⟩ := hg
  have hdigits := numeral_length_le hb u
  have hmarklen := markOf_length (b := b) (u := u) g.altfmt
  have hsign := signOf_length s
  have hmark : (if u ≠ 0 ∧ g.altfmt then
      if BitVec.ofNat 32 b = 8 then text "0"
      else if BitVec.ofNat 32 b = 16 then text "0x" else [] else []) = markOf b u g.altfmt := by
    have h8 : BitVec.ofNat 32 b = 8 ↔ b = 8 := base_eq_iff hb' (by decide)
    have h16 : BitVec.ofNat 32 b = 16 ↔ b = 16 := base_eq_iff hb' (by decide)
    simp only [markOf, h8, h16]
  have hshown : (if s ≠ 0 then [s] else []) = signOf s := rfl
  unfold maxbuf at hdigits
  have hprec : wrap (g.prec - (numeral b u.toNat).length) = g.prec - (numeral b u.toNat).length :=
    wrap_eq (by omega) (by omega)
  have hzeros : (g.prec - (numeral b u.toNat).length).toNat =
      g.prec.toNat - (numeral b u.toNat).length := by omega
  have hbody : (digitsOfLeast b g.prec.toNat u).length =
      g.prec.toNat - (numeral b u.toNat).length + (numeral b u.toNat).length := by
    unfold digitsOfLeast
    simp
  have hroom : wrap (g.length - (numeral b u.toNat).length - (signOf s).length -
      (markOf b u g.altfmt).length - (if 0 < g.prec - (numeral b u.toNat).length then
        g.prec - (numeral b u.toNat).length else 0)) =
      g.length - (signOf s ++ markOf b u g.altfmt ++ digitsOfLeast b g.prec.toNat u).length := by
    rw [wrap_eq (by split <;> omega) (by split <;> omega)]
    simp only [List.length_append, hbody]
    split <;> omega
  have hgap :
      (g.length - (signOf s ++ markOf b u g.altfmt ++ digitsOfLeast b g.prec.toNat u).length).toNat =
      g.length.toNat -
        (signOf s ++ markOf b u g.altfmt ++ digitsOfLeast b g.prec.toNat u).length := by omega
  unfold printNum
  rw [printnum_eq hb hb', hmark]
  simp only [Option.bind_eq_bind, Option.bind_some, hshown]
  rw [hprec, hroom, putNum_eq hpad (by simp only [List.length_append, hbody]; omega) (by omega)
    (by omega) (by omega), hzeros, hgap]
  unfold pad
  cases g.fill <;> rfl

theorem Style.layout_small (f : Style) : f.layout.Small where
  padded := by
    unfold Style.layout
    cases f.zero <;> simp
  length_nonneg := by simp [Style.layout]
  length_lt := by
    have := abs_lt.mp f.width.small
    simp only [Style.layout, Style.size]
    omega
  lt_prec := by
    unfold Style.layout
    cases f.prec with
    | none => simp
    | some n => exact (abs_lt.mp n.small).1
  prec_lt := by
    unfold Style.layout
    cases f.prec with
    | none => simp
    | some n => exact (abs_lt.mp n.small).2

theorem Style.layout_fill (f : Style) : f.layout.fill = f.fill := by
  have hne : ch ' ' ≠ ch '0' := by decide
  unfold Layout.fill Style.fill Style.layout
  by_cases hzero : f.zero
  · simp [hzero]
  · simp [hzero, hne]

theorem Style.layout_prec (f : Style) : f.layout.prec.toNat = f.least := by
  unfold Style.layout Style.least
  cases f.prec <;> rfl

theorem printNum_style (hb : 1 < b) (hb' : b ≤ 16) (u : BitVec 32) (s : Byte) (f : Style) :
    printNum u (BitVec.ofNat 32 b) s f.layout =
      some (pad f.fill f.size (signOf s ++ markOf b u f.alt) (digitsOfLeast b f.least u)) := by
  rw [printNum_eq f.layout_small hb hb', f.layout_fill, f.layout_prec]
  rfl

theorem signOf_plus (f : Style) : signOf (f.plus.headD 0) = f.plus := by
  unfold Style.plus
  split_ifs <;> decide

theorem toNat_of_nonneg (h : 0 ≤ w.toInt) : w.toNat = w.toInt.natAbs := by
  have hlt := w.isLt
  have hint := BitVec.toInt_eq_toNat_cond w
  split at hint <;> omega

theorem toNat_neg_of_neg (h : w.toInt < 0) : (-w).toNat = w.toInt.natAbs := by
  have hlt := w.isLt
  have hint := BitVec.toInt_eq_toNat_cond w
  rw [BitVec.toNat_neg]
  split at hint <;> omega

theorem printUnsigned_eq (hb : 1 < b) (hb' : b ≤ 16) (f : Style) (w : BitVec 32) :
    printUnsigned (BitVec.ofNat 32 b) f.layout (.word w :: args) =
      some (Kind.field ⟨false, b⟩ f w, args) := by
  unfold printUnsigned
  simp only [vaWord, Option.bind_eq_bind, Option.bind_some, printNum_style hb hb']
  rfl

theorem printSigned_eq (hb : 1 < b) (hb' : b ≤ 16) (f : Style) (w : BitVec 32) :
    printSigned (BitVec.ofNat 32 b) f.layout (.word w :: args) =
      some (Kind.field ⟨true, b⟩ f w, args) := by
  have hplus : f.layout.plusSign = f.plus.headD 0 := rfl
  unfold printSigned
  simp only [vaWord, Option.bind_eq_bind, Option.bind_some, printNum_style hb hb', hplus, signOf_plus]
  unfold Kind.field Kind.sign Kind.mark Kind.digits Kind.negative Kind.magnitude digitsOfLeast markOf
  by_cases hneg : w.toInt < 0
  · have hsign : signOf (ch '-') = [ch '-'] := by decide
    have hne : -w ≠ 0 ↔ w ≠ 0 := by simp
    rw [if_neg (not_le.mpr hneg), toNat_neg_of_neg hneg, hsign]
    simp only [hne, hneg, decide_true, Bool.and_self, if_true]
  · rw [if_pos (not_lt.mp hneg), toNat_of_nonneg (not_lt.mp hneg)]
    simp [hneg]

theorem convert_kind {c : Byte} {k : Kind} (hc : Kind.of c = some k) (radix : BitVec 32)
    (g : Layout) (args : List Arg) : convert radix c g args =
      if k.signed then printSigned (BitVec.ofNat 32 k.base) g args
      else printUnsigned (BitVec.ofNat 32 k.base) g args := by
  have hmem (x y : Byte) (h : c ∈ [x, y]) : c = x ∨ c = y := by simpa using h
  unfold Kind.of at hc
  split_ifs at hc with h1 h2 h3 h4 h5 <;> cases hc
  · have h : c = ch 'd' ∨ c = ch 'i' ∨ c = ch 'D' := by simpa [text] using h1
    rcases h with rfl | rfl | rfl <;> rfl
  · rcases hmem _ _ h2 with rfl | rfl <;> rfl
  · rcases hmem _ _ h3 with rfl | rfl <;> rfl
  · rcases hmem _ _ h4 with rfl | rfl <;> rfl
  · rcases hmem _ _ h5 with rfl | rfl <;> rfl

theorem kind_base {c : Byte} {k : Kind} (hc : Kind.of c = some k) : 1 < k.base ∧ k.base ≤ 16 := by
  unfold Kind.of at hc
  split_ifs at hc <;> cases hc <;> decide

theorem convert_number {c : Byte} {k : Kind} (hc : Kind.of c = some k) (radix : BitVec 32)
    (f : Style) (w : BitVec 32) :
    convert radix c f.layout (.word w :: args) = some (k.field f w, args) := by
  obtain ⟨hb, hb'⟩ := kind_base hc
  obtain ⟨signed, base⟩ := k
  rw [convert_kind hc]
  cases signed with
  | false => exact printUnsigned_eq hb hb' f w
  | true => exact printSigned_eq hb hb' f w

theorem convert_pointer (radix : BitVec 32) (f : Style) (w : BitVec 32) :
    convert radix (ch 'p') f.layout (.word w :: args) = some (f.pointer w, args) := by
  have hsmall : Layout.Small { f.layout with padc := ch '0', length := 8 } :=
    { f.layout_small with padded := .inr rfl, length_nonneg := by simp, length_lt := by simp }
  have hprec : f.layout.prec.toNat = f.least := f.layout_prec
  change (printUnsigned (BitVec.ofNat 32 16) { f.layout with padc := ch '0', length := 8 }
    (.word w :: args)).bind (fun x => some (text "0x" ++ x.1, x.2)) = _
  unfold printUnsigned
  simp only [vaWord, Option.bind_eq_bind, Option.bind_some, printNum_eq hsmall (b := 16) (by decide)
    (by decide), hprec]
  rfl

/-! Texts. -/

theorem cString_cons {c : Byte} (hc : c ≠ 0) (p : List Byte) : cString (c :: p) = c :: cString p := by
  unfold cString
  rw [List.takeWhile_cons_of_pos (by simpa using hc)]

theorem cString_nul (p : List Byte) : cString (0#8 :: p) = [] := by
  simp [cString]

theorem countText_eq (prec : Int) (p : List Byte) (n : Int) :
    countText prec p n = n + ((cString p).take (prec - n).toNat).length := by
  induction p generalizing n with
  | nil => simp [countText, cString]
  | cons c p ih =>
    unfold countText
    by_cases hc : c = 0
    · simp [hc, cString_nul]
    · by_cases hn : n < prec
      · obtain ⟨k, hk⟩ : ∃ k, (prec - n).toNat = k + 1 := ⟨(prec - n - 1).toNat, by omega⟩
        have hk' : (prec - (n + 1)).toNat = k := by omega
        rw [if_pos ⟨hc, hn⟩, ih, cString_cons hc, hk, hk', List.take_succ_cons, List.length_cons]
        push_cast
        ring
      · have hk : (prec - n).toNat = 0 := by omega
        rw [if_neg (fun h => hn h.2), hk]
        simp

theorem putText_eq (prec : Int) (p : List Byte) (n : Int) :
    putText prec p n = ((cString p).take (prec - n).toNat,
      n + ((cString p).take (prec - n).toNat).length +
        if (cString p).take (prec - n).toNat ≠ cString p then 1 else 0) := by
  induction p generalizing n with
  | nil => simp [putText, cString]
  | cons c p ih =>
    unfold putText
    by_cases hc : c = 0
    · simp [hc, cString_nul]
    · rw [if_neg hc, cString_cons hc]
      by_cases hn : n + 1 > prec
      · have hk : (prec - n).toNat = 0 := by omega
        rw [if_pos hn, hk]
        simp
      · obtain ⟨k, hk⟩ : ∃ k, (prec - n).toNat = k + 1 := ⟨(prec - n - 1).toNat, by omega⟩
        have hk' : (prec - (n + 1)).toNat = k := by omega
        rw [if_neg hn, ih, hk, hk']
        simp only [List.take_succ_cons, List.length_cons, ne_eq, List.cons.injEq, true_and]
        push_cast
        refine Prod.ext rfl ?_
        dsimp only
        ring

theorem printText_eq (f : Style) (s : List Byte) : printText s f.layout = f.string s := by
  have hshown : ((cString s).take (if f.layout.prec = -1 then 0x7fffffff else f.layout.prec).toNat) =
      f.shown s := by
    unfold Style.shown Style.layout
    cases f.prec with
    | none => rfl
    | some n => by_cases hv : n.value = -1 <;> simp [hv]
  have hlength : f.layout.length = f.size := rfl
  have hside : f.layout.ladjust = f.left := rfl
  unfold printText Style.string
  simp only [countText_eq, putText_eq, sub_zero, zero_add, hshown, hlength, hside]
  by_cases hleft : f.left
  · have hafter (n : Nat) : (if (n : Int) < f.size then ((f.size : Int) - n).toNat else 0) =
        f.size - n := by split <;> omega
    have hcut : ((f.shown s).length : Int) + (if f.shown s ≠ cString s then 1 else 0) =
        ((f.shown s).length + (if f.shown s ≠ cString s then 1 else 0) : Nat) := by
      split <;> rfl
    rw [hcut]
    simp only [hleft, not_true, and_false, if_false, and_true, if_true, List.replicate_zero,
      List.nil_append, hafter]
  · have hbefore : (if 0 < (f.size : Int) then ((f.size : Int) - (f.shown s).length).toNat else 0) =
        f.size - (f.shown s).length := by split <;> omega
    simp only [hleft, Bool.false_eq_true, not_false_eq_true, and_true, hbefore, and_false, if_false,
      List.replicate_zero, List.append_nil]

end DominOS.Doprnt
