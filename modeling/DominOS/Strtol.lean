import DominOS.DoprntItems

/-! strtol.c and strtoul.c: the numbers that `_doprnt` writes are read back, but for their signs. -/
namespace DominOS.Strtol
open NumberText Doprnt

def isspace (c : Byte) : Bool :=
  c = ch ' ' || c = 12 || c = ch '\n' || c = ch '\r' || c = ch '\t' || c = 11

def digit (base : Int) (c : Byte) : Option Nat :=
  if ch '0' ≤ c ∧ c ≤ ch '9' ∧ ((c - ch '0').toNat : Int) < base then some (c - ch '0').toNat
  else if ch 'a' ≤ c ∧ c ≤ ch 'z' ∧ ((c - ch 'a').toNat + 10 : Int) < base then
    some ((c - ch 'a').toNat + 10)
  else if ch 'A' ≤ c ∧ c ≤ ch 'Z' ∧ ((c - ch 'A').toNat + 10 : Int) < base then
    some ((c - ch 'A').toNat + 10)
  else none

def step (base : Int) (v : BitVec 32) (d : Nat) : BitVec 32 :=
  v * BitVec.ofInt 32 base + BitVec.ofNat 32 d

def digits (base : Int) : BitVec 32 → List Byte → BitVec 32 × List Byte := scan (digit base) (step base)

/-- A prefix `0x` where it may stand, and the base that zero stands for. -/
def prefixed (p : List Byte) (base : Int) : List Byte × Int :=
  if (base = 16 ∨ base = 0) ∧ peek p = ch '0' ∧ (peek p.tail = ch 'x' ∨ peek p.tail = ch 'X') then
    (p.tail.tail, 16)
  else if base = 0 then (p, if peek p = ch '0' then 8 else 10)
  else (p, base)

def unsigned (p : List Byte) (base : Int) : BitVec 32 × List Byte :=
  digits (prefixed p base).2 0 (prefixed p base).1

/-- The value, and what `out_p` points to. A `+` is seen and not passed. -/
def strtol (p : List Byte) (base : Int) : BitVec 32 × List Byte :=
  if peek (p.dropWhile isspace) = ch '-' then
    (-(unsigned (p.dropWhile isspace).tail base).1, (unsigned (p.dropWhile isspace).tail base).2)
  else unsigned (p.dropWhile isspace) base

def strtoul (p : List Byte) (base : Int) : BitVec 32 × List Byte :=
  unsigned (p.dropWhile isspace) base

variable {b : Nat} {f : Style} {k : Kind} {w : BitVec 32} {p rest : List Byte}

theorem digit_digitChar : ∀ b ≤ 16, ∀ d < b, digit (b : Nat) (digitChar d) = some d := by decide

theorem foldl_step (v : Nat) (ds : List Nat) : ds.foldl (step b) (BitVec.ofNat 32 v) =
    BitVec.ofNat 32 (valueFrom b v ds) := by
  induction ds generalizing v with
  | nil => rfl
  | cons d ds ih =>
    have hstep : step b (BitVec.ofNat 32 v) d = BitVec.ofNat 32 (v * b + d) := by
      unfold step
      rw [BitVec.ofInt_natCast, BitVec.ofNat_add, BitVec.ofNat_mul]
    rw [List.foldl_cons, hstep]
    exact ih _

def Quiet (p : List Byte) : Prop := digit 36 (peek p) = none

theorem digit_none (hb : b ≤ 16) {c : Byte} (h : digit 36 c = none) : digit b c = none := by
  unfold digit at h
  split_ifs at h with h0 ha hA
  unfold digit
  rw [if_neg fun hc => h0 ⟨hc.1, hc.2.1, by omega⟩, if_neg fun hc => ha ⟨hc.1, hc.2.1, by omega⟩,
    if_neg fun hc => hA ⟨hc.1, hc.2.1, by omega⟩]

theorem Quiet.stops (hb : b ≤ 16) (h : Quiet p) : Stops (digit b) p := by
  intro c hc
  have hpeek : peek p = c := by
    unfold peek
    rw [List.headD_eq_head?_getD, hc]
    rfl
  exact digit_none hb (hpeek ▸ h)

theorem quiet_blanks (h : Quiet p) (n : Nat) : Quiet (List.replicate n (ch ' ') ++ p) := by
  cases n with
  | zero => exact h
  | succ n => exact (by decide : digit 36 (ch ' ') = none)

theorem digits_numeral (hb : 1 < b) (hb' : b ≤ 16) (h : Quiet p) (z n : Nat) :
    digits b 0 (List.replicate z (ch '0') ++ numeral b n ++ p) = (BitVec.ofNat 32 n, p) := by
  have hzeros : List.replicate z (ch '0') ++ numeral b n =
      (List.replicate z 0 ++ digitsOf b n).map digitChar := by
    rw [List.map_append, List.map_replicate]
    rfl
  have hlt : ∀ d ∈ List.replicate z 0 ++ digitsOf b n, digit b (digitChar d) = some d := by
    intro d hd
    rcases List.mem_append.mp hd with hd | hd
    · rw [List.eq_of_mem_replicate hd]
      exact digit_digitChar b hb' 0 (by omega)
    · exact digit_digitChar b hb' d (mem_digitsOf hb hd)
  unfold digits
  rw [hzeros, scan_map hlt (h.stops hb')]
  have hfold := foldl_step (b := b) 0 (List.replicate z 0 ++ digitsOf b n)
  rw [valueFrom_append, valueFrom_zeros, valueFrom_digitsOf] at hfold
  rw [← hfold]
  rfl

theorem Quiet.not_x (h : Quiet p) : peek p ≠ ch 'x' ∧ peek p ≠ ch 'X' := by
  unfold Quiet at h
  constructor <;>
  · intro hx
    rw [hx] at h
    revert h
    decide

theorem digitChar_not_x : ∀ d < 16, digitChar d ≠ ch 'x' ∧ digitChar d ≠ ch 'X' := by decide

theorem prefixed_mark (p : List Byte) : prefixed (text "0x" ++ p) 16 = (p, 16) :=
  if_pos ⟨.inl rfl, rfl, .inl rfl⟩

theorem prefixed_digits (hb : 1 < b) {ds : List Nat} (hds : ds ≠ []) (hlt : ∀ d ∈ ds, d < 16)
    (h : Quiet p) : prefixed (ds.map digitChar ++ p) b = (ds.map digitChar ++ p, (b : Int)) := by
  have hnext : peek (ds.map digitChar ++ p).tail ≠ ch 'x' ∧
      peek (ds.map digitChar ++ p).tail ≠ ch 'X' := by
    obtain ⟨d, es, rfl⟩ := List.exists_cons_of_ne_nil hds
    cases es with
    | nil => exact h.not_x
    | cons e es => exact digitChar_not_x e (hlt e (by simp))
  unfold prefixed
  rw [if_neg fun hc => hc.2.2.elim hnext.1 hnext.2, if_neg (by omega)]

theorem unsigned_numeral (hb : 1 < b) (hb' : b ≤ 16) (h : Quiet p) (z n : Nat) :
    unsigned (List.replicate z (ch '0') ++ numeral b n ++ p) b = (BitVec.ofNat 32 n, p) := by
  have hdigits : List.replicate z (ch '0') ++ numeral b n =
      (List.replicate z 0 ++ digitsOf b n).map digitChar := by
    rw [List.map_append, List.map_replicate]
    rfl
  have hlt : ∀ d ∈ List.replicate z 0 ++ digitsOf b n, d < 16 := by
    intro d hd
    rcases List.mem_append.mp hd with hd | hd
    · rw [List.eq_of_mem_replicate hd]
      decide
    · exact (mem_digitsOf hb hd).trans_le hb'
  have hpre : prefixed (List.replicate z (ch '0') ++ numeral b n ++ p) b =
      (List.replicate z (ch '0') ++ numeral b n ++ p, (b : Int)) := by
    rw [hdigits]
    exact prefixed_digits hb (by simp [digitsOf_ne_nil]) hlt h
  unfold unsigned
  rw [hpre]
  exact digits_numeral hb hb' h z n

theorem unsigned_mark (h : Quiet p) (z n : Nat) :
    unsigned (text "0x" ++ (List.replicate z (ch '0') ++ numeral 16 n ++ p)) 16 =
      (BitVec.ofNat 32 n, p) := by
  unfold unsigned
  rw [prefixed_mark]
  exact digits_numeral (b := 16) (by decide) le_rfl h z n

def trailing (k : Kind) (f : Style) (w : BitVec 32) : List Byte :=
  List.replicate (if f.fill = .after then
    f.size - (k.sign f w ++ k.mark f w ++ k.digits f w).length else 0) (ch ' ')

def zeroed (b z n : Nat) : List Byte := List.replicate z (ch '0') ++ numeral b n

theorem field_shape (k : Kind) (f : Style) (w : BitVec 32) : ∃ i z, k.field f w =
    List.replicate i (ch ' ') ++ (k.sign f w ++ (k.mark f w ++
      (zeroed k.base z (k.magnitude w) ++ trailing k f w))) := by
  have hdigits : k.digits f w =
      zeroed k.base (f.least - (numeral k.base (k.magnitude w)).length) (k.magnitude w) := rfl
  unfold Kind.field pad trailing
  cases f.fill with
  | before =>
    refine ⟨f.size - (k.sign f w ++ k.mark f w ++ k.digits f w).length,
      f.least - (numeral k.base (k.magnitude w)).length, ?_⟩
    rw [hdigits, if_neg (by decide), List.replicate_zero, List.append_nil, List.append_assoc,
      List.append_assoc]
  | between =>
    refine ⟨0, f.size - (k.sign f w ++ k.mark f w ++ k.digits f w).length +
      (f.least - (numeral k.base (k.magnitude w)).length), ?_⟩
    rw [if_neg (by decide)]
    simp only [hdigits, zeroed, List.replicate_zero, List.nil_append, List.append_nil,
      List.append_assoc, List.replicate_add]
  | after =>
    refine ⟨0, f.least - (numeral k.base (k.magnitude w)).length, ?_⟩
    rw [if_pos rfl, hdigits]
    simp only [List.replicate_zero, List.nil_append, List.append_assoc]

def Written (b : Nat) : Prop := b = 8 ∨ b = 10 ∨ b = 16

theorem Written.bounds (h : Written b) : 1 < b ∧ b ≤ 16 := by
  rcases h with rfl | rfl | rfl <;> decide

theorem written_of {c : Byte} (hc : Kind.of c = some k) : Written k.base := by
  unfold Kind.of at hc
  unfold Written
  split_ifs at hc <;> cases hc <;> simp

theorem mark_cases (k : Kind) (f : Style) (w : BitVec 32) : k.mark f w = [] ∨
    (k.base = 8 ∧ k.mark f w = [ch '0']) ∨ (k.base = 16 ∧ k.mark f w = text "0x") := by
  unfold Kind.mark
  split_ifs with h h8 h16
  · exact .inr (.inl ⟨h8, rfl⟩)
  · exact .inr (.inr ⟨h16, rfl⟩)
  · exact .inl rfl
  · exact .inl rfl

theorem unsigned_body (hk : Written k.base) (h : Quiet p) (z n : Nat) :
    unsigned (k.mark f w ++ (zeroed k.base z n ++ p)) k.base = (BitVec.ofNat 32 n, p) := by
  obtain ⟨hb, hb'⟩ := hk.bounds
  unfold zeroed
  rcases mark_cases k f w with hmark | ⟨-, hmark⟩ | ⟨h16, hmark⟩
  · rw [hmark]
    exact unsigned_numeral hb hb' h z n
  · rw [hmark]
    exact unsigned_numeral hb hb' h (z + 1) n
  · rw [hmark, h16]
    exact unsigned_mark h z n

theorem body_head (hk : Written k.base) (z n : Nat) : ∃ d < 16, ∃ more,
    k.mark f w ++ (zeroed k.base z n ++ p) = digitChar d :: more := by
  have hzeroed : ∃ d < 16, ∃ more, zeroed k.base z n ++ p = digitChar d :: more := by
    unfold zeroed
    cases z with
    | zero =>
      obtain ⟨d, ds, hds⟩ := List.exists_cons_of_ne_nil (digitsOf_ne_nil (b := k.base) (n := n))
      have hlt : d < k.base := mem_digitsOf (n := n) hk.bounds.1 (by rw [hds]; exact List.mem_cons_self)
      exact ⟨d, hlt.trans_le hk.bounds.2, _, by rw [numeral, hds]; rfl⟩
    | succ z => exact ⟨0, by decide, _, rfl⟩
  rcases mark_cases k f w with hmark | ⟨-, hmark⟩ | ⟨-, hmark⟩
  · rwa [hmark]
  · exact ⟨0, by decide, _, by rw [hmark]; rfl⟩
  · exact ⟨0, by decide, _, by rw [hmark]; rfl⟩

theorem dropWhile_blanks (i : Nat) (p : List Byte) :
    (List.replicate i (ch ' ') ++ p).dropWhile isspace = p.dropWhile isspace := by
  induction i with
  | zero => rfl
  | succ i ih =>
    rw [List.replicate_succ, List.cons_append, List.dropWhile_cons_of_pos (by decide)]
    exact ih

theorem digitChar_first : ∀ d < 16, isspace (digitChar d) = false ∧ digitChar d ≠ ch '-' := by decide

theorem ofNat_magnitude (h : k.negative w = false) : BitVec.ofNat 32 (k.magnitude w) = w := by
  unfold Kind.negative at h
  unfold Kind.magnitude
  cases hsigned : k.signed with
  | false => simp
  | true =>
    have hnonneg : 0 ≤ w.toInt := by simpa [hsigned] using h
    rw [if_pos rfl, ← toNat_of_nonneg hnonneg, BitVec.ofNat_toNat, BitVec.setWidth_eq]

theorem neg_ofNat_magnitude (h : k.negative w = true) : -BitVec.ofNat 32 (k.magnitude w) = w := by
  unfold Kind.negative at h
  obtain ⟨hsigned, hneg⟩ : k.signed = true ∧ w.toInt < 0 := by simpa using h
  unfold Kind.magnitude
  rw [if_pos hsigned, ← toNat_neg_of_neg hneg, BitVec.ofNat_toNat, BitVec.setWidth_eq,
    BitVec.neg_neg]

theorem unsigned_sign {c : Byte} (hc : c ∉ text "0") (hdigit : digit 36 c = none) (hb : 1 < b)
    (hb' : b ≤ 16) (p : List Byte) : unsigned (c :: p) b = (0, c :: p) := by
  have hzero : c ≠ ch '0' := by simpa [text] using hc
  have hpre : prefixed (c :: p) b = (c :: p, (b : Int)) := by
    unfold prefixed
    rw [if_neg fun h => hzero h.2.1, if_neg (by omega)]
  unfold unsigned
  rw [hpre]
  exact Stops.scan (Quiet.stops (p := c :: p) hb' hdigit) 0

theorem quiet_trailing (h : Quiet rest) : Quiet (trailing k f w ++ rest) := quiet_blanks h _

/-- The sign of a number that is not negative is a `+`, or is not told from the blanks before. -/
theorem sign_cases (k : Kind) (f : Style) (w : BitVec 32) :
    (k.signed ∧ w.toInt < 0 ∧ k.negative w = true ∧ k.sign f w = [ch '-']) ∨
    (k.signed ∧ 0 ≤ w.toInt ∧ .plus ∈ f.flags ∧ k.sign f w = [ch '+']) ∨
    (k.negative w = false ∧ ¬(k.signed ∧ .plus ∈ f.flags) ∧
      ∃ j, k.sign f w = List.replicate j (ch ' ')) := by
  unfold Kind.sign Kind.negative Style.plus
  cases hsigned : k.signed with
  | false => exact .inr (.inr ⟨rfl, by simp, 0, rfl⟩)
  | true =>
    by_cases hneg : w.toInt < 0
    · exact .inl ⟨rfl, hneg, by simp [hneg], by simp [hneg]⟩
    · by_cases hplus : .plus ∈ f.flags
      · exact .inr (.inl ⟨rfl, not_lt.mp hneg, hplus, by simp [hneg, hplus]⟩)
      · refine .inr (.inr ⟨by simp [hneg], by simp [hplus], ?_⟩)
        by_cases hblank : .blank ∈ f.flags
        · exact ⟨1, by simp [hneg, hplus, hblank]⟩
        · exact ⟨0, by simp [hneg, hplus, hblank]⟩

theorem dropWhile_field (hk : Written k.base) (h : Quiet rest) : ∃ B,
    unsigned B k.base = (BitVec.ofNat 32 (k.magnitude w), trailing k f w ++ rest) ∧
    B.dropWhile isspace = B ∧ peek B ≠ ch '-' ∧
    (trailing k f w ++ rest).length ≤ B.length ∧
    (k.field f w ++ rest).dropWhile isspace = (k.sign f w ++ B).dropWhile isspace := by
  obtain ⟨i, z, hshape⟩ := field_shape k f w
  have hquiet : Quiet (trailing k f w ++ rest) := quiet_blanks h _
  obtain ⟨d, hd, more, hbody⟩ := body_head (f := f) (w := w) (p := trailing k f w ++ rest) hk z
    (k.magnitude w)
  obtain ⟨hspace, hminus⟩ := digitChar_first d hd
  refine ⟨k.mark f w ++ (zeroed k.base z (k.magnitude w) ++ (trailing k f w ++ rest)),
    unsigned_body hk hquiet z _, ?_, ?_, ?_, ?_⟩
  · rw [hbody, List.dropWhile_cons_of_neg (by simp [hspace])]
  · rw [hbody]
    exact hminus
  · simp only [List.length_append]
    omega
  · rw [hshape]
    simp only [List.append_assoc]
    rw [dropWhile_blanks]

/-- `strtol` reads a number that is written back to its end, unless a `+` is written. -/
theorem strtol_field (hk : Written k.base) (h : Quiet rest) :
    strtol (k.field f w ++ rest) k.base = (w, trailing k f w ++ rest) ↔
      ¬(k.signed ∧ 0 ≤ w.toInt ∧ .plus ∈ f.flags) := by
  obtain ⟨hb, hb'⟩ := hk.bounds
  obtain ⟨B, hread, hspace, hminus, hlen, hdrop⟩ := dropWhile_field (f := f) (w := w) hk h
  unfold strtol
  rw [hdrop]
  rcases sign_cases k f w with ⟨-, hneg, hnegative, hsign⟩ | ⟨hsigned, hpos, hplus, hsign⟩ |
    ⟨hnegative, hplus, j, hsign⟩
  · rw [hsign, List.singleton_append, List.dropWhile_cons_of_neg (by decide), peek_cons, if_pos rfl,
      List.tail_cons, hread, neg_ofNat_magnitude hnegative]
    exact iff_of_true rfl fun hc => absurd hc.2.1 (not_le.mpr hneg)
  · rw [hsign, List.singleton_append, List.dropWhile_cons_of_neg (by decide), peek_cons,
      if_neg (by decide), unsigned_sign (by decide) (by decide) hb hb']
    refine iff_of_false (fun heq => ?_) (fun hn => hn ⟨hsigned, hpos, hplus⟩)
    have hends := congrArg (fun r => r.2.length) heq
    simp only [List.length_cons] at hends
    omega
  · rw [hsign, dropWhile_blanks, hspace, if_neg hminus, hread, ofNat_magnitude hnegative]
    exact iff_of_true rfl fun hc => hplus ⟨hc.1, hc.2.2⟩

theorem strtoul_field (hk : Written k.base) (h : Quiet rest) :
    strtoul (k.field f w ++ rest) k.base = (w, trailing k f w ++ rest) ↔
      ¬(k.signed ∧ (w.toInt < 0 ∨ .plus ∈ f.flags)) := by
  obtain ⟨hb, hb'⟩ := hk.bounds
  obtain ⟨B, hread, hspace, hminus, hlen, hdrop⟩ := dropWhile_field (f := f) (w := w) hk h
  have hstuck {c : Byte} (hc : c ∉ text "0") (hdigit : digit 36 c = none) :
      unsigned (c :: B) k.base ≠ (w, trailing k f w ++ rest) := by
    rw [unsigned_sign hc hdigit hb hb']
    intro heq
    have hends := congrArg (fun r => r.2.length) heq
    simp only [List.length_cons] at hends
    omega
  unfold strtoul
  rw [hdrop]
  rcases sign_cases k f w with ⟨hsigned, hneg, -, hsign⟩ | ⟨hsigned, -, hplus, hsign⟩ |
    ⟨hnegative, hplus, j, hsign⟩
  · rw [hsign, List.singleton_append, List.dropWhile_cons_of_neg (by decide)]
    exact iff_of_false (hstuck (by decide) (by decide)) fun hn => hn ⟨hsigned, .inl hneg⟩
  · rw [hsign, List.singleton_append, List.dropWhile_cons_of_neg (by decide)]
    exact iff_of_false (hstuck (by decide) (by decide)) fun hn => hn ⟨hsigned, .inr hplus⟩
  · rw [hsign, dropWhile_blanks, hspace, hread, ofNat_magnitude hnegative]
    refine iff_of_true rfl fun hc => ?_
    rcases hc.2 with hneg | hp
    · unfold Kind.negative at hnegative
      simp [hc.1, hneg] at hnegative
    · exact hplus ⟨hc.1, hp⟩

/-- Within the output of any format, a number is read back up to the text that follows. -/
theorem printed_number_read_back (radix : BitVec 32) (before after : List Item) (f : Style) (c : Byte)
    (k : Kind) (hc : Kind.of c = some k) (w : BitVec 32) (args : List Arg)
    (hafter : Quiet (after.flatMap Item.shown)) :
    ∃ out, doprnt radix ((before ++ .number f c k hc w :: after).flatMap Item.text)
        ((before ++ .number f c k hc w :: after).flatMap Item.args ++ args) =
          some (before.flatMap Item.shown ++ out) ∧
      (strtol out k.base = (w, trailing k f w ++ after.flatMap Item.shown) ↔
        ¬(k.signed ∧ 0 ≤ w.toInt ∧ .plus ∈ f.flags)) ∧
      (strtoul out k.base = (w, trailing k f w ++ after.flatMap Item.shown) ↔
        ¬(k.signed ∧ (w.toInt < 0 ∨ .plus ∈ f.flags))) := by
  have hk := written_of hc
  refine ⟨k.field f w ++ after.flatMap Item.shown, ?_, strtol_field hk hafter,
    strtoul_field hk hafter⟩
  rw [doprnt_items, List.flatMap_append, List.flatMap_cons]
  rfl

/-- `x = %-6d;` -/
theorem printed_number_read_back_assignment :
    ∃ out, doprnt 0 (text "x = %-6d;") [.word (-42)] = some (text "x = " ++ out) ∧
      strtol out 10 = (-42, text "   ;") := by
  let f : Style := ⟨[.left], false, ⟨6, false, by decide, by decide⟩, none, false⟩
  have h := printed_number_read_back 0 [.plain (ch 'x') (by decide), .plain (ch ' ') (by decide),
    .plain (ch '=') (by decide), .plain (ch ' ') (by decide)] [.plain (ch ';') (by decide)] f (ch 'd')
    ⟨true, 10⟩ (by decide) (-42) [] (by unfold Quiet; decide)
  obtain ⟨out, hout, hread, -⟩ := h
  exact ⟨out, hout, hread.mpr (by decide)⟩

end DominOS.Strtol
