import DominOS.DoprntFields

/-! Descriptions of registers, and formats: what is put out for all items of a format. -/
namespace DominOS.Doprnt
open NumberText
variable {b : Nat} {f : Style} {args : List Arg}

theorem toInt_control : ∀ i : Fin 32, (BitVec.ofNat 8 (i + 1)).toInt = i + 1 := by decide

theorem bit_iff (u : BitVec 32) (i : Nat) (hi : i < 32) :
    u &&& (1 : BitVec 32) <<< i ≠ 0 ↔ u.getLsbD i = true := by
  change u &&& BitVec.twoPow 32 i ≠ 0 ↔ _
  rw [BitVec.and_twoPow]
  have hne : BitVec.twoPow 32 i ≠ 0#32 := by
    intro h
    have hpow := congrArg BitVec.toNat h
    rw [BitVec.toNat_twoPow, Nat.mod_eq_of_lt (Nat.pow_lt_pow_right (by decide) hi)] at hpow
    have := Nat.pow_pos (n := i) (show 0 < 2 by decide)
    simp at hpow
  by_cases hbit : u.getLsbD i = true
  · simp [hbit, hne]
  · simp [hbit]

theorem mask_toNat : ∀ k : Fin 32, ((2 : BitVec 32) <<< k.val - 1).toNat = 2 ^ (k.val + 1) - 1 := by
  decide

theorem field_toNat (u : BitVec 32) (hi lo : Fin 32) (hle : lo ≤ hi) :
    (u >>> lo.val &&& ((2 : BitVec 32) <<< (hi.val - lo.val) - 1)).toNat =
      u.toNat / 2 ^ lo.val % 2 ^ (hi.val - lo.val + 1) := by
  have hmask := mask_toNat ⟨hi.val - lo.val, by omega⟩
  rw [BitVec.toNat_and, hmask, Nat.and_two_pow_sub_one_eq_mod, BitVec.toNat_ushiftRight,
    Nat.shiftRight_eq_div_pow]

theorem control_next (bits : List Bits) : ∀ c ∈ (bits.flatMap Bits.text).head?, c.toInt ≤ 32 := by
  have hle : ∀ i : Fin 32, (BitVec.ofNat 8 (i + 1)).toInt ≤ 32 := by decide
  intro c hc
  cases bits with
  | nil => simp at hc
  | cons x bits =>
    cases x with
    | one i s hne =>
      rw [List.flatMap_cons, Bits.text, List.cons_append, List.head?_cons] at hc
      cases hc
      exact hle i
    | range hi lo hlo s =>
      rw [List.flatMap_cons, Bits.text, List.cons_append, List.head?_cons] at hc
      cases hc
      exact hle hi

theorem name_append (s : Name) {rest : List Byte} (h : ∀ c ∈ rest.head?, c.toInt ≤ 32) :
    name (s.chars ++ rest) = s.chars ∧ pastName (s.chars ++ rest) = rest := by
  have hall : ∀ c ∈ s.chars, decide (32 < c.toInt) = true := by simpa using s.printing
  unfold name pastName
  rw [List.takeWhile_append_of_pos hall, List.dropWhile_append_of_pos hall]
  cases rest with
  | nil => simp
  | cons c rest =>
    have hc : ¬32 < c.toInt := not_lt.mpr (h c rfl)
    rw [List.takeWhile_cons_of_neg (by simpa using hc), List.dropWhile_cons_of_neg (by simpa using hc),
      List.append_nil]
    exact ⟨rfl, rfl⟩

def listed : Bool → List (List Byte) → List Byte
  | any, [] => if any then [ch '>'] else []
  | any, p :: ps => (if any then ch ',' else ch '<') :: p ++ listed true ps

theorem printFields_eq (hb : 1 < b) (hb' : b ≤ 16) (u : BitVec 32) (bits : List Bits) (fuel : Nat)
    (hfuel : bits.length < fuel) (any : Bool) :
    printFields u (BitVec.ofNat 32 b) fuel (bits.flatMap Bits.text) any =
      some (listed any (bits.flatMap (Bits.shown b u))) := by
  induction bits generalizing fuel any with
  | nil =>
    obtain ⟨fuel, rfl⟩ : ∃ n, fuel = n + 1 := ⟨fuel - 1, by omega⟩
    rfl
  | cons x bits ih =>
    obtain ⟨fuel, rfl⟩ : ∃ n, fuel = n + 1 := ⟨fuel - 1, by omega⟩
    rw [List.length_cons] at hfuel
    have hrest := ih fuel (by omega)
    have hnext := control_next bits
    rw [List.flatMap_cons, List.flatMap_cons]
    cases x with
    | one i s hne =>
      obtain ⟨hname, hpast⟩ := name_append s hnext
      obtain ⟨c, cs, hcs⟩ := List.exists_cons_of_ne_nil hne
      have hc : ¬(peek (s.chars ++ bits.flatMap Bits.text)).toInt ≤ 32 := by
        have := s.printing c (by rw [hcs]; exact List.mem_cons_self)
        rw [hcs, List.cons_append, peek_cons]
        omega
      unfold printFields
      rw [Bits.text, List.cons_append, peek_cons, List.tail_cons, toInt_control]
      rw [if_neg (by omega), if_neg hc, if_neg (by omega), hname, hpast]
      have hsub : ((i.val : Int) + 1 - 1).toNat = i.val := by omega
      have hshown : Bits.shown b u (.one i s hne) = if u.getLsbD i then [s.chars] else [] := rfl
      rw [hsub, hrest, hrest, hshown]
      by_cases hbit : u.getLsbD i = true
      · rw [if_pos ((bit_iff u i i.isLt).mpr hbit), if_pos hbit]
        rfl
      · rw [if_neg (mt (bit_iff u i i.isLt).mp hbit), if_neg hbit]
        rfl
    | range hi lo hle s =>
      obtain ⟨hname, hpast⟩ := name_append s hnext
      have hle' : lo.val ≤ hi.val := hle
      have hlo : ((lo.val : Int) + 1 - 1).toNat = lo.val := by omega
      have hwidth : ((hi.val : Int) + 1 - (lo.val + 1)).toNat = hi.val - lo.val := by omega
      unfold printFields
      simp only [Bits.text, List.cons_append, peek_cons, List.tail_cons, toInt_control]
      rw [if_neg (by omega), if_pos (by omega), if_neg (by simp; omega), hname, hpast, hlo, hwidth,
        printnum_eq hb hb', field_toNat u hi lo hle, hrest]
      simp only [Bits.shown, listed, Option.bind_eq_bind, Option.bind_some, List.nil_append,
        List.cons_append, List.append_assoc]

theorem listed_true (ps : List (List Byte)) :
    listed true ps = (ps.flatMap fun p => ch ',' :: p) ++ [ch '>'] := by
  induction ps with
  | nil => rfl
  | cons p ps ih => simp [listed, ih]

theorem intercalate_cons (p : List Byte) (ps : List (List Byte)) :
    List.intercalate [ch ','] (p :: ps) = p ++ ps.flatMap fun p => ch ',' :: p := by
  induction ps generalizing p with
  | nil => simp
  | cons q ps ih => rw [List.intercalate_cons_cons, ih]; simp

theorem listed_false (ps : List (List Byte)) : listed false ps =
    if ps = [] then [] else ch '<' :: List.intercalate [ch ','] ps ++ [ch '>'] := by
  cases ps with
  | nil => rfl
  | cons p ps => simp [listed, listed_true, intercalate_cons]

theorem signExtend_base : ∀ b ≤ 16, (BitVec.ofNat 8 b).signExtend 32 = BitVec.ofNat 32 b := by decide

theorem length_le_text (bits : List Bits) : bits.length ≤ (bits.flatMap Bits.text).length := by
  induction bits with
  | nil => simp
  | cons x bits ih =>
    cases x with
    | one i s hne =>
      simp only [List.flatMap_cons, Bits.text, List.length_append, List.length_cons]
      omega
    | range hi lo hle s =>
      simp only [List.flatMap_cons, Bits.text, List.length_append, List.length_cons]
      omega

theorem printBits_eq (r : Register) (u : BitVec 32) : printBits u (some r.text) = some (r.field u) := by
  have hlower : 1 < r.base := r.lower
  unfold printBits
  simp only [Option.bind_eq_bind, Option.bind_some, Register.text, peek_cons, List.tail_cons,
    signExtend_base r.base r.upper, printnum_eq hlower r.upper]
  unfold Register.field Register.names
  by_cases hu : u = 0
  · rw [if_pos hu, if_pos (.inl hu), List.append_nil]
  · have hfuel : r.bits.length <
        (BitVec.ofNat 8 r.base :: r.bits.flatMap Bits.text).length + 1 := by
      have := length_le_text r.bits
      rw [List.length_cons]
      omega
    rw [if_neg hu, printFields_eq hlower r.upper u r.bits _ hfuel false, listed_false]
    simp only [hu, false_or, Option.bind_some]

/-! The items of a format. -/

namespace Item

theorem doprnt_cons {radix : BitVec 32} {c : Byte} (h0 : c ≠ 0) (hc : c ≠ ch '%')
    (fmt : List Byte) (args : List Arg) :
    doprnt radix (c :: fmt) args = (doprnt radix fmt args).map (c :: ·) := by
  rw [doprnt, if_neg h0, if_pos hc]

theorem doprnt_directive {radix : BitVec 32} {c : Byte} {out : List Byte} {args' : List Arg}
    (hc : c ∉ special) (h0 : c ≠ 0) (hout : convert radix c f.layout args = some (out, args'))
    (fmt : List Byte) :
    doprnt radix (ch '%' :: f.text ++ c :: fmt) (f.args ++ args) =
      (doprnt radix fmt args').map (out ++ ·) := by
  have hlayout : layout (f.text ++ c :: fmt) (f.args ++ args) = some (c :: fmt, args, f.layout) :=
    layout_text (show peek (c :: fmt) ∉ special from hc) args
  rw [List.cons_append, doprnt, if_neg (by decide), if_neg (by simp)]
  split
  · rename_i hnone
    rw [hlayout] at hnone
    cases hnone
  · rename_i fmt' args₁ g hsome
    rw [hlayout] at hsome
    cases hsome
    simp only [Option.bind_eq_bind, peek_cons, hout, Option.bind_some, if_neg h0, List.tail_cons]
    cases doprnt radix fmt args' <;> rfl

theorem letter_plain {c : Byte} {k : Kind} (hc : Kind.of c = some k) : c ∉ special ∧ c ≠ 0 := by
  have hall : ∀ d ∈ Doprnt.text "diDzZuUxXoO", d ∉ special ∧ d ≠ 0 := by decide
  refine hall c ?_
  unfold Kind.of at hc
  split_ifs at hc with h1 h2 h3 h4 h5
  · exact (show Doprnt.text "diD" ⊆ Doprnt.text "diDzZuUxXoO" by decide) h1
  · exact (show Doprnt.text "zZ" ⊆ Doprnt.text "diDzZuUxXoO" by decide) h2
  · exact (show Doprnt.text "uU" ⊆ Doprnt.text "diDzZuUxXoO" by decide) h3
  · exact (show Doprnt.text "xX" ⊆ Doprnt.text "diDzZuUxXoO" by decide) h4
  · exact (show Doprnt.text "oO" ⊆ Doprnt.text "diDzZuUxXoO" by decide) h5

def plains (s : List Byte) (h : ∀ c ∈ s, c ≠ 0 ∧ c ≠ ch '%') : List Item :=
  s.attach.map fun c => .plain c.val (h c.val c.property)

theorem plains_text {s : List Byte} (h : ∀ c ∈ s, c ≠ 0 ∧ c ≠ ch '%') :
    (plains s h).flatMap Item.text = s ∧ (plains s h).flatMap Item.args = [] ∧
      (plains s h).flatMap Item.shown = s := by
  have hone : (s.attach.map fun c => c.val).flatMap (fun c => [c]) = s := by simp
  unfold plains
  rw [List.flatMap_map, List.flatMap_map, List.flatMap_map]
  rw [List.flatMap_map] at hone
  exact ⟨hone, by simp [Item.args], hone⟩

theorem doprnt_append (radix : BitVec 32) (x : Item) (fmt : List Byte) (args : List Arg) :
    doprnt radix (x.text ++ fmt) (x.args ++ args) = (doprnt radix fmt args).map (x.shown ++ ·) := by
  have hdirective (f : Style) (c : Byte) (more : List Arg) (out : List Byte) (hc : c ∉ special)
      (h0 : c ≠ 0) (hout : convert radix c f.layout (more ++ args) = some (out, args)) :
      doprnt radix (ch '%' :: f.text ++ [c] ++ fmt) (f.args ++ more ++ args) =
        (doprnt radix fmt args).map (out ++ ·) := by
    rw [List.append_assoc, List.append_assoc, List.singleton_append]
    exact doprnt_directive hc h0 hout fmt
  cases x with
  | plain c hc => exact doprnt_cons hc.1 hc.2 fmt args
  | percent f =>
    have hpercent := hdirective f (ch '%') [] [ch '%'] (by decide) (by decide) rfl
    rwa [List.append_nil] at hpercent
  | number f c k hc w =>
    have hletter := letter_plain hc
    exact hdirective f c _ _ hletter.1 hletter.2 (convert_number hc radix f w)
  | pointer f w => exact hdirective f _ _ _ (by decide) (by decide) (convert_pointer radix f w)
  | char f w => exact hdirective f (ch 'c') [.word w] _ (by decide) (by decide) rfl
  | string f s =>
    refine hdirective f (ch 's') [.str s] _ (by decide) (by decide) ?_
    change some (printText (s.getD []) f.layout, args) = _
    rw [printText_eq]
    rfl
  | bits f r u =>
    refine hdirective f (ch 'b') [.word u, .str (some r.text)] _ (by decide) (by decide) ?_
    change (printBits u (some r.text)).bind (fun out => some (out, args)) = _
    rw [printBits_eq]
    rfl

end Item

/-- A format puts out what its items show, in their order. -/
theorem doprnt_items (radix : BitVec 32) (items : List Item) (args : List Arg) :
    doprnt radix (items.flatMap Item.text) (items.flatMap Item.args ++ args) =
      some (items.flatMap Item.shown) := by
  induction items with
  | nil => rw [List.flatMap_nil, doprnt, List.flatMap_nil]
  | cons x items ih =>
    rw [List.flatMap_cons, List.flatMap_cons, List.append_assoc, Item.doprnt_append, ih]
    rfl

end DominOS.Doprnt
