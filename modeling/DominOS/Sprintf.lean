import DominOS.DoprntItems
import DominOS.ByteMemory

/-! sprintf.c: what is stored behind the pointer that a caller gives. -/
namespace DominOS.Sprintf
open Doprnt ByteMemory

def unlimited : BitVec 32 := 0xFFFFFFF

structure State where
  buf : Nat
  len : BitVec 32
  max : BitVec 32
  memory : Memory

def savechar (w : Window) (c : Byte) (s : State) : Option State :=
  if s.max ≠ unlimited ∧ s.len = s.max then some s
  else (store w s.buf c s.memory).map fun m => { s with len := s.len + 1, buf := s.buf + 1, memory := m }

def saveAll (w : Window) : List Byte → State → Option State
  | [], s => some s
  | c :: out, s => (savechar w c s).bind (saveAll w out)

def vsnprintf (w : Window) (s : Nat) (size : BitVec 32) (fmt : List Byte) (args : List Arg)
    (m : Memory) : Option (BitVec 32 × Memory) := do
  let out ← doprnt 0 fmt args
  let state ← saveAll w out ⟨s, 0, size, m⟩
  let m ← store w state.buf 0 state.memory
  some (state.len, m)

def vsprintf (w : Window) (s : Nat) (fmt : List Byte) (args : List Arg) (m : Memory) :
    Option (BitVec 32 × Memory) := vsnprintf w s unlimited fmt args m

variable {w : Window} {a : Nat} {size len : BitVec 32} {m : Memory} {out fmt : List Byte}
  {args : List Arg}

/-- With room for `n` characters, the first `n` go to their places and the others nowhere. -/
theorem saveAll_eq {n : Nat} (len : BitVec 32) (hfree : size = unlimited → out.length ≤ n)
    (hlimit : size ≠ unlimited → len.toNat + n = size.toNat) :
    saveAll w out ⟨a, len, size, m⟩ = (storeAll w a (out.take n) m).map fun m =>
      ⟨a + (out.take n).length, len + BitVec.ofNat 32 (out.take n).length, size, m⟩ := by
  induction out generalizing a len m n with
  | nil => simp [saveAll, storeAll]
  | cons c out ih =>
    rw [saveAll, savechar]
    cases n with
    | zero =>
      have hsize : size ≠ unlimited := fun h => absurd (hfree h) (by simp)
      have hfull : len = size := BitVec.eq_of_toNat_eq (by have := hlimit hsize; omega)
      have hrest := ih (a := a) (m := m) (n := 0) len (fun h => absurd h hsize) hlimit
      rw [if_pos ⟨hsize, hfull⟩, Option.bind_some, hrest]
      rfl
    | succ n =>
      have hopen : ¬(size ≠ unlimited ∧ len = size) := by
        rintro ⟨hsize, rfl⟩
        have := hlimit hsize
        omega
      have hnext : size ≠ unlimited → (len + 1).toNat + n = size.toNat := by
        intro hsize
        have := hlimit hsize
        have hlt := size.isLt
        rw [BitVec.toNat_add]
        simp
        omega
      rw [if_neg hopen, List.take_succ_cons, storeAll]
      cases hstore : store w a c m with
      | none => simp
      | some m₁ =>
        have hrest := ih (a := a + 1) (m := m₁) (n := n) (len + 1)
          (fun h => by have := hfree h; simp only [List.length_cons] at this; omega) hnext
        simp only [Option.map_some, Option.bind_some, hrest, List.length_cons]
        congr 1
        funext m₂
        simp only [State.mk.injEq, and_true]
        refine ⟨by omega, ?_⟩
        rw [BitVec.add_assoc, show (1 : BitVec 32) = BitVec.ofNat 32 1 from rfl, ← BitVec.ofNat_add,
          Nat.add_comm 1]

theorem vsnprintf_eq {n : Nat} (hout : doprnt 0 fmt args = some out)
    (hfree : size = unlimited → out.length ≤ n) (hlimit : size ≠ unlimited → n = size.toNat) :
    vsnprintf w a size fmt args m = if w.Holds a ((out.take n).length + 1) then
      some (BitVec.ofNat 32 (out.take n).length, overlaid a (out.take n ++ [0]) m) else none := by
  have hsave := saveAll_eq (w := w) (a := a) (m := m) 0 hfree (by simpa using hlimit)
  have hstores : storeAll w a (out.take n ++ [0]) m =
      (storeAll w a (out.take n) m).bind (store w (a + (out.take n).length) 0) := by
    rw [storeAll_append]
    congr 1
    funext m₁
    rw [storeAll]
    cases store w (a + (out.take n).length) 0 m₁ <;> rfl
  have hall : storeAll w a (out.take n ++ [0]) m = if w.Holds a ((out.take n).length + 1) then
      some (overlaid a (out.take n ++ [0]) m) else none := by
    cases hkept : out.take n with
    | nil => exact storeAll_eq 0 []
    | cons c cs =>
      rw [List.cons_append, storeAll_eq]
      simp
  unfold vsnprintf
  rw [hout]
  simp only [Option.bind_eq_bind, Option.bind_some, hsave]
  rw [hstores] at hall
  cases hput : storeAll w a (out.take n) m with
  | none =>
    rw [hput] at hall
    simp only [Option.bind_none] at hall
    split at hall
    · cases hall
    · rename_i hnot
      rw [if_neg hnot]
      rfl
  | some m₁ =>
    rw [hput, Option.bind_some] at hall
    simp only [Option.map_some, Option.bind_some, hall]
    split
    · simp
    · rfl

theorem holds_array {s n k : Nat} : (Window.mk s n).Holds s (k + 1) ↔ k < n := by
  unfold Window.Holds
  dsimp only
  omega

/-- A buffer of `size` bytes is too small by one for what does not fit into it: the NUL goes behind
its end. -/
theorem snprintf_bounds (hout : doprnt 0 fmt args = some out) (hsize : size ≠ unlimited) (s : Nat)
    (m : Memory) :
    (vsnprintf ⟨s, size.toNat⟩ s size fmt args m = if out.length < size.toNat then
      some (BitVec.ofNat 32 out.length, overlaid s (out ++ [0]) m) else none) ∧
    vsnprintf ⟨s, size.toNat + 1⟩ s size fmt args m =
      some (BitVec.ofNat 32 (min out.length size.toNat),
        overlaid s (out.take size.toNat ++ [0]) m) := by
  have hcall (w : Window) := vsnprintf_eq (w := w) (a := s) (m := m) (n := size.toNat) hout
    (fun h => absurd h hsize) fun _ => rfl
  constructor
  · rw [hcall]
    simp only [holds_array, List.length_take]
    by_cases hfits : out.length < size.toNat
    · rw [if_pos (by omega), if_pos hfits, List.take_of_length_le hfits.le,
        Nat.min_eq_right hfits.le]
    · rw [if_neg (by omega), if_neg hfits]
  · rw [hcall]
    simp only [holds_array, List.length_take]
    rw [if_pos (by omega), Nat.min_comm]

/-- `%d` of a number of four digits in a buffer of four bytes. -/
theorem snprintf_bounds_four : vsnprintf ⟨0x1000, 4⟩ 0x1000 4 (text "%d") [.word 1234] (fun _ => 7) =
      none ∧
    vsnprintf ⟨0x1000, 5⟩ 0x1000 4 (text "%d") [.word 1234] (fun _ => 7) =
      some (4, overlaid 0x1000 (text "1234" ++ [0]) fun _ => 7) := by
  have hout : doprnt 0 (text "%d") [.word 1234] = some (text "1234") := by decide +kernel
  exact snprintf_bounds hout (show (4 : BitVec 32) ≠ unlimited by decide) 0x1000 fun _ => 7

theorem sprintf_bounds (hout : doprnt 0 fmt args = some out) (s n : Nat) (m : Memory) :
    vsprintf ⟨s, n⟩ s fmt args m = if out.length < n then
      some (BitVec.ofNat 32 out.length, overlaid s (out ++ [0]) m) else none := by
  unfold vsprintf
  rw [vsnprintf_eq (n := out.length) hout (fun _ => le_rfl) fun h => absurd rfl h,
    List.take_of_length_le le_rfl]
  simp only [holds_array]

/-- The format of the report in `page_fault_handler`. -/
def faultFormat : List Byte := text "[%s] Segmentation fault at: 0x%08X\n"

def plainStyle : Style := ⟨[], false, Count.absent, none, false⟩

def addressStyle : Style := ⟨[], true, ⟨8, false, by decide, by decide⟩, none, false⟩

def faultItems (comm : List Byte) (addr : BitVec 32) : List Item :=
  Item.plains (text "[") (by decide) ++ .string plainStyle (some comm) ::
    Item.plains (text "] Segmentation fault at: 0x") (by decide) ++
      [.number addressStyle (ch 'X') ⟨false, 16⟩ rfl addr, .plain (ch '\n') (by decide)]

theorem string_length (s : List Byte) :
    (plainStyle.string s).length = min 0x7fffffff (cString s).length := by
  have hshown : plainStyle.shown s = (cString s).take 0x7fffffff := rfl
  have hleft : plainStyle.left = false := by decide
  have hsize : plainStyle.size = 0 := by decide
  unfold Style.string
  rw [hleft, hshown, hsize, if_neg (by decide), Nat.zero_sub, List.replicate_zero, List.nil_append,
    List.length_take]

theorem address_length (addr : BitVec 32) :
    (Kind.field ⟨false, 16⟩ addressStyle addr).length = 8 := by
  have hmark : Kind.mark ⟨false, 16⟩ addressStyle addr = [] := if_neg fun h => by simp [Style.alt, addressStyle] at h
  have hdigits : (numeral 16 addr.toNat).length ≤ 8 := by
    unfold numeral
    rw [List.length_map]
    exact NumberText.length_digitsOf_le (by decide) (by decide) addr.isLt
  have hbody : (Kind.digits ⟨false, 16⟩ addressStyle addr).length = (numeral 16 addr.toNat).length := by
    unfold Kind.digits
    simp [Kind.magnitude, Style.least, addressStyle]
  have hsize : addressStyle.size = 8 := by decide
  have hsign : Kind.sign ⟨false, 16⟩ addressStyle addr = [] := rfl
  unfold Kind.field
  rw [pad_length, hmark, hsign, hsize, List.nil_append, List.nil_append, hbody]
  omega

/-- The report has room in the 100 bytes of `str` for every address and a name of up to 62. -/
theorem fault_report_fits (comm : List Byte) (addr : BitVec 32) (s : Nat) (m : Memory) :
    (vsprintf ⟨s, 100⟩ s faultFormat [.str (some comm), .word addr] m).isSome ↔
      (cString comm).length ≤ 62 := by
  have htext : (faultItems comm addr).flatMap Item.text = faultFormat := by
    unfold faultItems
    simp only [List.flatMap_append, List.flatMap_cons, List.flatMap_nil, (Item.plains_text _).1,
      Item.text]
    decide
  have hargs : (faultItems comm addr).flatMap Item.args ++ [] = [.str (some comm), .word addr] := by
    unfold faultItems
    simp only [List.flatMap_append, List.flatMap_cons, (Item.plains_text _).2.1]
    rfl
  have hout : doprnt 0 faultFormat [.str (some comm), .word addr] =
      some ((faultItems comm addr).flatMap Item.shown) := by
    rw [← htext, ← hargs]
    exact doprnt_items 0 _ []
  have hlength : ((faultItems comm addr).flatMap Item.shown).length =
      min 0x7fffffff (cString comm).length + 37 := by
    have hfixed : (text "[").length = 1 ∧ (text "] Segmentation fault at: 0x").length = 27 := by decide
    unfold faultItems
    simp only [List.flatMap_append, List.flatMap_cons, List.flatMap_nil, (Item.plains_text _).2.2,
      Item.shown, List.length_append, List.length_cons, List.length_nil, address_length,
      Option.getD_some, string_length]
    omega
  rw [sprintf_bounds hout, hlength]
  split
  · simp only [Option.isSome_some, true_iff]
    omega
  · simp only [Option.isSome_none, Bool.false_eq_true, false_iff]
    omega

end DominOS.Sprintf
