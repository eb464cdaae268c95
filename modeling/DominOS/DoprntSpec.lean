import DominOS.Doprnt

/-! What a format stands for: characters and directives, each with the field it puts out. -/
namespace DominOS.Doprnt
open NumberText

def digitChar (d : Nat) : Byte := digs.getD d 0

def numeral (b n : Nat) : List Byte := (digitsOf b n).map digitChar

inductive Flag where
  | alt
  | left
  | plus
  | blank
deriving DecidableEq

def Flag.char : Flag → Byte
  | alt => ch '#'
  | left => ch '-'
  | plus => ch '+'
  | blank => ch ' '

/-- A width or a precision, written in the format or taken from the arguments. -/
structure Count where
  value : Int
  star : Bool
  written : star ∨ 0 ≤ value
  small : |value| < 2 ^ 30
deriving DecidableEq

namespace Count

def absent : Count := ⟨0, false, by decide, by decide⟩

def text (n : Count) : List Byte := if n.star then [ch '*'] else numeral 10 n.value.toNat

def args (n : Count) : List Arg := if n.star then [.word (BitVec.ofInt 32 n.value)] else []

end Count

/-- What stands between a `%` and its conversion. -/
structure Style where
  flags : List Flag
  zero : Bool
  width : Count
  prec : Option Count
  long : Bool
deriving DecidableEq

namespace Style

def widthText (f : Style) : List Byte :=
  if f.width.value = 0 ∧ ¬f.width.star then [] else f.width.text

def precText (f : Style) : List Byte := f.prec.elim [] fun n => ch '.' :: n.text

def text (f : Style) : List Byte :=
  f.flags.map Flag.char ++ (if f.zero then [ch '0'] else []) ++ f.widthText ++ f.precText ++
    (if f.long then [ch 'l'] else [])

def args (f : Style) : List Arg := f.width.args ++ f.prec.elim [] Count.args

def left (f : Style) : Bool := decide (.left ∈ f.flags) ^^ decide (f.width.value < 0)

def alt (f : Style) : Bool := decide (.alt ∈ f.flags)

def plus (f : Style) : List Byte :=
  if .plus ∈ f.flags then [ch '+'] else if .blank ∈ f.flags then [ch ' '] else []

def size (f : Style) : Nat := f.width.value.natAbs

def least (f : Style) : Nat := f.prec.elim 0 fun n => n.value.toNat

end Style

inductive Fill where
  | before
  | between
  | after
deriving DecidableEq

def Style.fill (f : Style) : Fill := if f.zero then .between else if f.left then .after else .before

/-- A field of at least `size`: blanks before or after what it shows, or zeros within. -/
def pad (fill : Fill) (size : Nat) (lead body : List Byte) : List Byte :=
  match fill with
  | .before => List.replicate (size - (lead ++ body).length) (ch ' ') ++ lead ++ body
  | .between => lead ++ List.replicate (size - (lead ++ body).length) (ch '0') ++ body
  | .after => lead ++ body ++ List.replicate (size - (lead ++ body).length) (ch ' ')

theorem pad_length (fill : Fill) (size : Nat) (lead body : List Byte) :
    (pad fill size lead body).length = max size (lead ++ body).length := by
  unfold pad
  cases fill <;> simp only [List.length_append, List.length_replicate] <;> omega

structure Kind where
  signed : Bool
  base : Nat
deriving DecidableEq

namespace Kind

def of (c : Byte) : Option Kind :=
  if c ∈ Doprnt.text "diD" then some ⟨true, 10⟩
  else if c ∈ Doprnt.text "zZ" then some ⟨true, 16⟩
  else if c ∈ Doprnt.text "uU" then some ⟨false, 10⟩
  else if c ∈ Doprnt.text "xX" then some ⟨false, 16⟩
  else if c ∈ Doprnt.text "oO" then some ⟨false, 8⟩
  else none

def negative (k : Kind) (w : BitVec 32) : Bool := k.signed && decide (w.toInt < 0)

def magnitude (k : Kind) (w : BitVec 32) : Nat := if k.signed then w.toInt.natAbs else w.toNat

def sign (k : Kind) (f : Style) (w : BitVec 32) : List Byte :=
  if k.negative w then [ch '-'] else if k.signed then f.plus else []

def mark (k : Kind) (f : Style) (w : BitVec 32) : List Byte :=
  if w ≠ 0 ∧ f.alt then if k.base = 8 then Doprnt.text "0"
    else if k.base = 16 then Doprnt.text "0x" else []
  else []

def digits (k : Kind) (f : Style) (w : BitVec 32) : List Byte :=
  List.replicate (f.least - (numeral k.base (k.magnitude w)).length) (ch '0') ++
    numeral k.base (k.magnitude w)

def field (k : Kind) (f : Style) (w : BitVec 32) : List Byte :=
  pad f.fill f.size (k.sign f w ++ k.mark f w) (k.digits f w)

end Kind

def Style.pointer (f : Style) (w : BitVec 32) : List Byte :=
  Doprnt.text "0x" ++ pad .between 8 (Kind.mark ⟨false, 16⟩ f w) (Kind.digits ⟨false, 16⟩ f w)

def cString (s : List Byte) : List Byte := s.takeWhile (· ≠ 0)

def Style.shown (f : Style) (s : List Byte) : List Byte :=
  (cString s).take
    (f.prec.elim 0x7fffffff fun n => if n.value = -1 then 0x7fffffff else n.value.toNat)

def Style.string (f : Style) (s : List Byte) : List Byte :=
  if f.left then
    f.shown s ++ List.replicate
      (f.size - ((f.shown s).length + if f.shown s ≠ cString s then 1 else 0)) (ch ' ')
  else List.replicate (f.size - (f.shown s).length) (ch ' ') ++ f.shown s

structure Name where
  chars : List Byte
  printing : ∀ c ∈ chars, 32 < c.toInt
deriving DecidableEq

inductive Bits where
  | one (i : Fin 32) (s : Name) (hne : s.chars ≠ [])
  | range (hi lo : Fin 32) (hle : lo ≤ hi) (s : Name)
deriving DecidableEq

namespace Bits

def text : Bits → List Byte
  | one i s _ => BitVec.ofNat 8 (i + 1) :: s.chars
  | range hi lo _ s => BitVec.ofNat 8 (hi + 1) :: BitVec.ofNat 8 (lo + 1) :: s.chars

def shown (base : Nat) (u : BitVec 32) : Bits → List (List Byte)
  | one i s _ => if u.getLsbD i then [s.chars] else []
  | range hi lo _ s => [s.chars ++ numeral base (u.toNat / 2 ^ lo.val % 2 ^ (hi.val - lo.val + 1))]

end Bits

structure Register where
  base : Nat
  lower : 2 ≤ base
  upper : base ≤ 16
  bits : List Bits
deriving DecidableEq

namespace Register

def text (r : Register) : List Byte := BitVec.ofNat 8 r.base :: r.bits.flatMap Bits.text

def names (r : Register) (u : BitVec 32) : List Byte :=
  if u = 0 ∨ r.bits.flatMap (Bits.shown r.base u) = [] then []
  else ch '<' :: List.intercalate [ch ','] (r.bits.flatMap (Bits.shown r.base u)) ++ [ch '>']

def field (r : Register) (u : BitVec 32) : List Byte := numeral r.base u.toNat ++ r.names u

end Register

/-- A part of a format, with its arguments. -/
inductive Item where
  | plain (c : Byte) (hc : c ≠ 0 ∧ c ≠ ch '%')
  | percent (f : Style)
  | number (f : Style) (c : Byte) (k : Kind) (hc : Kind.of c = some k) (w : BitVec 32)
  | pointer (f : Style) (w : BitVec 32)
  | char (f : Style) (w : BitVec 32)
  | string (f : Style) (s : Option (List Byte))
  | bits (f : Style) (r : Register) (u : BitVec 32)
deriving DecidableEq

namespace Item

def text : Item → List Byte
  | plain c _ => [c]
  | percent f => ch '%' :: f.text ++ [ch '%']
  | number f c _ _ _ => ch '%' :: f.text ++ [c]
  | pointer f _ => ch '%' :: f.text ++ [ch 'p']
  | char f _ => ch '%' :: f.text ++ [ch 'c']
  | string f _ => ch '%' :: f.text ++ [ch 's']
  | bits f _ _ => ch '%' :: f.text ++ [ch 'b']

def args : Item → List Arg
  | plain _ _ => []
  | percent f => f.args
  | number f _ _ _ w => f.args ++ [.word w]
  | pointer f w => f.args ++ [.word w]
  | char f w => f.args ++ [.word w]
  | string f s => f.args ++ [.str s]
  | bits f r u => f.args ++ [.word u, .str (some r.text)]

def shown : Item → List Byte
  | plain c _ => [c]
  | percent _ => [ch '%']
  | number f _ k _ w => k.field f w
  | pointer f w => f.pointer w
  | char _ w => [w.setWidth 8]
  | string f s => f.string (s.getD [])
  | bits _ r u => r.field u

end Item
end DominOS.Doprnt
