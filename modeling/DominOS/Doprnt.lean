import DominOS.NumberText

/-! doprnt.c: what a format and its arguments make a caller of `_doprnt` put out. -/
namespace DominOS.Doprnt

abbrev Byte := BitVec 8

def ch (c : Char) : Byte := BitVec.ofNat 8 c.toNat

def text (s : String) : List Byte := s.toList.map ch

/-- What `va_arg` takes: a word, or a pointer to a string, which is NULL or holds these bytes. -/
inductive Arg where
  | word (w : BitVec 32)
  | str (s : Option (List Byte))
deriving DecidableEq

/-- An `int` wraps around. -/
def wrap (x : Int) : Int := x.bmod (2 ^ 32)

/-- `*p` of a string that holds these bytes and then its NUL. -/
def peek (p : List Byte) : Byte := p.headD 0

def isdigit (d : Byte) : Bool := ch '0' ≤ d && d ≤ ch '9'

def ctod (c : Byte) : Int := c.toInt - (ch '0').toInt

def maxbuf : Nat := 32

def digs : List Byte := text "0123456789abcdef" ++ [0]

/-- The `do`-loop that builds a number downwards from the end of `buf`, of which `room` is left.
It fails on a division by zero, beyond `digs`, and below the buffer. -/
def build : Nat → BitVec 32 → BitVec 32 → List Byte → Option (List Byte)
  | 0, _, _, _ => none
  | room + 1, u, base, p =>
    if base = 0 then none
    else do
      let c ← digs[(u % base).toNat]?
      if u / base ≠ 0 then build room (u / base) base (c :: p) else some (c :: p)

def printnum (u base : BitVec 32) : Option (List Byte) := build maxbuf u base []

structure Layout where
  length : Int
  prec : Int
  ladjust : Bool
  padc : Byte
  plusSign : Byte
  altfmt : Bool
deriving DecidableEq

def Layout.init : Layout := ⟨0, -1, false, ch ' ', 0, false⟩

def flags : List Byte → Layout → List Byte × Layout
  | [], f => ([], f)
  | c :: fmt, f =>
    if c = ch '#' then flags fmt { f with altfmt := true }
    else if c = ch '-' then flags fmt { f with ladjust := true }
    else if c = ch '+' then flags fmt { f with plusSign := ch '+' }
    else if c = ch ' ' then
      flags fmt (if f.plusSign = 0 then { f with plusSign := ch ' ' } else f)
    else (c :: fmt, f)

def zero (fmt : List Byte) (f : Layout) : List Byte × Layout :=
  if peek fmt = ch '0' then (fmt.tail, { f with padc := ch '0' }) else (fmt, f)

def number : List Byte → Int → List Byte × Int
  | [], n => ([], n)
  | c :: fmt, n => if isdigit c then number fmt (wrap (10 * n + ctod c)) else (c :: fmt, n)

def vaWord : List Arg → Option (BitVec 32 × List Arg)
  | .word w :: args => some (w, args)
  | _ => none

def vaStr : List Arg → Option (Option (List Byte) × List Arg)
  | .str s :: args => some (s, args)
  | _ => none

def width (fmt : List Byte) (args : List Arg) (f : Layout) :
    Option (List Byte × List Arg × Layout) :=
  if isdigit (peek fmt) then
    some ((number fmt 0).1, args, { f with length := (number fmt 0).2 })
  else if peek fmt = ch '*' then do
    let (w, args) ← vaWord args
    if w.toInt < 0 then
      some (fmt.tail, args, { f with ladjust := !f.ladjust, length := wrap (-w.toInt) })
    else some (fmt.tail, args, { f with length := w.toInt })
  else some (fmt, args, f)

def precision (fmt : List Byte) (args : List Arg) (f : Layout) :
    Option (List Byte × List Arg × Layout) :=
  if peek fmt = ch '.' then
    if isdigit (peek fmt.tail) then
      some ((number fmt.tail 0).1, args, { f with prec := (number fmt.tail 0).2 })
    else if peek fmt.tail = ch '*' then do
      let (w, args) ← vaWord args
      some (fmt.tail.tail, args, { f with prec := w.toInt })
    else some (fmt.tail, args, f)
  else some (fmt, args, f)

/-- From behind a `%` to the conversion. -/
def layout (fmt : List Byte) (args : List Arg) : Option (List Byte × List Arg × Layout) := do
  let z := zero (flags fmt Layout.init).1 (flags fmt Layout.init).2
  let (fmt, args, f) ← width z.1 args z.2
  let (fmt, args, f) ← precision fmt args f
  some (if peek fmt = ch 'l' then fmt.tail else fmt, args, f)

/-- `while (--length >= 0)`: how often it runs, and what it leaves in `length`. -/
def countdown (length : Int) : Nat × Int :=
  ((wrap (length - 1) + 1).toNat, min (wrap (length - 1)) (-1))

/-- The end of `print_num`, from the padding on. -/
def putNum (length prec : Int) (sign pre digits : List Byte) (f : Layout) : List Byte :=
  let zeros := List.replicate (countdown prec).1 (ch '0')
  let (before, length) :=
    if f.padc = ch ' ' ∧ ¬f.ladjust then countdown length else (0, length)
  let (between, length) := if f.padc = ch '0' then countdown length else (0, length)
  let after := if f.ladjust then (countdown length).1 else 0
  List.replicate before (ch ' ') ++ sign ++ pre ++ zeros ++ List.replicate between (ch '0') ++
    digits ++ List.replicate after (ch ' ')

def printNum (u base : BitVec 32) (signChar : Byte) (f : Layout) : Option (List Byte) := do
  let pre := if u ≠ 0 ∧ f.altfmt then
    if base = 8 then text "0" else if base = 16 then text "0x" else []
  else []
  let sign := if signChar ≠ 0 then [signChar] else []
  let digits ← printnum u base
  let prec := wrap (f.prec - digits.length)
  let length := wrap (f.length - digits.length - sign.length - pre.length -
    (if 0 < prec then prec else 0))
  some (putNum length prec sign pre digits f)

def printSigned (base : BitVec 32) (f : Layout) (args : List Arg) :
    Option (List Byte × List Arg) := do
  let (n, args) ← vaWord args
  let out ← if 0 ≤ n.toInt then printNum n base f.plusSign f else printNum (-n) base (ch '-') f
  some (out, args)

def printUnsigned (base : BitVec 32) (f : Layout) (args : List Arg) :
    Option (List Byte × List Arg) := do
  let (u, args) ← vaWord args
  let out ← printNum u base 0 f
  some (out, args)

/-- `for (; *p != '\0' && n < prec; p++) n++` -/
def countText (prec : Int) : List Byte → Int → Int
  | [], n => n
  | c :: p, n => if c ≠ 0 ∧ n < prec then countText prec p (n + 1) else n

/-- `while (*p != '\0')` of `%s`: what it puts out, and what it leaves in `n`. -/
def putText (prec : Int) : List Byte → Int → List Byte × Int
  | [], n => ([], n)
  | c :: p, n =>
    if c = 0 then ([], n)
    else if n + 1 > prec then ([], n + 1)
    else (c :: (putText prec p (n + 1)).1, (putText prec p (n + 1)).2)

def printText (p : List Byte) (f : Layout) : List Byte :=
  let prec := if f.prec = -1 then 0x7fffffff else f.prec
  let before := if 0 < f.length ∧ ¬f.ladjust then (f.length - countText prec p 0).toNat else 0
  let (out, n) := putText prec p 0
  let after := if n < f.length ∧ f.ladjust then (f.length - n).toNat else 0
  List.replicate before (ch ' ') ++ out ++ List.replicate after (ch ' ')

/-- `for (; (c = *p) > 32; p++)` -/
def name (p : List Byte) : List Byte := p.takeWhile fun c => 32 < c.toInt

def pastName (p : List Byte) : List Byte := p.dropWhile fun c => 32 < c.toInt

/-- `while ((i = *p++) != 0)` of `%b`. It fails where it reads behind the NUL, and where a shift is
not by 0 to 31. -/
def printFields (u base : BitVec 32) : Nat → List Byte → Bool → Option (List Byte)
  | 0, _, _ => none
  | fuel + 1, p, any => do
    let i := (peek p).toInt
    let mark := if any then ch ',' else ch '<'
    if i = 0 then some (if any then [ch '>'] else [])
    else
      let p := p.tail
      if (peek p).toInt ≤ 32 then
        let j := (peek p).toInt
        if p = [] ∨ j < 1 ∨ 32 < j ∨ i < j ∨ j + 31 < i then none
        else
          let p := p.tail
          let field := u >>> (j - 1).toNat &&& ((2 : BitVec 32) <<< (i - j).toNat - 1)
          let out ← printnum field base
          let rest ← printFields u base fuel (pastName p) true
          some (mark :: name p ++ out ++ rest)
      else if i < 1 ∨ 32 < i then none
      else if u &&& ((1 : BitVec 32) <<< (i - 1).toNat) ≠ 0 then
        let rest ← printFields u base fuel (pastName p) true
        some (mark :: name p ++ rest)
      else printFields u base fuel (pastName p) any

def printBits (u : BitVec 32) (p : Option (List Byte)) : Option (List Byte) := do
  let p ← p
  let base : BitVec 32 := (peek p).signExtend 32
  let out ← printnum u base
  if u = 0 then some out
  else
    let fields ← printFields u base (p.length + 1) p.tail false
    some (out ++ fields)

/-- The `switch` on the conversion. -/
def convert (radix : BitVec 32) (c : Byte) (f : Layout) (args : List Arg) :
    Option (List Byte × List Arg) := do
  if c = ch 'b' ∨ c = ch 'B' then
    let (u, args) ← vaWord args
    let (p, args) ← vaStr args
    let out ← printBits u p
    some (out, args)
  else if c = ch 'c' then
    let (w, args) ← vaWord args
    some ([w.setWidth 8], args)
  else if c = ch 's' then
    let (p, args) ← vaStr args
    some (printText (p.getD []) f, args)
  else if c = ch 'o' ∨ c = ch 'O' then printUnsigned 8 f args
  else if c = ch 'd' ∨ c = ch 'i' ∨ c = ch 'D' then printSigned 10 f args
  else if c = ch 'u' ∨ c = ch 'U' then printUnsigned 10 f args
  else if c = ch 'p' then
    let (out, args) ← printUnsigned 16 { f with padc := ch '0', length := 8 } args
    some (text "0x" ++ out, args)
  else if c = ch 'x' ∨ c = ch 'X' then printUnsigned 16 f args
  else if c = ch 'z' ∨ c = ch 'Z' then printSigned 16 f args
  else if c = ch 'r' ∨ c = ch 'R' then printSigned radix f args
  else if c = ch 'n' ∨ c = ch 'N' then printUnsigned radix f args
  else if c = 0 then some ([], args)
  else some ([c], args)

theorem number_length (fmt : List Byte) (n : Int) : (number fmt n).1.length ≤ fmt.length := by
  induction fmt generalizing n with
  | nil => simp [number]
  | cons c fmt ih =>
    unfold number
    split
    · exact (ih _).trans (by simp)
    · exact le_rfl

theorem flags_length (fmt : List Byte) (f : Layout) : (flags fmt f).1.length ≤ fmt.length := by
  induction fmt generalizing f with
  | nil => simp [flags]
  | cons c fmt ih =>
    have hle (g : Layout) : (flags fmt g).1.length ≤ (c :: fmt).length := (ih g).trans (by simp)
    unfold flags
    split_ifs <;> first | exact hle _ | exact le_rfl

theorem zero_length (fmt : List Byte) (f : Layout) : (zero fmt f).1.length ≤ fmt.length := by
  unfold zero
  split <;> simp

variable {fmt fmt' : List Byte} {args args' : List Arg} {f f' : Layout}

theorem width_length (h : width fmt args f = some (fmt', args', f')) :
    fmt'.length ≤ fmt.length := by
  unfold width at h
  split_ifs at h
  · cases h
    exact number_length fmt 0
  · obtain ⟨⟨w, rest⟩, hw, h⟩ := Option.bind_eq_some_iff.mp h
    dsimp only at h
    split_ifs at h <;> cases h <;> simp
  · cases h
    exact le_rfl

theorem precision_length (h : precision fmt args f = some (fmt', args', f')) :
    fmt'.length ≤ fmt.length := by
  unfold precision at h
  split_ifs at h
  · cases h
    exact (number_length fmt.tail 0).trans (by simp)
  · obtain ⟨⟨w, rest⟩, hw, h⟩ := Option.bind_eq_some_iff.mp h
    cases h
    simp only [List.length_tail]
    omega
  · cases h
    simp
  · cases h
    exact le_rfl

theorem layout_length (h : layout fmt args = some (fmt', args', f)) : fmt'.length ≤ fmt.length := by
  unfold layout at h
  obtain ⟨⟨fmt₁, args₁, f₁⟩, hw, h⟩ := Option.bind_eq_some_iff.mp h
  obtain ⟨⟨fmt₂, args₂, f₂⟩, hp, h⟩ := Option.bind_eq_some_iff.mp h
  have hflags := flags_length fmt Layout.init
  have hzero := zero_length (flags fmt Layout.init).1 (flags fmt Layout.init).2
  have hwidth := width_length hw
  have hprec := precision_length hp
  have hlast : fmt'.length ≤ fmt₂.length := by
    cases h
    split <;> simp
  omega

/-- What `_doprnt` gives to `putc`, one after the other. `radix` is for `%r` and `%n`. -/
def doprnt (radix : BitVec 32) (fmt : List Byte) (args : List Arg) : Option (List Byte) :=
  match fmt with
  | [] => some []
  | c :: fmt =>
    if c = 0 then some []
    else if c ≠ ch '%' then (doprnt radix fmt args).map (c :: ·)
    else
      match _h : layout fmt args with
      | none => none
      | some (fmt', args, f) => do
        let (out, args) ← convert radix (peek fmt') f args
        let rest ← if peek fmt' = 0 then some [] else doprnt radix fmt'.tail args
        some (out ++ rest)
termination_by fmt.length
decreasing_by
  · simp
  · have := layout_length ‹_›
    simp only [List.length_tail, List.length_cons]
    omega

end DominOS.Doprnt
