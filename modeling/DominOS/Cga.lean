import DominOS.ByteMemory

/-! cga.c: the console in the video memory, and the terminal that it stands for. -/
namespace DominOS.Cga
open ByteMemory

abbrev Byte := BitVec 8

def bs : Byte := 8

def tab : Byte := 9

def nl : Byte := 10

def ff : Byte := 12

def cr : Byte := 13

def del : Byte := 127

def baseMemAddr : Nat := 0xB8000
def numberColumn : Nat := 80
def numberLine : Nat := 25

def ptrMem (line column : Nat) : Nat := baseMemAddr + 2 * (line * numberColumn + column)

def video : Window := ⟨baseMemAddr, 2 * numberLine * numberColumn⟩

def whiteOnBlack : BitVec 16 := 0x0F00

def cursorWriteLow : Byte := 0x0F
def cursorWriteHigh : Byte := 0x0E

structure Console where
  memory : Memory
  curLine : Byte
  curColumn : Byte
  globalColor : Byte
  -- the registers behind the two ports, by the commands that select them
  ports : Byte → Byte

namespace Console

def draw (f : Memory → Option Memory) (k : Console) : Option Console :=
  (f k.memory).map fun m => { k with memory := m }

/-- The word for a cell. `c` is a signed `char`, and it is extended before the `|`. -/
def cellWord (c color : Byte) : BitVec 16 := color.setWidth 16 <<< 8 ||| c.signExtend 16

def writeChar (line column : Nat) (c color : Byte) (k : Console) : Option Console :=
  k.draw (store16 video (ptrMem line column) (cellWord c color))

def putCursor (line column : Byte) (k : Console) : Console :=
  let cursorPos : BitVec 16 := column.setWidth 16 + line.setWidth 16 * 80
  { k with
    curLine := line
    curColumn := column
    ports := Function.update (Function.update k.ports cursorWriteLow (cursorPos.setWidth 8))
      cursorWriteHigh ((cursorPos >>> 8).setWidth 8) }

def clearScreen (k : Console) : Option Console :=
  k.draw (fill16 video whiteOnBlack (numberColumn * numberLine) (ptrMem 0 0))

def scrollScreen (k : Console) : Option Console :=
  (k.draw (memmove video baseMemAddr (ptrMem 1 0) (2 * (numberLine - 1) * numberColumn))).bind
    fun k => k.draw (fill16 video whiteOnBlack numberColumn (ptrMem (numberLine - 1) 0))

/-- The `switch` of `console_putchar`. -/
def putcharCase (c : Byte) (k : Console) : Option Console :=
  if c = bs then
    some (if k.curColumn ≠ 0 then { k with curColumn := k.curColumn - 1 } else k)
  else if c = tab then
    let curTab := k.curColumn &&& 0b11111000
    some { k with curColumn := if curTab = 72 then 79 else curTab ||| 0b111 }
  else if c = nl then
    some { k with curLine := k.curLine + 1, curColumn := 0 }
  else if c = ff then
    k.clearScreen.map fun k => { k with curColumn := 0, curLine := 0 }
  else if c = cr then
    some { k with curColumn := 0 }
  else if c = del then
    let k :=
      if k.curColumn ≠ 0 then { k with curColumn := k.curColumn - 1 }
      else if 0 < k.curLine then { k with curLine := k.curLine - 1, curColumn := 79 }
      else k
    k.draw (store16 video (ptrMem k.curLine.toNat k.curColumn.toNat) whiteOnBlack)
  else
    (k.writeChar k.curLine.toNat k.curColumn.toNat c k.globalColor).map fun k =>
      if k.curColumn = 79 then { k with curLine := k.curLine + 1, curColumn := 0 }
      else { k with curColumn := k.curColumn + 1 }

/-- What `console_putchar` ends with. -/
def scrollCase (k : Console) : Option Console :=
  if k.curLine = 25 then k.scrollScreen.map fun k => { k with curLine := k.curLine - 1 } else some k

def consolePutchar (c : Byte) (k : Console) : Option Console := (k.putcharCase c).bind scrollCase

def strnlen (str : List Byte) : Nat := (str.takeWhile (· ≠ 0)).length

def putAll : List Byte → Console → Option Console
  | [], k => some k
  | c :: str, k => (k.consolePutchar c).bind (putAll str)

def consWrite (str : List Byte) (k : Console) : Option Console :=
  if str.length ≠ strnlen str then some k
  else (k.putAll str).map fun k => k.putCursor k.curLine k.curColumn

def changeColor (color : Byte) (k : Console) : Console := { k with globalColor := color }

end Console

inductive Op where
  | consWrite (str : List Byte)
  | changeColor (color : Byte)
deriving DecidableEq

def Console.exec (k : Console) : Op → Option Console
  | .consWrite str => k.consWrite str
  | .changeColor color => some (k.changeColor color)

def Console.run : List Op → Console → Option Console
  | [], k => some k
  | op :: ops, k => (k.exec op).bind (run ops)

structure Cell where
  char : Byte
  attr : Byte
deriving DecidableEq

def blank : Cell := ⟨0, 0x0F⟩

/-- A screen of 25 lines by 80 columns with a cursor inside and a current color. -/
@[ext] structure Terminal where
  screen : Fin 25 → Fin 80 → Cell
  line : Fin 25
  column : Fin 80
  color : Byte

namespace Terminal

def scroll (t : Terminal) : Terminal :=
  { t with screen := fun l c => if h : l.val + 1 < 25 then t.screen ⟨l + 1, h⟩ c else blank }

def lineFeed (t : Terminal) : Terminal :=
  if h : t.line.val + 1 < 25 then { t with line := ⟨t.line + 1, h⟩ } else t.scroll

def carriageReturn (t : Terminal) : Terminal := { t with column := 0 }

def newline (t : Terminal) : Terminal := t.carriageReturn.lineFeed

def set (t : Terminal) (x : Cell) : Terminal :=
  { t with screen := Function.update t.screen t.line (Function.update (t.screen t.line) t.column x) }

def advance (t : Terminal) : Terminal :=
  if h : t.column.val + 1 < 80 then { t with column := ⟨t.column + 1, h⟩ } else t.newline

def left (t : Terminal) : Terminal :=
  { t with column := ⟨t.column - 1, by have := t.column.isLt; omega⟩ }

def back (t : Terminal) : Terminal :=
  if t.column.val = 0 ∧ t.line.val ≠ 0 then
    { t with line := ⟨t.line - 1, by have := t.line.isLt; omega⟩, column := 79 }
  else t.left

def tabulate (t : Terminal) : Terminal :=
  { t with column := ⟨t.column / 8 * 8 + 7, by have := t.column.isLt; omega⟩ }

def clear (t : Terminal) : Terminal := { t with screen := fun _ _ => blank, line := 0, column := 0 }

/-- A terminal takes a byte. It shows the character `c` with the attribute `paint color c`. -/
def put (paint : Byte → Byte → Byte) (t : Terminal) (c : Byte) : Terminal :=
  if c = bs then t.left
  else if c = tab then t.tabulate
  else if c = nl then t.newline
  else if c = ff then t.clear
  else if c = cr then t.carriageReturn
  else if c = del then t.back.set blank
  else (t.set ⟨c, paint t.color c⟩).advance

def exec (paint : Byte → Byte → Byte) (t : Terminal) : Op → Terminal
  | .consWrite str => str.foldl (put paint) t
  | .changeColor color => { t with color := color }

def run (paint : Byte → Byte → Byte) (ops : List Op) (t : Terminal) : Terminal :=
  ops.foldl (exec paint) t

end Terminal

def plain (color _c : Byte) : Byte := color

namespace Console

structure Inside (k : Console) : Prop where
  line : k.curLine.toNat < 25
  column : k.curColumn.toNat < 80

def cell (k : Console) (line column : Nat) : Cell :=
  ⟨k.memory (ptrMem line column), k.memory (ptrMem line column + 1)⟩

def terminal (k : Console) (h : k.Inside) : Terminal where
  screen := fun l c => k.cell l c
  line := ⟨k.curLine.toNat, h.line⟩
  column := ⟨k.curColumn.toNat, h.column⟩
  color := k.globalColor

end Console

/-- The console has got here by stores to cells only, and shows `t`. -/
def Shows (k : Option Console) (t : Terminal) : Prop :=
  ∃ k', k = some k' ∧ ∃ h : k'.Inside, k'.terminal h = t

/-- What has been written at some time of a sequence of calls: some of the calls, and then a part
of the next string. -/
def Begins (done ops : List Op) : Prop :=
  done <+: ops ∨ ∃ pre str more, done = pre ++ [.consWrite str] ∧
    pre ++ [.consWrite (str ++ more)] <+: ops

def NulFree (ops : List Op) : Prop := ∀ str, .consWrite str ∈ ops → 0 ∉ str

/-- Bytes with the high bit are only written when all the bits of the color are set. -/
def Ascii : Byte → List Op → Prop
  | _, [] => True
  | color, .consWrite str :: ops => (∀ c ∈ str, c.msb = false ∨ color = 0xFF) ∧ Ascii color ops
  | _, .changeColor color :: ops => Ascii color ops

end DominOS.Cga
