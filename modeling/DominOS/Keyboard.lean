import DominOS.Runs
import Mathlib.Logic.Function.Basic

/-! kbd.c: characters go from `keyboard_data` to `cons_read` through a circular buffer, in which a
slot that is 0 stands for no character. -/
namespace DominOS.Keyboard

abbrev Byte := BitVec 8

def bufferSize : Nat := 1000

def cr : Byte := 13

def del : Byte := 127

structure Kbd where
  echo : Int
  indexWrite : Nat
  indexRead : Nat
  nbWrite : Nat
  keyboardBuffer : Nat → Byte
  written : List (List Byte)

def next (i : Nat) : Nat := if i = bufferSize - 1 then 0 else i + 1

namespace Kbd

def put (i : Nat) (c : Byte) (k : Kbd) : Kbd :=
  { k with keyboardBuffer := Function.update k.keyboardBuffer i c }

def consWrite (str : List Byte) (k : Kbd) : Kbd :=
  if k.echo = 1 then { k with written := k.written ++ [str] } else k

def typeChar (k : Kbd) (c : Byte) : Kbd :=
  let k := { k.put k.indexWrite c with indexWrite := next k.indexWrite }
  if c = cr then { k with nbWrite := 0 }.consWrite [cr, 10]
  else if c = del then
    if k.nbWrite ≠ 0 then { k with nbWrite := k.nbWrite - 1 }.consWrite [c] else k
  else { k.consWrite [c] with nbWrite := k.nbWrite + 1 }

def keyboardData (str : List Byte) (k : Kbd) : Kbd := str.foldl typeChar k

end Kbd

/-- The variables of `cons_read`. -/
structure Reading where
  length : Nat
  charLength : Nat
  string : Nat → Byte

/-- The tests of `cons_read` once: its variables afterwards, and whether it returns. Where it finds
a 0 it waits a tick and tests again. -/
def consRead (k : Kbd) (r : Reading) : Kbd × Reading × Bool :=
  if r.charLength = r.length then (k, r, true)
  else
    let c := k.keyboardBuffer k.indexRead
    let passed := { k with indexRead := next k.indexRead }
    if c = 0 then (k, r, false)
    else if c = cr then (passed.put k.indexRead 0, r, true)
    else if c = del then
      -- the slot keeps its 127
      (passed, { r with
        string := Function.update r.string r.charLength 0
        charLength := r.charLength - 1 }, false)
    else
      (passed.put k.indexRead 0, { r with
        string := Function.update r.string r.charLength c
        charLength := r.charLength + 1 }, false)

/-- A call of `cons_read` that has returned: the characters it consumed are `count` from `start`
on. -/
structure Read where
  start : Nat
  count : Nat
  length : Nat
  ret : Nat
  string : Nat → Byte

structure Console where
  kbd : Kbd
  reader : Option Reading
  -- not in the source: what has been typed, how often `index_read` has advanced, how often when the
  -- last read returned, and the reads that have returned
  typed : List Byte
  consumed : Nat
  began : Nat
  reads : List Read

inductive Event where
  | type (str : List Byte)
  | call (length : Nat) (string : Nat → Byte)
  | turn

namespace Console

def turn (r : Reading) (c : Console) : Console :=
  let (kbd, r', returns) := consRead c.kbd r
  let consumed := if kbd.indexRead = c.kbd.indexRead then c.consumed else c.consumed + 1
  if returns then
    { c with
      kbd := kbd
      reader := none
      consumed := consumed
      began := consumed
      reads := c.reads ++ [⟨c.began, consumed - c.began, r'.length, r'.charLength, r'.string⟩] }
  else { c with kbd := kbd, reader := some r', consumed := consumed }

/-- One reader calls `cons_read` and goes through its loop, and strings are typed in between. -/
def step (e : Event) (c : Console) : Option Console :=
  match e, c.reader with
  | .type str, _ =>
    if 0 ∈ str then none
    else some { c with kbd := c.kbd.keyboardData str, typed := c.typed ++ str }
  | .call length string, none => some { c with reader := some ⟨length, 0, string⟩ }
  | .call _ _, some _ => none
  | .turn, some r => some (c.turn r)
  | .turn, none => none

def boot : Console where
  kbd := ⟨1, 0, 0, 0, fun _ => 0, []⟩
  reader := none
  typed := []
  consumed := 0
  began := 0
  reads := []

end Console

/-- The rules of line editing, for a line of at most `n` characters: the text and how many of the
characters it takes, if they end the line. -/
def edit (n : Nat) : List Byte → List Byte → Option (List Byte × Nat)
  | [], text => if text.length = n then some (text, 0) else none
  | c :: cs, text =>
    if text.length = n then some (text, 0)
    else if c = cr then some (text, 1)
    else (edit n cs (if c = del then text.dropLast else text ++ [c])).map fun r => (r.1, r.2 + 1)

def Read.Faithful (typed : List Byte) (r : Read) : Prop :=
  ∃ text, edit r.length (typed.drop r.start) [] = some (text, r.count) ∧ r.ret = text.length ∧
    ∀ i c, text[i]? = some c → r.string i = c

def Consecutive : Nat → List Read → Nat → Prop
  | a, [], b => a = b
  | a, r :: rs, b => r.start = a ∧ Consecutive (a + r.count) rs b

end DominOS.Keyboard
