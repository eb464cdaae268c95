import DominOS.Scancode

/-! keyboard.c of kbd-linux, with its glue: from scancodes to the strings that `keyboard_data` is
given. There is one console, and one tty. -/
namespace DominOS.KeyboardDriver
open Scancode

abbrev Keysym := BitVec 16

/-- The tables of defkeymap.c. The first map is always there. -/
structure Keymap where
  plainMap : Byte → Keysym
  otherMaps : Nat → Option (Byte → Keysym)
  funcTable : Byte → Option (List Byte)
  accentTable : List (Byte × Byte × Byte)

def Keymap.keyMaps (m : Keymap) (i : Nat) : Option (Byte → Keysym) :=
  if i = 0 then some m.plainMap else m.otherMaps i

def ktyp (x : Keysym) : Nat := (x >>> 8).toNat

def kval (x : Keysym) : Byte := x.setWidth 8

def ktLatin : Nat := 0
def ktSpec : Nat := 2
def ktShift : Nat := 7
def ktLetter : Nat := 11
def ktSlock : Nat := 12

inductive KbdMode where
  | xlate | mediumraw | raw | unicode
deriving DecidableEq

def vcNumlock : Nat := 1
def vcCapslock : Nat := 2

def vcApplic : Nat := 0
def vcCkmode : Nat := 1
def vcRepeat : Nat := 2
def vcCrlf : Nat := 3
def vcMeta : Nat := 4

structure Kbd where
  lockstate : Byte
  slockstate : Byte
  ledflagstate : BitVec 3
  kbdmode : KbdMode
  modeflags : BitVec 5

structure Driver where
  prevScancode : Nat
  kDown : Nat → Byte
  keyDown : Byte → Bool
  deadKeyNext : Bool
  shiftState : BitVec 32
  npadch : BitVec 32
  diacr : Byte
  rep : Bool
  kbd : Kbd
  stopped : Bool
  ledstate : Byte
  sent : List (List Byte)

namespace Driver

def mode (d : Driver) (flag : Nat) : Bool := d.kbd.modeflags.getLsbD flag

def led (d : Driver) (flag : Nat) : Bool := d.kbd.ledflagstate.getLsbD flag

def chgLed (flag : Nat) (d : Driver) : Driver :=
  { d with kbd := { d.kbd with ledflagstate := d.kbd.ledflagstate ^^^ (1#3 <<< flag) } }

def setLed (flag : Nat) (d : Driver) : Driver :=
  { d with kbd := { d.kbd with ledflagstate := d.kbd.ledflagstate ||| (1#3 <<< flag) } }

def clrLed (flag : Nat) (d : Driver) : Driver :=
  { d with kbd := { d.kbd with ledflagstate := d.kbd.ledflagstate &&& ~~~(1#3 <<< flag) } }

def chgLock (flag : Nat) (d : Driver) : Driver :=
  { d with kbd := { d.kbd with lockstate := d.kbd.lockstate ^^^ (1#8 <<< flag) } }

def chgSlock (flag : Nat) (d : Driver) : Driver :=
  { d with kbd := { d.kbd with slockstate := d.kbd.slockstate ^^^ (1#8 <<< flag) } }

def setSlock (v : Byte) (d : Driver) : Driver := { d with kbd := { d.kbd with slockstate := v } }

/-- `puts_queue`; the string ends before its first 0. -/
def putsQueue (cp : List Byte) (d : Driver) : Driver :=
  { d with sent := d.sent ++ [cp.takeWhile (· ≠ 0)] }

def putQueue (ch : Byte) (d : Driver) : Driver := d.putsQueue [ch]

def utf8Bytes (c : Keysym) : List Byte :=
  if c.toNat < 0x80 then [c.setWidth 8]
  else if c.toNat < 0x800 then
    [(0xc0 ||| c >>> 6).setWidth 8, (0x80 ||| (c &&& 0x3f)).setWidth 8]
  else
    [(0xe0 ||| c >>> 12).setWidth 8, (0x80 ||| (c >>> 6 &&& 0x3f)).setWidth 8,
      (0x80 ||| (c &&& 0x3f)).setWidth 8]

def toUtf8 (c : Keysym) (d : Driver) : Driver :=
  (utf8Bytes c).foldl (fun d ch => d.putQueue ch) d

def applkey (key : Byte) (mode : Bool) (d : Driver) : Driver :=
  d.putsQueue [0x1b, if mode then 0x4f else 0x5b, key]

/-- Returns `ch` as well, or what it combines to. -/
def handleDiacr (m : Keymap) (ch : Byte) (d : Driver) : Byte × Driver :=
  let c := d.diacr
  let d := { d with diacr := 0 }
  match m.accentTable.find? fun a => a.1 = c ∧ a.2.1 = ch with
  | some a => (a.2.2, d)
  | none => if ch = 0x20 ∨ ch = c then (c, d) else (ch, d.putQueue c)

def doSelf (m : Keymap) (value : Byte) (up : Bool) (d : Driver) : Driver :=
  if up then d
  else
    let (value, d) := if d.diacr ≠ 0 then d.handleDiacr m value else (value, d)
    if d.deadKeyNext then { d with deadKeyNext := false, diacr := value } else d.putQueue value

def doDead2 (m : Keymap) (value : Byte) (up : Bool) (d : Driver) : Driver :=
  if up then d
  else
    let (value, d) := if d.diacr ≠ 0 then d.handleDiacr m value else (value, d)
    { d with diacr := value }

def retDiacr : List Byte := [0x60, 0x27, 0x5e, 0x7e, 0x22, 0x2c]

def doDead (m : Keymap) (value : Byte) (up : Bool) (d : Driver) : Driver :=
  d.doDead2 m (retDiacr.getD value.toNat 0) up

def doFn (m : Keymap) (value : Byte) (up : Bool) (d : Driver) : Driver :=
  if up then d
  else match m.funcTable value with
    | some s => d.putsQueue s
    | none => d

def curChars : List Byte := [0x42, 0x44, 0x43, 0x41]

def doCur (value : Byte) (up : Bool) (d : Driver) : Driver :=
  if up then d else d.applkey (curChars.getD value.toNat 0) (d.mode vcCkmode)

def padChars : List Byte :=
  [0x30, 0x31, 0x32, 0x33, 0x34, 0x35, 0x36, 0x37, 0x38, 0x39, 0x2b, 0x2d, 0x2a, 0x2f, 0x0d, 0x2c,
    0x2e, 0x3f, 0x28, 0x29]

def appMap : List Byte :=
  [0x70, 0x71, 0x72, 0x73, 0x74, 0x75, 0x76, 0x77, 0x78, 0x79, 0x6c, 0x53, 0x52, 0x51, 0x4d, 0x6e,
    0x6e, 0x6d, 0x50, 0x51]

def padCursor (m : Keymap) (value : Byte) (d : Driver) : Option Driver :=
  match value.toNat with
  | 15 | 16 => some (d.doFn m 22 false)
  | 0 => some (d.doFn m 21 false)
  | 1 => some (d.doFn m 23 false)
  | 2 => some (d.doCur 0 false)
  | 3 => some (d.doFn m 25 false)
  | 4 => some (d.doCur 1 false)
  | 6 => some (d.doCur 2 false)
  | 7 => some (d.doFn m 20 false)
  | 8 => some (d.doCur 3 false)
  | 9 => some (d.doFn m 24 false)
  | 5 => some (d.applkey 0x47 (d.mode vcApplic))
  | _ => none

def doPad (m : Keymap) (value : Byte) (up : Bool) (d : Driver) : Driver :=
  if up then d
  else if d.mode vcApplic ∧ d.kDown 0 = 0 then d.applkey (appMap.getD value.toNat 0) true
  else
    match if d.led vcNumlock then none else d.padCursor m value with
    | some d => d
    | none =>
      let d := d.putQueue (padChars.getD value.toNat 0)
      if value = 14 ∧ d.mode vcCrlf then d.putQueue 10 else d

def shiftValue (value : Byte) : Nat := if value = 8 then 0 else value.toNat

def countShift (v : Nat) (up : Bool) (d : Driver) : Driver :=
  let down := if up then (if d.kDown v ≠ 0 then d.kDown v - 1 else d.kDown v) else d.kDown v + 1
  { d with
    kDown := Function.update d.kDown v down
    shiftState :=
      if down ≠ 0 then d.shiftState ||| (1#32 <<< v) else d.shiftState &&& ~~~(1#32 <<< v) }

def sendNpadch (oldState : BitVec 32) (up : Bool) (d : Driver) : Driver :=
  if up ∧ d.shiftState ≠ oldState ∧ d.npadch ≠ -1 then
    let sent := if d.kbd.kbdmode = .unicode then d.toUtf8 (d.npadch.setWidth 16)
      else d.putQueue (d.npadch.setWidth 8)
    { sent with npadch := -1 }
  else d

def doShift (value : Byte) (up : Bool) (d : Driver) : Driver :=
  if d.rep then d
  else
    let oldState := d.shiftState
    let d := if value = 8 ∧ ¬up then d.clrLed vcCapslock else d
    (d.countShift (shiftValue value) up).sendNpadch oldState up

/-- `sym` and `val` of `compute_shiftstate`, for the keys that count. -/
def shiftOf (sym : Keysym) : Option Nat :=
  let sym := sym ^^^ 0xf000
  if ktyp sym = ktShift ∨ ktyp sym = ktSlock then some (shiftValue (kval sym)) else none

def allKeys : List Byte := (List.range 256).map (BitVec.ofNat 8)

def countKey (m : Keymap) (d : Driver) (k : Byte) : Driver :=
  if d.keyDown k then
    match shiftOf (m.plainMap k) with
    | some v => { d with
        kDown := Function.update d.kDown v (d.kDown v + 1)
        shiftState := d.shiftState ||| (1#32 <<< v) }
    | none => d
  else d

def computeShiftstate (m : Keymap) (d : Driver) : Driver :=
  allKeys.foldl (countKey m) { d with shiftState := 0#32, kDown := fun _ => 0#8 }

def doMeta (value : Byte) (up : Bool) (d : Driver) : Driver :=
  if up then d
  else if d.mode vcMeta then (d.putQueue 0x1b).putQueue value
  else d.putQueue (value ||| 0x80)

def doAscii (value : Byte) (up : Bool) (d : Driver) : Driver :=
  if up then d
  else
    let (base, value) : BitVec 32 × Byte := if value.toNat < 10 then (10, value) else (16, value - 10)
    { d with npadch :=
        if d.npadch = -1 then value.setWidth 32 else d.npadch * base + value.setWidth 32 }

def doLock (value : Byte) (up : Bool) (d : Driver) : Driver :=
  if up ∨ d.rep then d else d.chgLock value.toNat

def doSlock (m : Keymap) (value : Byte) (up : Bool) (d : Driver) : Driver :=
  let d := d.doShift value up
  if up ∨ d.rep then d
  else
    let d := d.chgSlock value.toNat
    match m.keyMaps (d.kbd.lockstate ^^^ d.kbd.slockstate).toNat with
    | none => (d.setSlock 0).chgSlock value.toNat
    | some _ => d

def enter (d : Driver) : Driver :=
  let d := if d.diacr ≠ 0 then { d.putQueue d.diacr with diacr := 0 } else d
  let d := d.putQueue 13
  if d.mode vcCrlf then d.putQueue 10 else d

def capsToggle (d : Driver) : Driver := if d.rep then d else d.chgLed vcCapslock

def capsOn (d : Driver) : Driver := if d.rep then d else d.setLed vcCapslock

def bareNum (d : Driver) : Driver := if d.rep then d else d.chgLed vcNumlock

def num (d : Driver) : Driver := if d.mode vcApplic then d.applkey 0x50 true else d.bareNum

def hold (d : Driver) : Driver := if d.rep then d else { d with stopped := !d.stopped }

def compose (d : Driver) : Driver := { d with deadKeyNext := true }

/-- `spec_fn_table`. What is about consoles, memory and processes does nothing in the glue. -/
def specFn (m : Keymap) (value : Byte) (d : Driver) : Driver :=
  match value.toNat with
  | 0 => d.computeShiftstate m
  | 1 => d.enter
  | 7 => d.capsToggle
  | 8 => d.num
  | 9 => d.hold
  | 13 => d.capsOn
  | 14 => d.compose
  | 19 => d.bareNum
  | _ => d

def doSpec (m : Keymap) (value : Byte) (up : Bool) (d : Driver) : Driver :=
  if up then d
  else if (d.kbd.kbdmode = .raw ∨ d.kbd.kbdmode = .mediumraw) ∧ value ≠ 15 then d
  else d.specFn m value

/-- `key_handler`. Consoles are not changed, and small letters and the last types are ignored. -/
def keyHandler (m : Keymap) (type : Nat) (value : Byte) (up : Bool) (d : Driver) : Driver :=
  match type with
  | 0 => d.doSelf m value up
  | 1 => d.doFn m value up
  | 2 => d.doSpec m value up
  | 3 => d.doPad m value up
  | 4 => d.doDead m value up
  | 6 => d.doCur value up
  | 7 => d.doShift value up
  | 8 => d.doMeta value up
  | 9 => d.doAscii value up
  | 10 => d.doLock value up
  | 12 => d.doSlock m value up
  | 13 => d.doDead2 m value up
  | _ => d

def upBit (up : Bool) : Byte := if up then 0x80 else 0

def handleKeysym (m : Keymap) (keycode : Byte) (shiftFinal : BitVec 32) (keysym : Keysym)
    (up rawMode : Bool) (d : Driver) : Driver :=
  if 0xf0 ≤ ktyp keysym then
    let type := ktyp keysym - 0xf0
    if rawMode ∧ ¬(type = ktSpec ∨ type = ktShift) then d
    else if type = ktLetter then
      let keysym :=
        if d.led vcCapslock then
          match m.keyMaps (shiftFinal ^^^ 1).toNat with
          | some keyMap => keyMap keycode
          | none => keysym
        else keysym
      (d.keyHandler m ktLatin (kval keysym) up).setSlock 0
    else
      let d := d.keyHandler m type (kval keysym) up
      if type ≠ ktSlock then d.setSlock 0 else d
  else if ¬up ∧ ¬rawMode then d.toUtf8 keysym
  else d

def shiftFinal (d : Driver) : BitVec 32 :=
  (d.shiftState ||| d.kbd.slockstate.setWidth 32) ^^^ d.kbd.lockstate.setWidth 32

def handleKeycode (m : Keymap) (keycode : Byte) (up rawMode : Bool) (d : Driver) : Driver :=
  let (rawMode, d) :=
    if d.kbd.kbdmode = .mediumraw then (true, d.putQueue (keycode + upBit up)) else (rawMode, d)
  if ¬d.rep ∨ d.mode vcRepeat then
    match m.keyMaps d.shiftFinal.toNat with
    | some keyMap => d.handleKeysym m keycode d.shiftFinal (keyMap keycode) up rawMode
    | none => (d.computeShiftstate m).setSlock 0
  else d

def track (keycode : Byte) (up : Bool) (d : Driver) : Bool × Driver :=
  if up then
    (if d.keyDown keycode then true else pckbdUnexpectedUp keycode,
      { d with rep := false, keyDown := Function.update d.keyDown keycode false })
  else
    (false,
      { d with rep := d.keyDown keycode, keyDown := Function.update d.keyDown keycode true })

def handleScancode (m : Keymap) (scancode : Byte) (down : Bool) (d : Driver) : Driver :=
  let rawMode := decide (d.kbd.kbdmode = .raw)
  let d := if rawMode then d.putQueue (scancode ||| upBit !down) else d
  match pckbdTranslate scancode d.prevScancode with
  | (prev, none) => { d with prevScancode := prev }
  | (prev, some keycode) =>
    let (up, d) := { d with prevScancode := prev }.track keycode !down
    d.handleKeycode m keycode up rawMode

def kbdBh (d : Driver) : Driver := { d with ledstate := d.kbd.ledflagstate.setWidth 8 }

def doScancode (m : Keymap) (d : Driver) (scancode : Byte) : Driver :=
  if scancode ≠ 0x00 ∧ scancode ≠ 0xff then
    (d.handleScancode m scancode (decide (scancode &&& 0x80 = 0))).kbdBh
  else d

def run (m : Keymap) (scancodes : List Byte) (d : Driver) : Driver :=
  scancodes.foldl (doScancode m) d

end Driver

/-- After `kbd_init`: keys repeat, and meta is an escape. -/
def boot : Driver where
  prevScancode := 0
  kDown := fun _ => 0
  keyDown := fun _ => false
  deadKeyNext := false
  shiftState := 0
  npadch := -1
  diacr := 0
  rep := false
  kbd := ⟨0, 0, 0, .xlate, 0b10100⟩
  stopped := false
  ledstate := 0
  sent := []

end DominOS.KeyboardDriver
