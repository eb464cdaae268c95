import Mathlib.Logic.Function.Basic
import Mathlib.Tactic.SplitIfs

/-! scancode.c: from the bytes of the keyboard controller to the codes of the keys. -/
namespace DominOS.Scancode

abbrev Byte := BitVec 8

def scLim : Nat := 89

def e1Pause : Byte := 119

def highKeys : List Byte :=
  [124, 125, 126, 127, 0, 0, 0,
    0, 0, 0, 0, 0, 0, 0, 0,
    0, 0, 0, 0, 0, 122, 0, 123,
    0, 0, 0, 89, 120, 0, 0, 90,
    91, 92, 93, 94,
    95, 124, 121, 0]

def e0Keys : List Byte :=
  [0, 0, 0, 0, 0, 0, 0, 0,
    0, 0, 0, 0, 0, 0, 0, 0,
    0, 0, 0, 0, 0, 0, 0, 0,
    0, 0, 0, 0, 96, 97, 0, 0,
    0, 0, 0, 0, 0, 0, 0, 0,
    0, 0, 0, 0, 0, 0, 0, 0,
    0, 0, 0, 0, 0, 98, 0, 99,
    100, 0, 0, 0, 0, 113, 114, 115,
    116, 117, 0, 0, 0, 0, 101, 102,
    103, 104, 0, 105, 124, 106, 118, 107,
    108, 109, 110, 111, 0, 0, 0, 0,
    0, 0, 0, 125, 126, 127, 0, 0,
    0, 0, 0, 0, 0, 0, 0, 0,
    0, 0, 0, 0, 0, 0, 0, 112,
    0, 0, 0, 0, 0, 0, 0, 0,
    0, 0, 0, 0, 0, 0, 0, 0]

/-- `prev_scancode` afterwards, and the key, if this completes one. -/
def pckbdTranslate (scancode : Byte) (prevScancode : Nat) : Nat × Option Byte :=
  if scancode = 0xe0 ∨ scancode = 0xe1 then (scancode.toNat, none)
  else if scancode = 0x00 ∨ scancode = 0xff then (0, none)
  else
    let scancode := scancode &&& 0x7f
    if prevScancode ≠ 0 then
      if prevScancode ≠ 0xe0 then
        -- the pause key sends e1 1d 45 e1 9d c5
        if prevScancode = 0xe1 ∧ scancode = 0x1d then (0x100, none)
        else if prevScancode = 0x100 ∧ scancode = 0x45 then (0, some e1Pause)
        else (0, none)
      else if scancode = 0x2a ∨ scancode = 0x36 then (0, none)
      else if e0Keys.getD scancode.toNat 0 ≠ 0 then (0, some (e0Keys.getD scancode.toNat 0))
      else (0, none)
    else if scLim ≤ scancode.toNat then
      if highKeys.getD (scancode.toNat - scLim) 0 = 0 then (0, none)
      else (0, some (highKeys.getD (scancode.toNat - scLim) 0))
    else (0, some scancode)

def pckbdUnexpectedUp (keycode : Byte) : Bool := !decide (scLim ≤ keycode.toNat ∨ keycode = 85)

theorem getD_lt {keys : List Byte} (h : ∀ k ∈ keys, k.toNat < 128) (i : Nat) :
    (keys.getD i 0).toNat < 128 := by
  rw [List.getD_eq_getElem?_getD]
  cases hk : keys[i]? with
  | none => decide
  | some k => exact h k (List.mem_of_getElem? hk)

theorem translate_lt {scancode keycode : Byte} {prev next : Nat}
    (h : pckbdTranslate scancode prev = (next, some keycode)) : keycode.toNat < 128 := by
  have hhigh := @getD_lt highKeys (by decide)
  have he0 := @getD_lt e0Keys (by decide +kernel)
  have hmask : (scancode &&& 0x7f).toNat < 128 := by
    rw [BitVec.toNat_and]
    exact Nat.lt_of_le_of_lt Nat.and_le_right (by decide)
  unfold pckbdTranslate at h
  dsimp only at h
  split_ifs at h <;> cases h
  · decide
  · exact he0 _
  · exact hhigh _
  · exact hmask

end DominOS.Scancode
