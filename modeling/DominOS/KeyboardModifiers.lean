import DominOS.KeyboardDriver
import Mathlib.Data.List.Nodup

/-! The counters of the modifier keys, over runs of scancodes. -/
namespace DominOS.KeyboardDriver
open Scancode Driver

/-- What a key counts for, which is the same in every map; no more than the eight modifiers. -/
structure Keymap.Stable (m : Keymap) (mods : Byte → Option Nat) : Prop where
  same : ∀ i keyMap, m.keyMaps i = some keyMap → ∀ k, shiftOf (keyMap k) = mods k
  lt : ∀ k v, mods k = some v → v < 8

def countOf (mods : Byte → Option Nat) (keys : Byte → Bool) (v : Nat) : Nat :=
  allKeys.countP fun k => keys k && mods k == some v

structure Counts (mods : Byte → Option Nat) (keys : Byte → Bool) (d : Driver) : Prop where
  kDown : ∀ v, (d.kDown v).toNat = countOf mods keys v
  shiftState : ∀ i < 32, d.shiftState.getLsbD i = decide (0 < countOf mods keys i)

variable {m : Keymap} {mods : Byte → Option Nat} {keys : Byte → Bool} {d d' : Driver} {k : Byte}
  {v : Nat} {up : Bool}

section Counting

theorem allKeys_nodup : allKeys.Nodup := by
  refine List.Nodup.map_on (fun a ha b hb h => ?_) List.nodup_range
  have hnat := congrArg BitVec.toNat h
  rw [BitVec.toNat_ofNat, BitVec.toNat_ofNat, Nat.mod_eq_of_lt (List.mem_range.mp ha),
    Nat.mod_eq_of_lt (List.mem_range.mp hb)] at hnat
  exact hnat

theorem mem_allKeys (k : Byte) : k ∈ allKeys := by
  refine List.mem_map.mpr ⟨k.toNat, List.mem_range.mpr k.isLt, ?_⟩
  rw [BitVec.ofNat_toNat, BitVec.setWidth_eq]

theorem countP_update {l : List Byte} (hl : l.Nodup) (p q : Byte → Bool) (hk : k ∈ l)
    (hp : p k = false) (hq : q k = true) (h : ∀ x, x ≠ k → q x = p x) :
    l.countP q = l.countP p + 1 := by
  induction l with
  | nil => cases hk
  | cons x l ih =>
    obtain ⟨hx, hl⟩ := List.nodup_cons.mp hl
    rw [List.countP_cons, List.countP_cons]
    by_cases hxk : x = k
    · have hsame : l.countP q = l.countP p := by
        refine List.countP_congr fun y hy => ?_
        have hne : y ≠ k := fun hyk => hx (by rwa [hxk, ← hyk])
        rw [h y hne]
      rw [hxk, hp, hq, hsame]
      rfl
    · have hrest := ih hl ((List.mem_cons.mp hk).resolve_left (Ne.symm hxk))
      rw [h x hxk, hrest]
      omega

theorem countOf_press (hk : keys k = false) (hm : mods k = some v) (w : Nat) :
    countOf mods (Function.update keys k true) w =
      if w = v then countOf mods keys v + 1 else countOf mods keys w := by
  unfold countOf
  by_cases hw : w = v
  · rw [if_pos hw, hw]
    refine countP_update allKeys_nodup _ _ (mem_allKeys k) ?_ ?_ fun x hx => ?_
    · rw [hk, Bool.false_and]
    · rw [Function.update_self, hm]
      simp
    · rw [Function.update_of_ne hx]
  · rw [if_neg hw]
    refine List.countP_congr fun x _ => ?_
    by_cases hx : x = k
    · rw [hx, hm]
      simp [Ne.symm hw]
    · rw [Function.update_of_ne hx]

theorem countOf_release (hk : keys k = true) (hm : mods k = some v) (w : Nat) :
    countOf mods keys w = if w = v then countOf mods (Function.update keys k false) v + 1
      else countOf mods (Function.update keys k false) w := by
  have hpress := @countOf_press mods (Function.update keys k false) k v (Function.update_self ..) hm w
  rw [Function.update_idem, ← hk, Function.update_eq_self] at hpress
  exact hpress

theorem countOf_none (hm : mods k = none) (b : Bool) (w : Nat) :
    countOf mods (Function.update keys k b) w = countOf mods keys w := by
  refine List.countP_congr fun x _ => ?_
  by_cases hx : x = k
  · rw [hx, hm]
    simp
  · rw [Function.update_of_ne hx]

theorem countOf_le (h : ∀ k, keys k = true → k.toNat < 128) (v : Nat) : countOf mods keys v ≤ 128 := by
  have hall : allKeys.countP (fun k => decide (k.toNat < 128)) = 128 := by decide +kernel
  rw [← hall]
  refine List.countP_mono_left fun k _ hk => ?_
  exact decide_eq_true (h k (Bool.and_eq_true_iff.mp hk).1)

end Counting

section Symbols

theorem ktyp_eq (x : Keysym) : ktyp x = (x.extractLsb' 8 8).toNat := by
  unfold ktyp
  rw [BitVec.toNat_ushiftRight, BitVec.extractLsb'_toNat]
  have := x.isLt
  rw [Nat.mod_eq_of_lt (by rw [Nat.shiftRight_eq_div_pow]; omega)]

theorem ktyp_xor (x : Keysym) : if 0xf0 ≤ ktyp x then ktyp (x ^^^ 0xf000) = ktyp x - 0xf0
    else 0x10 ≤ ktyp (x ^^^ 0xf000) := by
  have hbits : ∀ y : Byte, if 0xf0 ≤ y.toNat then (y ^^^ 0xf0).toNat = y.toNat - 0xf0
      else 0x10 ≤ (y ^^^ 0xf0).toNat := by decide +kernel
  rw [ktyp_eq, ktyp_eq, BitVec.extractLsb'_xor]
  exact hbits _

theorem kval_xor (x : Keysym) : kval (x ^^^ 0xf000) = kval x := by
  unfold kval
  rw [BitVec.setWidth_xor]
  exact BitVec.xor_zero

theorem shiftOf_some {sym : Keysym} (h : shiftOf sym = some v) : 0xf0 ≤ ktyp sym ∧
    (ktyp sym - 0xf0 = ktShift ∨ ktyp sym - 0xf0 = ktSlock) ∧ shiftValue (kval sym) = v := by
  have hxor := ktyp_xor sym
  unfold shiftOf at h
  dsimp only at h
  split at h
  · rename_i htype
    unfold ktShift ktSlock at htype
    by_cases hhigh : 0xf0 ≤ ktyp sym
    · rw [if_pos hhigh] at hxor
      rw [hxor] at htype
      rw [kval_xor] at h
      exact ⟨hhigh, htype, Option.some.inj h⟩
    · rw [if_neg hhigh] at hxor
      omega
  · cases h

theorem shiftOf_none {sym : Keysym} (h : shiftOf sym = none) (hhigh : 0xf0 ≤ ktyp sym) :
    ktyp sym - 0xf0 ≠ ktShift ∧ ktyp sym - 0xf0 ≠ ktSlock := by
  have hxor := ktyp_xor sym
  rw [if_pos hhigh] at hxor
  unfold shiftOf at h
  dsimp only at h
  split at h
  · cases h
  · rename_i htype
    rw [hxor, not_or] at htype
    exact htype

end Symbols

def Driver.vital (d : Driver) : (Nat → Byte) × BitVec 32 × (Byte → Bool) × KbdMode × Nat :=
  (d.kDown, d.shiftState, d.keyDown, d.kbd.kbdmode, d.prevScancode)

section Frame

@[simp] theorem vital_putsQueue {cp : List Byte} : (d.putsQueue cp).vital = d.vital := rfl

@[simp] theorem vital_putQueue {ch : Byte} : (d.putQueue ch).vital = d.vital := rfl

@[simp] theorem vital_applkey {b : Bool} : (d.applkey k b).vital = d.vital := rfl

@[simp] theorem vital_setSlock : (d.setSlock k).vital = d.vital := rfl

@[simp] theorem vital_chgSlock : (d.chgSlock v).vital = d.vital := rfl

@[simp] theorem vital_chgLock : (d.chgLock v).vital = d.vital := rfl

@[simp] theorem vital_toUtf8 {c : Keysym} : (d.toUtf8 c).vital = d.vital := by
  unfold toUtf8
  induction utf8Bytes c generalizing d with
  | nil => rfl
  | cons ch chs ih => exact ih

@[simp] theorem vital_handleDiacr : (d.handleDiacr m k).2.vital = d.vital := by
  unfold handleDiacr
  dsimp only
  split
  · rfl
  · split <;> rfl

theorem vital_combined {c : Byte} {d' : Driver}
    (h : (if d.diacr ≠ 0 then d.handleDiacr m k else (k, d)) = (c, d')) : d'.vital = d.vital := by
  split at h
  · have hdiacr : (d.handleDiacr m k).2.vital = d.vital := vital_handleDiacr
    rwa [h] at hdiacr
  · cases h
    rfl

@[simp] theorem vital_doSelf : (d.doSelf m k up).vital = d.vital := by
  unfold doSelf
  split
  · rfl
  · split
    rename_i c d' hcombined
    rw [← vital_combined hcombined]
    split <;> rfl

@[simp] theorem vital_doDead2 : (d.doDead2 m k up).vital = d.vital := by
  unfold doDead2
  split
  · rfl
  · split
    rename_i c d' hcombined
    exact (vital_combined hcombined : d'.vital = d.vital)

@[simp] theorem vital_doDead : (d.doDead m k up).vital = d.vital := vital_doDead2

@[simp] theorem vital_doFn : (d.doFn m k up).vital = d.vital := by
  unfold doFn
  split
  · rfl
  · split <;> rfl

@[simp] theorem vital_doCur : (d.doCur k up).vital = d.vital := by
  unfold doCur
  split <;> rfl

theorem vital_padCursor (h : d.padCursor m k = some d') : d'.vital = d.vital := by
  unfold padCursor at h
  split at h <;> cases h <;> simp

@[simp] theorem vital_doPad : (d.doPad m k up).vital = d.vital := by
  unfold doPad
  split
  · rfl
  · split
    · rfl
    · split
      · rename_i d' hcursor
        split at hcursor
        · cases hcursor
        · exact vital_padCursor hcursor
      · dsimp only
        split <;> rfl

@[simp] theorem vital_doMeta : (d.doMeta k up).vital = d.vital := by
  unfold doMeta
  split
  · rfl
  · split <;> rfl

@[simp] theorem vital_doAscii : (d.doAscii k up).vital = d.vital := by
  unfold doAscii
  split <;> rfl

@[simp] theorem vital_doLock : (d.doLock k up).vital = d.vital := by
  unfold doLock
  split <;> rfl

theorem vital_specFn (h : k ≠ 0) : (d.specFn m k).vital = d.vital := by
  unfold specFn
  split
  · rename_i hzero
    exact absurd (BitVec.eq_of_toNat_eq hzero) h
  · unfold enter
    dsimp only
    split_ifs <;> rfl
  · unfold capsToggle
    split <;> rfl
  · unfold num bareNum
    split_ifs <;> rfl
  · unfold hold
    split <;> rfl
  · unfold capsOn
    split <;> rfl
  · rfl
  · unfold bareNum
    split <;> rfl
  · rfl

end Frame

section Shift

theorem getLsbD_set {s : BitVec 32} {i : Nat} (hi : i < 32) :
    (s ||| (1#32 <<< v)).getLsbD i = (s.getLsbD i || decide (i = v)) := by
  rw [BitVec.getLsbD_or, BitVec.getLsbD_shiftLeft, BitVec.getLsbD_one]
  congr 1
  by_cases h : i = v
  · subst h
    simp [hi]
  · simp only [h, decide_false]
    by_cases hlt : i < v
    · simp [hlt]
    · have hne : i - v ≠ 0 := by omega
      simp [hne]

theorem getLsbD_clear {s : BitVec 32} {i : Nat} (hi : i < 32) :
    (s &&& ~~~(1#32 <<< v)).getLsbD i = (s.getLsbD i && !decide (i = v)) := by
  have hset := getLsbD_set (s := 0#32) (v := v) hi
  rw [BitVec.zero_or, BitVec.getLsbD_zero, Bool.false_or] at hset
  rw [BitVec.getLsbD_and, BitVec.getLsbD_not, hset]
  simp [hi]

theorem foldl_countKey (hs : m.Stable mods) {l : List Byte} (d : Driver) :
    (∀ v, (l.foldl (countKey m) d).kDown v =
      d.kDown v + BitVec.ofNat 8 (l.countP fun k => d.keyDown k && mods k == some v)) ∧
    (∀ i < 32, (l.foldl (countKey m) d).shiftState.getLsbD i = (d.shiftState.getLsbD i ||
      decide (0 < l.countP fun k => d.keyDown k && mods k == some i))) ∧
    (l.foldl (countKey m) d).keyDown = d.keyDown ∧
    (l.foldl (countKey m) d).kbd = d.kbd ∧
    (l.foldl (countKey m) d).prevScancode = d.prevScancode := by
  induction l generalizing d with
  | nil => simp
  | cons k l ih =>
    obtain ⟨hdown, hstate, hkeys, hkbd, hprev⟩ := ih (countKey m d k)
    have hplain : shiftOf (m.plainMap k) = mods k := hs.same 0 _ rfl k
    rw [List.foldl_cons]
    by_cases hk : d.keyDown k = true
    · cases hm : mods k with
      | none =>
        have hsame : countKey m d k = d := by
          unfold countKey
          rw [if_pos hk, hplain, hm]
        rw [hsame] at hdown hstate hkeys hkbd hprev ⊢
        refine ⟨fun v => ?_, fun i hi => ?_, hkeys, hkbd, hprev⟩
        · rw [hdown, List.countP_cons]
          simp [hk, hm]
        · rw [hstate i hi, List.countP_cons]
          simp [hk, hm]
      | some w =>
        have hcount : countKey m d k = { d with
            kDown := Function.update d.kDown w (d.kDown w + 1)
            shiftState := d.shiftState ||| (1#32 <<< w) } := by
          unfold countKey
          rw [if_pos hk, hplain, hm]
        rw [hcount] at hdown hstate hkeys hkbd hprev ⊢
        dsimp only at hdown hstate hkeys hkbd
        refine ⟨fun v => ?_, fun i hi => ?_, hkeys, hkbd, hprev⟩
        · rw [hdown, List.countP_cons]
          by_cases hv : v = w
          · subst hv
            simp only [Function.update_self, hk, hm, Bool.true_and, beq_self_eq_true, if_true]
            rw [BitVec.ofNat_add, BitVec.add_assoc, BitVec.add_comm 1]
            rfl
          · rw [Function.update_of_ne hv]
            simp [hm, Ne.symm hv]
        · rw [hstate i hi, getLsbD_set hi, List.countP_cons]
          by_cases hv : i = w
          · subst hv
            simp [hk, hm]
          · simp [hm, hv, Ne.symm hv]
    · have hsame : countKey m d k = d := by
        unfold countKey
        rw [if_neg hk]
      rw [hsame] at hdown hstate hkeys hkbd hprev ⊢
      refine ⟨fun v => ?_, fun i hi => ?_, hkeys, hkbd, hprev⟩
      · rw [hdown, List.countP_cons]
        simp [hk]
      · rw [hstate i hi, List.countP_cons]
        simp [hk]

theorem computeShiftstate_counts (hs : m.Stable mods) (hlow : ∀ k, d.keyDown k = true → k.toNat < 128) :
    Counts mods d.keyDown (d.computeShiftstate m) ∧ (d.computeShiftstate m).keyDown = d.keyDown ∧
      (d.computeShiftstate m).kbd = d.kbd ∧ (d.computeShiftstate m).prevScancode = d.prevScancode := by
  obtain ⟨hdown, hstate, hkeys, hkbd, hprev⟩ :=
    foldl_countKey hs (l := allKeys) { d with shiftState := 0#32, kDown := fun _ => 0#8 }
  simp only [BitVec.zero_add, BitVec.getLsbD_zero, Bool.false_or] at hdown hstate
  refine ⟨⟨fun v => ?_, fun i hi => ?_⟩, hkeys, hkbd, hprev⟩
  · have hle : countOf mods d.keyDown v ≤ 128 := countOf_le hlow v
    unfold countOf at hle ⊢
    unfold computeShiftstate
    have hval := congrArg BitVec.toNat (hdown v)
    rw [BitVec.toNat_ofNat, Nat.mod_eq_of_lt (by omega)] at hval
    exact hval
  · unfold countOf computeShiftstate
    exact hstate i hi

theorem Counts.update (h : Counts mods keys d) {keys' : Byte → Bool} {down : Byte}
    (hkeys : ∀ w, w ≠ v → countOf mods keys' w = countOf mods keys w)
    (hdown : down.toNat = countOf mods keys' v)
    (hd : d'.kDown = Function.update d.kDown v down)
    (hst : d'.shiftState =
      if down ≠ 0 then d.shiftState ||| (1#32 <<< v) else d.shiftState &&& ~~~(1#32 <<< v)) :
    Counts mods keys' d' := by
  have hzero : down ≠ 0 ↔ 0 < countOf mods keys' v := by
    rw [← hdown]
    bv_omega
  refine ⟨fun w => ?_, fun i hi => ?_⟩
  · rw [hd]
    by_cases hw : w = v
    · rw [hw, Function.update_self, hdown]
    · rw [Function.update_of_ne hw, h.kDown, hkeys w hw]
  · rw [hst]
    by_cases hpos : down ≠ 0
    · rw [if_pos hpos, getLsbD_set hi]
      by_cases hw : i = v
      · rw [decide_eq_true hw, Bool.or_true, hw, decide_eq_true (hzero.mp hpos)]
      · rw [decide_eq_false hw, Bool.or_false, h.shiftState i hi, hkeys i hw]
    · rw [if_neg hpos, getLsbD_clear hi]
      by_cases hw : i = v
      · rw [decide_eq_true hw, Bool.not_true, Bool.and_false, hw,
          decide_eq_false (mt hzero.mpr hpos)]
      · rw [decide_eq_false hw, Bool.not_false, Bool.and_true, h.shiftState i hi, hkeys i hw]

@[simp] theorem vital_sendNpadch {old : BitVec 32} : (d.sendNpadch old up).vital = d.vital := by
  unfold sendNpadch
  split
  · split
    · exact vital_toUtf8
    · rfl
  · rfl

theorem doShift_vital (hr : d.rep = false) :
    (d.doShift k up).vital = (d.countShift (shiftValue k) up).vital := by
  unfold doShift
  rw [hr, if_neg Bool.false_ne_true]
  dsimp only
  rw [vital_sendNpadch]
  split <;> rfl

theorem Counts.of_eq (h : Counts mods keys d) {keys' : Byte → Bool}
    (hkeys : ∀ w, countOf mods keys' w = countOf mods keys w) (hdown : d'.kDown = d.kDown)
    (hstate : d'.shiftState = d.shiftState) : Counts mods keys' d' := by
  refine ⟨fun v => ?_, fun i hi => ?_⟩
  · rw [hdown, h.kDown, hkeys]
  · rw [hstate, h.shiftState i hi, hkeys]

theorem Counts.congr (h : Counts mods keys d) (hv : d'.vital = d.vital) : Counts mods keys d' :=
  h.of_eq (fun _ => rfl) (congrArg (·.1) hv) (congrArg (·.2.1) hv)

theorem Counts.press (h : Counts mods keys d) (hm : mods k = some v) (hk : keys k = false)
    (hlow : ∀ x, Function.update keys k true x = true → x.toNat < 128) :
    Counts mods (Function.update keys k true) (d.countShift v false) := by
  have hle : countOf mods (Function.update keys k true) v ≤ 128 := countOf_le hlow v
  have hone := countOf_press hk hm v
  rw [if_pos rfl] at hone
  refine h.update (fun w hw => ?_) ?_ rfl rfl
  · rw [countOf_press hk hm w, if_neg hw]
  · show (d.kDown v + 1).toNat = _
    have hdown := h.kDown v
    bv_omega

theorem Counts.release (h : Counts mods keys d) (hm : mods k = some v) (hk : keys k = true) :
    Counts mods (Function.update keys k false) (d.countShift v true) := by
  have hone := countOf_release hk hm v
  rw [if_pos rfl] at hone
  have hdown := h.kDown v
  have hpos : d.kDown v ≠ 0 := by
    intro hzero
    rw [hzero, hone] at hdown
    cases hdown
  refine h.update (fun w hw => ?_) ?_ rfl rfl
  · rw [countOf_release hk hm w, if_neg hw]
  · show (if d.kDown v ≠ 0 then d.kDown v - 1 else d.kDown v).toNat = _
    rw [if_pos hpos]
    bv_omega

end Shift

/-- What a key event leaves: the counters say which keys are down. -/
structure Kept (mods : Byte → Option Nat) (d d' : Driver) : Prop where
  counts : Counts mods d.keyDown d'
  keyDown : d'.keyDown = d.keyDown
  kbdmode : d'.kbd.kbdmode = d.kbd.kbdmode
  prevScancode : d'.prevScancode = d.prevScancode

section Handlers

theorem Counts.kept (h : Counts mods d.keyDown d) (hv : d'.vital = d.vital) : Kept mods d d' :=
  ⟨h.congr hv, congrArg (·.2.2.1) hv, congrArg (·.2.2.2.1) hv, congrArg (·.2.2.2.2) hv⟩

theorem Kept.congr (h : Kept mods d d') {c : Driver} (hv : c.vital = d'.vital) : Kept mods d c :=
  ⟨h.counts.congr hv, (congrArg (·.2.2.1) hv).trans h.keyDown,
    (congrArg (·.2.2.2.1) hv).trans h.kbdmode, (congrArg (·.2.2.2.2) hv).trans h.prevScancode⟩

theorem computeShiftstate_kept (hs : m.Stable mods)
    (hlow : ∀ k, d.keyDown k = true → k.toNat < 128) : Kept mods d (d.computeShiftstate m) := by
  obtain ⟨hcounts, hkeys, hkbd, hprev⟩ := computeShiftstate_counts hs hlow
  exact ⟨hcounts, hkeys, congrArg Kbd.kbdmode hkbd, hprev⟩

theorem keyHandler_kept (hs : m.Stable mods) (hlow : ∀ k, d.keyDown k = true → k.toNat < 128)
    (h : Counts mods d.keyDown d) {type : Nat} (hshift : type ≠ ktShift) (hslock : type ≠ ktSlock) :
    Kept mods d (d.keyHandler m type k up) := by
  unfold keyHandler
  split
  case h_3 =>
    unfold doSpec
    split_ifs
    · exact h.kept rfl
    · exact h.kept rfl
    · by_cases hk : k = 0
      · rw [hk]
        exact computeShiftstate_kept hs hlow
      · exact h.kept (vital_specFn hk)
  case h_7 => exact absurd rfl hshift
  case h_11 => exact absurd rfl hslock
  all_goals exact h.kept (by simp)

theorem vital_doSlock : (d.doSlock m k up).vital = (d.doShift k up).vital := by
  unfold doSlock
  dsimp only
  split
  · rfl
  · split <;> rfl

theorem keyHandler_shift {type : Nat} (h : type = ktShift ∨ type = ktSlock) :
    (d.keyHandler m type k up).vital = (d.doShift k up).vital := by
  rcases h with rfl | rfl
  · rfl
  · exact vital_doSlock

theorem handleKeysym_none (hs : m.Stable mods) (hlow : ∀ k, d.keyDown k = true → k.toNat < 128)
    (h : Counts mods d.keyDown d) {sf : BitVec 32} {sym : Keysym} (hsym : shiftOf sym = none) :
    Kept mods d (d.handleKeysym m k sf sym up false) := by
  unfold handleKeysym
  split
  · rename_i hhigh
    obtain ⟨hshift, hslock⟩ := shiftOf_none hsym hhigh
    dsimp only
    rw [if_neg (by simp)]
    split
    · exact (keyHandler_kept hs hlow h (by decide) (by decide)).congr vital_setSlock
    · exact (keyHandler_kept hs hlow h hshift hslock).congr vital_setSlock
  · split
    · exact h.kept vital_toUtf8
    · exact h.kept rfl

theorem handleKeysym_some {sf : BitVec 32} {sym : Keysym} (hsym : shiftOf sym = some v) :
    (d.handleKeysym m k sf sym up false).vital = (d.doShift (kval sym) up).vital := by
  obtain ⟨hhigh, htype, -⟩ := shiftOf_some hsym
  have hletter : ktyp sym - 0xf0 ≠ ktLetter := by
    unfold ktShift ktSlock at htype
    unfold ktLetter
    omega
  unfold handleKeysym
  rw [if_pos hhigh]
  simp only [Bool.false_eq_true, false_and, if_false]
  rw [if_neg hletter]
  split
  · exact vital_setSlock.trans (keyHandler_shift htype)
  · exact keyHandler_shift htype

theorem handleKeycode_kept (hs : m.Stable mods) (hx : d.kbd.kbdmode = .xlate)
    (hlow : ∀ k, d.keyDown k = true → k.toNat < 128)
    (hother : mods k = none → Counts mods d.keyDown d)
    (hrep : d.rep = true → Counts mods d.keyDown d)
    (hmod : ∀ v, mods k = some v → d.rep = false → Counts mods d.keyDown (d.countShift v up)) :
    Kept mods d (d.handleKeycode m k up false) := by
  unfold handleKeycode
  rw [hx, if_neg (by decide)]
  dsimp only
  split
  · split
    · rename_i keyMap hmap
      have hsame : shiftOf (keyMap k) = mods k := hs.same _ _ hmap k
      cases hm : mods k with
      | none => exact handleKeysym_none hs hlow (hother hm) (hsame.trans hm)
      | some v =>
        have hvital : (d.handleKeysym m k d.shiftFinal (keyMap k) up false).vital =
            (d.doShift (kval (keyMap k)) up).vital := handleKeysym_some (hsame.trans hm)
        obtain ⟨-, -, hvalue⟩ := shiftOf_some (hsame.trans hm)
        cases hr : d.rep with
        | true =>
          refine (hrep hr).kept (hvital.trans ?_)
          unfold doShift
          rw [hr, if_pos rfl]
        | false =>
          rw [doShift_vital hr, hvalue] at hvital
          have hcounts := (hmod v hm hr).congr hvital
          exact ⟨hcounts, congrArg (·.2.2.1) hvital, congrArg (·.2.2.2.1) hvital,
            congrArg (·.2.2.2.2) hvital⟩
    · exact (computeShiftstate_kept hs hlow).congr vital_setSlock
  · rename_i hquiet
    have hr : d.rep = true := by
      cases hr : d.rep with
      | true => rfl
      | false => exact absurd (.inl (by simp [hr])) hquiet
    exact (hrep hr).kept rfl

end Handlers

end DominOS.KeyboardDriver
