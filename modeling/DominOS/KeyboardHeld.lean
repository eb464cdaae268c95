import DominOS.Defkeymap

/-! Which keys are held, after any scancodes, and what the driver makes of it. -/
namespace DominOS.KeyboardDriver
open Scancode Driver

abbrev KeyEvent := Byte × Bool

def goesDown (scancode : Byte) : Bool := decide (scancode &&& 0x80 = 0)

def keyEvent (prev : Nat) (b : Byte) : Nat × Option KeyEvent :=
  if b ≠ 0x00 ∧ b ≠ 0xff then
    ((pckbdTranslate b prev).1, (pckbdTranslate b prev).2.map fun k => (k, goesDown b))
  else (prev, none)

def events : Nat → List Byte → List KeyEvent
  | _, [] => []
  | prev, b :: bytes => (keyEvent prev b).2.toList ++ events (keyEvent prev b).1 bytes

def held (keys : Byte → Bool) (es : List KeyEvent) : Byte → Bool :=
  es.foldl (fun keys e => Function.update keys e.1 e.2) keys

/-- Modifiers are only released while they are held. -/
def Paired (mods : Byte → Option Nat) : (Byte → Bool) → List KeyEvent → Prop
  | _, [] => True
  | keys, e :: es =>
    (e.2 = false → mods e.1 ≠ none → keys e.1 = true) ∧
      Paired mods (Function.update keys e.1 e.2) es

instance {mods : Byte → Option Nat} : ∀ (es : List KeyEvent) (keys : Byte → Bool),
    Decidable (Paired mods keys es)
  | [], _ => .isTrue trivial
  | e :: es, keys =>
    have : Decidable (Paired mods (Function.update keys e.1 e.2) es) :=
      instDecidablePaired es (Function.update keys e.1 e.2)
    inferInstanceAs (Decidable (_ ∧ _))

structure Sound (mods : Byte → Option Nat) (d : Driver) : Prop where
  xlate : d.kbd.kbdmode = .xlate
  low : ∀ k, d.keyDown k = true → k.toNat < 128
  counts : Counts mods d.keyDown d

variable {m : Keymap} {mods : Byte → Option Nat} {d d' : Driver} {b k : Byte}

theorem Kept.sound (h : Kept mods d d') (hx : d.kbd.kbdmode = .xlate)
    (hlow : ∀ k, d.keyDown k = true → k.toNat < 128) : Sound mods d' where
  xlate := h.kbdmode.trans hx
  low := h.keyDown ▸ hlow
  counts := h.keyDown ▸ h.counts

theorem Sound.low_update (h : Sound mods d) (hk : k.toNat < 128) (down : Bool) :
    ∀ x, Function.update d.keyDown k down x = true → x.toNat < 128 := by
  intro x hx
  by_cases hxk : x = k
  · rwa [hxk]
  · rw [Function.update_of_ne hxk] at hx
    exact h.low x hx

theorem press_kept (hs : m.Stable mods) (h : Sound mods d) (hk : k.toNat < 128)
    (hd : d' = { d with rep := d.keyDown k, keyDown := Function.update d.keyDown k true }) :
    Kept mods d' (d'.handleKeycode m k false false) := by
  subst hd
  have hlow := h.low_update hk true
  refine handleKeycode_kept hs h.xlate hlow (fun hm => ?_) (fun hr => ?_) (fun v hm hr => ?_)
  · exact h.counts.of_eq (countOf_none hm true) rfl rfl
  · have hsame : Function.update d.keyDown k true = d.keyDown := by
      rw [← (hr : d.keyDown k = true), Function.update_eq_self]
    exact h.counts.of_eq (fun w => by rw [hsame]) rfl rfl
  · exact (h.counts.press hm hr hlow).of_eq (fun _ => rfl) rfl rfl

theorem release_kept (hs : m.Stable mods) (h : Sound mods d) (hk : k.toNat < 128)
    (hp : mods k ≠ none → d.keyDown k = true)
    (hd : d' = { d with rep := false, keyDown := Function.update d.keyDown k false }) :
    Kept mods d' (d'.handleKeycode m k (if d.keyDown k then true else pckbdUnexpectedUp k) false) := by
  subst hd
  have hlow := h.low_update hk false
  refine handleKeycode_kept hs h.xlate hlow (fun hm => ?_) (fun hr => ?_) (fun v hm _ => ?_)
  · exact h.counts.of_eq (countOf_none hm false) rfl rfl
  · cases hr
  · have hdown : d.keyDown k = true := hp (hm ▸ Option.some_ne_none v)
    rw [if_pos hdown]
    exact (h.counts.release hm hdown).of_eq (fun _ => rfl) rfl rfl

section Scancodes

theorem doScancode_skip (hb : ¬(b ≠ 0x00 ∧ b ≠ 0xff)) : doScancode m d b = d := if_neg hb

variable {prev : Nat}

theorem handleScancode_xlate (hx : d.kbd.kbdmode = .xlate) (down : Bool) : d.handleScancode m b down =
    match pckbdTranslate b d.prevScancode with
    | (prev, none) => { d with prevScancode := prev }
    | (prev, some k) =>
      let t := { d with prevScancode := prev }.track k !down
      t.2.handleKeycode m k t.1 false := by
  unfold handleScancode
  rw [hx]
  rfl

theorem doScancode_part (hx : d.kbd.kbdmode = .xlate) (hb : b ≠ 0x00 ∧ b ≠ 0xff)
    (ht : pckbdTranslate b d.prevScancode = (prev, none)) :
    doScancode m d b = { d with prevScancode := prev }.kbdBh := by
  unfold doScancode
  rw [if_pos hb, handleScancode_xlate hx, ht]

theorem doScancode_press (hx : d.kbd.kbdmode = .xlate) (hb : b ≠ 0x00 ∧ b ≠ 0xff)
    (ht : pckbdTranslate b d.prevScancode = (prev, some k)) (hdown : goesDown b = true) :
    doScancode m d b = ({ d with
      prevScancode := prev
      rep := d.keyDown k
      keyDown := Function.update d.keyDown k true }.handleKeycode m k false false).kbdBh := by
  unfold goesDown at hdown
  unfold doScancode
  rw [if_pos hb, handleScancode_xlate hx, ht, hdown]
  rfl

theorem doScancode_release (hx : d.kbd.kbdmode = .xlate) (hb : b ≠ 0x00 ∧ b ≠ 0xff)
    (ht : pckbdTranslate b d.prevScancode = (prev, some k)) (hdown : goesDown b = false) :
    doScancode m d b = ({ d with
      prevScancode := prev
      rep := false
      keyDown := Function.update d.keyDown k false }.handleKeycode m k
        (if d.keyDown k then true else pckbdUnexpectedUp k) false).kbdBh := by
  unfold goesDown at hdown
  unfold doScancode
  rw [if_pos hb, handleScancode_xlate hx, ht, hdown]
  rfl

end Scancodes

theorem doScancode_sound (hs : m.Stable mods) (h : Sound mods d)
    (hp : Paired mods d.keyDown (keyEvent d.prevScancode b).2.toList) :
    Sound mods (doScancode m d b) ∧
      (doScancode m d b).prevScancode = (keyEvent d.prevScancode b).1 ∧
      (doScancode m d b).keyDown = held d.keyDown (keyEvent d.prevScancode b).2.toList := by
  unfold keyEvent at hp ⊢
  by_cases hb : b ≠ 0x00 ∧ b ≠ 0xff
  · simp only [if_pos hb] at hp ⊢
    cases ht : pckbdTranslate b d.prevScancode with
    | mk prev key =>
      rw [ht] at hp
      cases key with
      | none =>
        rw [doScancode_part h.xlate hb ht]
        exact ⟨⟨h.xlate, h.low, h.counts.of_eq (fun _ => rfl) rfl rfl⟩, rfl, rfl⟩
      | some k =>
        have hk : k.toNat < 128 := translate_lt ht
        have hprev : Sound mods { d with prevScancode := prev } :=
          ⟨h.xlate, h.low, h.counts.of_eq (fun _ => rfl) rfl rfl⟩
        cases hdown : goesDown b with
        | true =>
          rw [doScancode_press h.xlate hb ht hdown]
          have hkept := press_kept hs hprev hk rfl
          have hsound := hkept.sound h.xlate (hprev.low_update hk true)
          exact ⟨⟨hsound.xlate, hsound.low, hsound.counts.congr rfl⟩, hkept.prevScancode,
            hkept.keyDown⟩
        | false =>
          have hheld : mods k ≠ none → d.keyDown k = true := hp.1 hdown
          rw [doScancode_release h.xlate hb ht hdown]
          have hkept := release_kept hs hprev hk hheld rfl
          have hsound := hkept.sound h.xlate (hprev.low_update hk false)
          exact ⟨⟨hsound.xlate, hsound.low, hsound.counts.congr rfl⟩, hkept.prevScancode,
            hkept.keyDown⟩
  · simp only [if_neg hb] at hp ⊢
    rw [doScancode_skip hb]
    exact ⟨h, rfl, rfl⟩

theorem paired_append {keys : Byte → Bool} {es fs : List KeyEvent} :
    Paired mods keys (es ++ fs) ↔ Paired mods keys es ∧ Paired mods (held keys es) fs := by
  induction es generalizing keys with
  | nil => exact ⟨fun h => ⟨trivial, h⟩, fun h => h.2⟩
  | cons e es ih =>
    simp only [List.cons_append, Paired, ih]
    exact and_assoc.symm

theorem run_sound (hs : m.Stable mods) {bytes : List Byte} (h : Sound mods d)
    (hp : Paired mods d.keyDown (events d.prevScancode bytes)) :
    Sound mods (d.run m bytes) ∧
      (d.run m bytes).keyDown = held d.keyDown (events d.prevScancode bytes) := by
  induction bytes generalizing d with
  | nil => exact ⟨h, rfl⟩
  | cons b bytes ih =>
    rw [events, paired_append] at hp
    obtain ⟨hsound, hprev, hdown⟩ := doScancode_sound hs h hp.1
    rw [← hprev, ← hdown] at hp
    obtain ⟨hrest, hkeys⟩ := ih hsound hp.2
    refine ⟨hrest, hkeys.trans ?_⟩
    rw [events, held, held, List.foldl_append, hprev, hdown]
    rfl

theorem countOf_pos {keys : Byte → Bool} {v : Nat} :
    0 < countOf mods keys v ↔ ∃ k, keys k = true ∧ mods k = some v := by
  unfold countOf
  rw [List.countP_pos_iff]
  constructor
  · rintro ⟨k, -, hk⟩
    obtain ⟨hdown, hm⟩ := Bool.and_eq_true_iff.mp hk
    exact ⟨k, hdown, eq_of_beq hm⟩
  · rintro ⟨k, hdown, hm⟩
    exact ⟨k, mem_allKeys k, by rw [hdown, hm, beq_self_eq_true, Bool.and_self]⟩

theorem boot_sound (mods : Byte → Option Nat) : Sound mods boot := by
  have hzero : ∀ v, countOf mods (fun _ => false) v = 0 := by
    intro v
    refine Nat.eq_zero_of_not_pos fun hpos => ?_
    obtain ⟨k, hk, -⟩ := countOf_pos.mp hpos
    cases hk
  refine ⟨rfl, fun k h => ?_, fun v => ?_, fun i _ => ?_⟩
  · cases h
  · exact (hzero v).symm
  · rw [show boot.keyDown = fun _ => false from rfl, hzero i]
    exact BitVec.getLsbD_zero

/-- No modifier is ever stuck. -/
theorem modifiers_follow_keys (hs : m.Stable mods) (bytes : List Byte)
    (hp : Paired mods (fun _ => false) (events 0 bytes)) :
    let d := boot.run m bytes
    let keys := held (fun _ => false) (events 0 bytes)
    d.keyDown = keys ∧ (∀ v, (d.kDown v).toNat = countOf mods keys v) ∧
      (∀ i < 32, d.shiftState.getLsbD i = true ↔ ∃ k, keys k = true ∧ mods k = some i) ∧
      (d.shiftState = 0#32 ↔ ∀ k, keys k = true → mods k = none) := by
  obtain ⟨hsound, hkeys⟩ := run_sound hs (boot_sound mods) hp
  have hcounts := hsound.counts
  rw [hkeys] at hcounts
  have hbit : ∀ i < 32, (boot.run m bytes).shiftState.getLsbD i = true ↔
      ∃ k, held (fun _ => false) (events 0 bytes) k = true ∧ mods k = some i := by
    intro i hi
    rw [hcounts.shiftState i hi, decide_eq_true_iff]
    exact countOf_pos
  refine ⟨hkeys, hcounts.kDown, hbit, ?_, ?_⟩
  · intro hzero k hk
    cases hm : mods k with
    | none => rfl
    | some v =>
      have hv : v < 8 := hs.lt k v hm
      have hset := (hbit v (by omega)).mpr ⟨k, hk, hm⟩
      rw [hzero, BitVec.getLsbD_zero] at hset
      cases hset
  · intro hnone
    refine BitVec.eq_of_getLsbD_eq fun i hi => ?_
    rw [BitVec.getLsbD_zero, ← Bool.not_eq_true]
    intro hset
    obtain ⟨k, hk, hm⟩ := (hbit i hi).mp hset
    rw [hnone k hk] at hm
    cases hm

/-- Both shifts and the right Control, out of order. -/
theorem modifiers_follow_keys_released : (boot.run Defkeymap.keymap
    [0x2a, 0xe0, 0x1d, 0x36, 0x1e, 0xaa, 0x9e, 0xe0, 0x9d, 0xb6]).shiftState = 0#32 :=
  (modifiers_follow_keys Defkeymap.stable _ (by decide +kernel)).2.2.2.mpr (by decide +kernel)

end DominOS.KeyboardDriver
