import DominOS.KeyboardRuns
import Mathlib.Data.List.Induction

/-! shell/main.c: the command that the shell finds in its buffer, against the line that was typed. -/
namespace DominOS.Keyboard
open Runs

variable {c c₀ d : Console} {r : Reading} {s pre text : List Byte} {x : Byte} {i n : Nat}

def buffSize : Nat := 50

/-- The shell zeroes `buff` and calls `cons_read`. -/
def shellRead : Reading := ⟨buffSize, 0, fun _ => 0⟩

def Console.called (c : Console) : Console := { c with reader := some shellRead }

def Key (x : Byte) : Prop := 32 ≤ x ∧ x ≤ del

def press (text : List Byte) (x : Byte) : List Byte := if x = del then text.dropLast else text ++ [x]

def edited (s : List Byte) : List Byte := s.foldl press []

/-- The NUL-terminated string in a buffer of `n` characters. -/
structure IsString (string : Nat → Byte) (n : Nat) (text : List Byte) : Prop where
  fits : text.length < n
  chars : ∀ i x, text[i]? = some x → string i = x ∧ x ≠ 0
  terminated : string text.length = 0

def Erased (s : List Byte) : Prop := ∃ pre, s = pre ++ [del] ∧ edited pre ≠ []

/-- The line has never been as long as the buffer, and the last key has erased nothing. -/
structure Tidy (s : List Byte) : Prop where
  short : ∀ pre, pre <+: s → (edited pre).length < buffSize
  last : ¬ Erased s

def LineStep (P : Console → Event → Prop) (c d : Console) : Prop :=
  ∃ e, (∀ n string, e ≠ .call n string) ∧ P c e ∧ c.step e = some d

def Console.turns : Nat → Console → Console
  | 0, c => c
  | n + 1, c =>
    match c.reader with
    | some r => turns n (c.turn r)
    | none => c

section Keys

def Reading.key (r : Reading) (x : Byte) : Reading :=
  if x = del then
    { r with string := Function.update r.string r.charLength 0, charLength := r.charLength - 1 }
  else { r with string := Function.update r.string r.charLength x, charLength := r.charLength + 1 }

theorem edited_concat (s : List Byte) (x : Byte) : edited (s ++ [x]) = press (edited s) x := by
  simp [edited]

theorem erased_concat (s : List Byte) (x : Byte) : Erased (s ++ [x]) ↔ x = del ∧ edited s ≠ [] := by
  constructor
  · rintro ⟨pre, heq, hne⟩
    obtain ⟨rfl, hx⟩ := List.append_inj' heq rfl
    exact ⟨(List.cons.inj hx).1, hne⟩
  · rintro ⟨rfl, hne⟩
    exact ⟨s, rfl, hne⟩

/-- The buffer while a line is read: the text, then one character that is left of what was erased,
if the last key erased one, and zeroes. -/
structure Buffered (r : Reading) (s : List Byte) : Prop where
  length : r.length = buffSize
  charLength : r.charLength = (edited s).length
  chars : ∀ i x, (edited s)[i]? = some x → r.string i = x ∧ x ≠ 0
  zero : ∀ i, (edited s).length < i → r.string i = 0
  next : r.string (edited s).length = 0 ↔ ¬ Erased s

theorem shellRead_buffered : Buffered shellRead [] := by
  constructor
  · rfl
  · rfl
  · exact fun i x hx => by simp [edited] at hx
  · exact fun _ _ => rfl
  · have hnone : ¬ Erased [] := by
      rintro ⟨pre, heq, -⟩
      simp at heq
    exact ⟨fun _ => hnone, fun _ => rfl⟩

theorem Buffered.key (h : Buffered r s) (h0 : x ≠ 0) : Buffered (r.key x) (s ++ [x]) := by
  have hchar := h.charLength
  unfold Reading.key
  by_cases hx : x = del
  · have hedited : edited (s ++ [x]) = (edited s).dropLast := by
      rw [edited_concat, press, if_pos hx]
    rw [if_pos hx]
    constructor
    · exact h.length
    · simp [hedited, hchar]
    · intro i y hy
      rw [hedited, List.getElem?_dropLast] at hy
      split at hy
      · simp only [Function.update_of_ne (show i ≠ r.charLength by omega)]
        exact h.chars i y hy
      · cases hy
    · intro i hi
      simp only [hedited, List.length_dropLast] at hi
      by_cases heq : i = r.charLength
      · simp [heq]
      · simp only [Function.update_of_ne heq]
        exact h.zero i (by omega)
    · rw [erased_concat, hedited, List.length_dropLast]
      cases hlen : (edited s).length with
      | zero =>
        have hnil := List.length_eq_zero_iff.mp hlen
        simp [hchar, hnil]
      | succ l =>
        have hne : edited s ≠ [] := fun hnil => by simp [hnil] at hlen
        obtain ⟨y, hy⟩ : ∃ y, (edited s)[l]? = some y := by
          rw [List.getElem?_eq_getElem (by omega)]
          exact ⟨_, rfl⟩
        obtain ⟨hstring, hy0⟩ := h.chars l y hy
        simp only [Nat.add_sub_cancel, Function.update_of_ne (show l ≠ r.charLength by omega), hstring]
        exact ⟨fun hz => absurd hz hy0, fun hn => absurd ⟨hx, hne⟩ hn⟩
  · have hedited : edited (s ++ [x]) = edited s ++ [x] := by
      rw [edited_concat, press, if_neg hx]
    rw [if_neg hx]
    constructor
    · exact h.length
    · simp [hedited, hchar]
    · intro i y hy
      rw [hedited] at hy
      by_cases heq : i = r.charLength
      · subst heq
        rw [hchar, List.getElem?_concat_length] at hy
        cases hy
        exact ⟨Function.update_self .., h0⟩
      · have hlt : i < (edited s).length := by
          have hi := (List.getElem?_eq_some_iff.mp hy).1
          simp only [List.length_append, List.length_singleton] at hi
          omega
        rw [List.getElem?_append_left hlt] at hy
        simp only [Function.update_of_ne heq]
        exact h.chars i y hy
    · intro i hi
      simp only [hedited, List.length_append, List.length_singleton] at hi
      simp only [Function.update_of_ne (show i ≠ r.charLength by omega)]
      exact h.zero i (by omega)
    · have hstring : r.string ((edited s).length + 1) = 0 := h.zero _ (by omega)
      rw [erased_concat, hedited, List.length_append, List.length_singleton]
      simp only [Function.update_of_ne (show (edited s).length + 1 ≠ r.charLength by omega), hstring]
      exact ⟨fun _ he => hx he.1, fun _ => trivial⟩

theorem Buffered.isString (h : Buffered r s) (hlen : (edited s).length < buffSize) :
    IsString r.string buffSize (edited s) ↔ ¬ Erased s :=
  ⟨fun hs => h.next.mp hs.terminated, fun hn => ⟨hlen, h.chars, h.next.mpr hn⟩⟩

theorem Buffered.full (h : Buffered r s) (hlen : (edited s).length = buffSize) :
    ¬ IsString r.string buffSize text := by
  intro hs
  have hlt : text.length < (edited s).length := hlen.symm ▸ hs.fits
  obtain ⟨hstring, h0⟩ := h.chars text.length _ (List.getElem?_eq_getElem hlt)
  exact h0 (hstring.symm.trans hs.terminated)

end Keys

section Lines

/-- `t` has been typed since the call, and `pre` of it has been read, which has not filled the
buffer before its last character. -/
structure Taken (c₀ c : Console) (t pre : List Byte) : Prop where
  tracks : Tracks c
  typed : c.typed = c₀.typed ++ t
  taken : pre <+: t
  plain : cr ∉ pre
  short : ∀ p, p <+: pre → p ≠ pre → (edited p).length < buffSize

structure Reading.On (r : Reading) (c₀ c : Console) (t pre : List Byte) : Prop extends Taken c₀ c t pre where
  reader : c.reader = some r
  buffered : Buffered r pre
  consumed : c.consumed = c₀.typed.length + pre.length
  reads : c.reads = c₀.reads

structure Read.Over (r : Read) (c₀ c : Console) (t pre : List Byte) : Prop extends Taken c₀ c t pre where
  reader : c.reader = none
  reads : c.reads = c₀.reads ++ [r]
  buffered : Buffered ⟨r.length, r.ret, r.string⟩ pre
  ended : (edited pre).length = buffSize ∨ (edited pre).length < buffSize ∧ pre ++ [cr] <+: t

theorem press_length (s : List Byte) (x : Byte) : (press s x).length ≤ s.length + 1 := by
  unfold press
  split
  · simp only [List.length_dropLast]
    omega
  · simp

theorem Taken.length_le {t : List Byte} (h : Taken c₀ c t pre) : (edited pre).length ≤ buffSize := by
  induction pre using List.reverseRecOn with
  | nil => exact Nat.zero_le _
  | append_singleton p x _ =>
    have hp := h.short p (List.prefix_append _ _) (by simp)
    have hx := press_length (edited p) x
    rw [edited_concat]
    omega

theorem Taken.type {t str : List Byte} {d : Console} (h : Taken c₀ c t pre) (htracks : Tracks d)
    (htyped : d.typed = c.typed ++ str) : Taken c₀ d (t ++ str) pre where
  tracks := htracks
  typed := by rw [htyped, h.typed, List.append_assoc]
  taken := h.taken.trans (List.prefix_append _ _)
  plain := h.plain
  short := h.short

/-- A turn of the loop: it waits, returns, or goes on. -/
theorem Reading.On.turn {t : List Byte} (h : r.On c₀ c t pre) (hclear : Clear c .turn) :
    c.turn r = c ∧ pre = t ∨ (∃ rd : Read, rd.Over c₀ (c.turn r) t pre) ∨
      ∃ (r' : Reading) (x : Byte), r'.On c₀ (c.turn r) t (pre ++ [x]) := by
  have htracks := h.tracks.turn h.reader hclear
  have hlength := h.buffered.length
  have hchar := h.buffered.charLength
  by_cases hfull : r.charLength = r.length
  · have hret : (edited pre).length = buffSize := hchar.symm.trans (hfull.trans hlength)
    rw [turn_full hfull] at htracks ⊢
    right; left
    refine ⟨⟨c.began, c.consumed - c.began, r.length, r.charLength, r.string⟩,
      ⟨htracks, h.typed, h.taken, h.plain, h.short⟩, rfl, ?_, h.buffered, .inl hret⟩
    show c.reads ++ _ = _
    rw [h.reads]
  cases hx : c.typed[c.consumed]? with
  | none =>
    obtain ⟨hend, hstale⟩ := h.tracks.ring.none_left hx
    have hz : stale c.typed c.consumed = 0 := by
      apply if_neg
      rintro ⟨hturn, hdel⟩
      exact hclear hend r h.reader hfull hturn hdel
    left
    rw [turn_waits hfull (hstale.trans hz), ← h.reader]
    refine ⟨rfl, h.taken.eq_of_length ?_⟩
    have hlen := congrArg List.length h.typed
    rw [← hend, h.consumed, List.length_append] at hlen
    omega
  | some x =>
    have hslot := h.tracks.ring.first hx
    have h0 : x ≠ 0 := by
      rintro rfl
      exact h.tracks.nonzero (List.mem_of_getElem? hx)
    have hlt : (edited pre).length < buffSize := by
      have hle := h.length_le
      omega
    have htaken : pre ++ [x] <+: t := by
      obtain ⟨more, rfl⟩ := h.taken
      rw [h.typed, h.consumed, List.getElem?_append_right (by omega), Nat.add_sub_cancel_left,
        List.getElem?_append_right (Nat.le_refl _), Nat.sub_self] at hx
      cases more with
      | nil => cases hx
      | cons y more =>
        cases hx
        exact ⟨more, by simp⟩
    by_cases hcr : x = cr
    · rw [turn_cr hfull (hslot.trans hcr)] at htracks ⊢
      right; left
      refine ⟨⟨c.began, c.consumed + 1 - c.began, r.length, r.charLength, r.string⟩,
        ⟨htracks, h.typed, h.taken, h.plain, h.short⟩, rfl, ?_, h.buffered, .inr ⟨hlt, hcr ▸ htaken⟩⟩
      show c.reads ++ _ = _
      rw [h.reads]
    right; right
    have hplain : cr ∉ pre ++ [x] := by
      intro hm
      obtain hm | hm := List.mem_append.mp hm
      · exact h.plain hm
      · exact hcr (List.mem_singleton.mp hm).symm
    have hshort : ∀ p, p <+: pre ++ [x] → p ≠ pre ++ [x] → (edited p).length < buffSize := by
      intro p hp hne
      have hp := (List.prefix_concat_iff.mp hp).resolve_left hne
      by_cases heq : p = pre
      · exact heq ▸ hlt
      · exact h.short p hp heq
    have hconsumed : c.consumed + 1 = c₀.typed.length + (pre ++ [x]).length := by
      rw [h.consumed, List.length_append, List.length_singleton, Nat.add_assoc]
    refine ⟨r.key x, x, ?_⟩
    by_cases hdel : x = del
    · rw [turn_del hfull (hslot.trans hdel)] at htracks ⊢
      refine ⟨⟨htracks, h.typed, htaken, hplain, hshort⟩, ?_, h.buffered.key h0, hconsumed, h.reads⟩
      exact congrArg some (if_pos hdel).symm
    · rw [turn_plain hfull hslot h0 hcr hdel] at htracks ⊢
      refine ⟨⟨htracks, h.typed, htaken, hplain, hshort⟩, ?_, h.buffered.key h0, hconsumed, h.reads⟩
      exact congrArg some (if_neg hdel).symm

/-- A call that has begun on an empty keyboard buffer. -/
structure Begun (P : Console → Event → Prop) (c₀ : Console) : Prop where
  run : Run P c₀
  idle : c₀.reader = none
  empty : c₀.consumed = c₀.typed.length

def Orderly (c : Console) (e : Event) : Prop := InLimits c e ∧ Clear c e

theorem Begun.tracks (h : Begun Orderly c₀) : Tracks c₀ := by
  apply h.run.invariant
  · rintro _ rfl
    exact boot_tracks
  · rintro c d hc ⟨e, ⟨hlimits, hclear⟩, hs⟩
    exact hc.step hlimits hclear hs

theorem Begun.called (h : Begun Orderly c₀) : shellRead.On c₀ c₀.called [] [] where
  tracks := by
    apply h.tracks.step (e := .call buffSize fun _ => 0) trivial trivial
    simp [Console.step, h.idle, Console.called, shellRead]
  typed := (List.append_nil _).symm
  taken := List.nil_prefix
  plain := nofun
  short p hp hne := absurd (List.prefix_nil.mp hp) hne
  reader := rfl
  buffered := shellRead_buffered
  consumed := h.empty
  reads := rfl

def Answers (c₀ c : Console) (t : List Byte) : Prop :=
  ∃ pre, (∃ r : Reading, r.On c₀ c t pre) ∨ ∃ r : Read, r.Over c₀ c t pre

theorem Answers.step {t : List Byte} (h : Answers c₀ c t) (hs : LineStep Orderly c d) :
    ∃ t', Answers c₀ d t' := by
  obtain ⟨e, hcall, ⟨hlimits, hclear⟩, hs⟩ := hs
  obtain ⟨pre, ⟨r, hon⟩ | ⟨r, hover⟩⟩ := h
  · have htracks := hon.tracks.step hlimits hclear hs
    cases e with
    | call n string => exact absurd rfl (hcall n string)
    | type str =>
      obtain ⟨hstr, hd⟩ := Option.ite_none_left_eq_some.mp hs
      cases hd
      exact ⟨t ++ str, pre, .inl ⟨r, hon.toTaken.type htracks rfl, hon.reader, hon.buffered, hon.consumed,
        hon.reads⟩⟩
    | turn =>
      have hturn : c.step .turn = some (c.turn r) := by simp [Console.step, hon.reader]
      cases hturn.symm.trans hs
      obtain ⟨hsame, -⟩ | ⟨rd, hover⟩ | ⟨r', x, hon'⟩ := hon.turn hclear
      · exact ⟨t, pre, .inl ⟨r, hsame.symm ▸ hon⟩⟩
      · exact ⟨t, pre, .inr ⟨rd, hover⟩⟩
      · exact ⟨t, pre ++ [x], .inl ⟨r', hon'⟩⟩
  · have htracks := hover.tracks.step hlimits hclear hs
    cases e with
    | call n string => exact absurd rfl (hcall n string)
    | type str =>
      obtain ⟨hstr, hd⟩ := Option.ite_none_left_eq_some.mp hs
      cases hd
      refine ⟨t ++ str, pre, .inr ⟨r, hover.toTaken.type htracks rfl, hover.reader, hover.reads,
        hover.buffered, ?_⟩⟩
      exact hover.ended.imp_right fun he => ⟨he.1, he.2.trans (List.prefix_append _ _)⟩
    | turn =>
      simp [Console.step, hover.reader] at hs

theorem Answers.run (h : Begun Orderly c₀) (hrun : Relation.ReflTransGen (LineStep Orderly) c₀.called c) :
    ∃ t, Answers c₀ c t := by
  induction hrun with
  | refl => exact ⟨[], [], .inl ⟨_, h.called⟩⟩
  | tail _ hs ih =>
    obtain ⟨t, ht⟩ := ih
    exact ht.step hs

theorem Reading.On.returns {t : List Byte} (hcr : cr ∈ t) (h : r.On c₀ c t pre) :
    ∃ n pre', ∃ rd : Read, rd.Over c₀ (c.turns n) t pre' := by
  generalize hleft : t.length - pre.length = left
  induction left generalizing c r pre with
  | zero =>
    have heq := h.taken.eq_of_length_le (by omega)
    exact absurd (heq ▸ hcr) h.plain
  | succ left ih =>
    have hlt : c.consumed ≠ c.typed.length := by
      have hlen := congrArg List.length h.typed
      rw [List.length_append] at hlen
      have := h.consumed
      omega
    have hturns : ∀ n, c.turns (n + 1) = (c.turn r).turns n := by
      intro n
      simp only [Console.turns, h.reader]
    obtain ⟨-, heq⟩ | ⟨rd, hover⟩ | ⟨r', x, hon⟩ := h.turn fun hend => absurd hend hlt
    · exact absurd (heq ▸ hcr) h.plain
    · exact ⟨1, pre, rd, hturns 0 ▸ hover⟩
    · obtain ⟨n, pre', rd, hover⟩ := ih hon (by
        rw [List.length_append, List.length_singleton]
        omega)
      exact ⟨n + 1, pre', rd, (hturns n).symm ▸ hover⟩

theorem Read.Over.isString {rd : Read} (hcr : cr ∉ s) (h : rd.Over c₀ c (s ++ [cr]) pre) :
    IsString rd.string buffSize (edited s) ↔ Tidy s := by
  have hpre : pre <+: s := (List.prefix_concat_iff.mp h.taken).resolve_left fun heq =>
    h.plain (heq ▸ List.mem_append_right _ (List.mem_singleton_self cr))
  obtain hfull | ⟨hlt, hend⟩ := h.ended
  · exact ⟨fun hs => absurd hs (h.buffered.full hfull), fun hs => absurd (hs.short pre hpre) (by omega)⟩
  · have heq : pre = s := by
      obtain heq | hin := List.prefix_concat_iff.mp hend
      · exact (List.append_inj' heq rfl).1
      · exact absurd (hin.subset (List.mem_append_right _ (List.mem_singleton_self cr))) hcr
    subst heq
    refine (h.buffered.isString hlt).trans ⟨fun hn => ⟨fun p hp => ?_, hn⟩, Tidy.last⟩
    by_cases hpe : p = pre
    · exact hpe ▸ hlt
    · exact h.short p hp hpe

/-- The shell reads a line of printable characters and 127s that is typed on an empty keyboard
buffer, before or while it reads, as long as no character is typed over an unread one and the shell
does not wait behind an old 127. The call returns, and the string that it leaves is the edited text
exactly when the line never fills the buffer and its last key has not erased a character. -/
theorem shell_reads_line (c₀ c : Console) (h : Begun Orderly c₀) (s : List Byte) (hkeys : ∀ x ∈ s, Key x)
    (hrun : Relation.ReflTransGen (LineStep Orderly) c₀.called c)
    (htyped : c.typed = c₀.typed ++ (s ++ [cr])) :
    ∃ n rd, (c.turns n).reader = none ∧ (c.turns n).reads = c₀.reads ++ [rd] ∧
      (IsString rd.string buffSize (edited s) ↔ Tidy s) := by
  have hcr : cr ∉ s := fun hm => absurd (hkeys cr hm).1 (by decide)
  obtain ⟨t, pre, hanswer⟩ := Answers.run h hrun
  obtain ⟨n, pre', rd, hover⟩ : ∃ n pre', ∃ rd : Read, rd.Over c₀ (c.turns n) (s ++ [cr]) pre' := by
    obtain ⟨r, hon⟩ | ⟨rd, hover⟩ := hanswer
    · obtain rfl : t = s ++ [cr] := List.append_cancel_left (hon.typed.symm.trans htyped)
      exact hon.returns (List.mem_append_right _ (List.mem_singleton_self cr))
    · obtain rfl : t = s ++ [cr] := List.append_cancel_left (hover.typed.symm.trans htyped)
      exact ⟨0, pre, rd, hover⟩
  exact ⟨n, rd, hover.reader, hover.reads, hover.isString hcr⟩

theorem boot_begun (P : Console → Event → Prop) : Begun P Console.boot := ⟨Reachable.start rfl, rfl, rfl⟩

def Console.bootTyped (s : List Byte) : Console :=
  { Console.boot.called with kbd := Console.boot.kbd.keyboardData s, typed := s }

theorem bootTyped_run {s : List Byte} (h0 : 0 ∉ s) (hlen : s.length ≤ bufferSize) :
    Relation.ReflTransGen (LineStep Orderly) Console.boot.called (Console.bootTyped s) := by
  have hlimits : InLimits Console.boot.called (.type s) := by
    show 0 + s.length ≤ 0 + bufferSize
    omega
  exact .single ⟨.type s, fun _ _ => nofun, ⟨hlimits, trivial⟩, step_type h0⟩

theorem edited_length (s : List Byte) : (edited s).length ≤ s.length := by
  induction s using List.reverseRecOn with
  | nil => exact Nat.zero_le _
  | append_singleton s x ih =>
    have hx := press_length (edited s) x
    rw [edited_concat, List.length_append, List.length_singleton]
    omega

theorem tidy_of_short {s : List Byte} (h : s.length < buffSize) (hlast : s.getLast? ≠ some del) :
    Tidy s where
  short pre hpre := Nat.lt_of_le_of_lt (Nat.le_trans (edited_length pre) hpre.length_le) h
  last := by
    rintro ⟨pre, rfl, -⟩
    exact hlast List.getLast?_concat

/-- A character in the middle of the line is erased. -/
theorem shell_reads_line_erased :
    ∃ n rd, ((Console.bootTyped ([97, 98, del, 99] ++ [cr])).turns n).reader = none ∧
      ((Console.bootTyped ([97, 98, del, 99] ++ [cr])).turns n).reads = [] ++ [rd] ∧
      IsString rd.string buffSize [97, 99] := by
  obtain ⟨n, rd, hreader, hreads, hstring⟩ := shell_reads_line Console.boot
    (Console.bootTyped ([97, 98, del, 99] ++ [cr])) (boot_begun Orderly) [97, 98, del, 99]
    (by simp [Key, del]) (bootTyped_run (by decide) (by decide)) rfl
  exact ⟨n, rd, hreader, hreads, hstring.mpr (tidy_of_short (by decide) (by decide))⟩

/-- After `ab`, an erasure and the end of the line the shell finds `ab`. -/
theorem erased_character_kept :
    Begun Orderly Console.boot ∧ edited [97, 98, del] = [97] ∧
      Relation.ReflTransGen (LineStep Orderly) Console.boot.called (Console.bootTyped [97, 98, del, cr]) ∧
      ((Console.bootTyped [97, 98, del, cr]).turns 4).reader = none ∧
      ∃ rd, ((Console.bootTyped [97, 98, del, cr]).turns 4).reads = [rd] ∧
        IsString rd.string buffSize [97, 98] ∧ ¬ IsString rd.string buffSize [97] := by
  refine ⟨boot_begun Orderly, rfl, bootTyped_run (by decide) (by decide), rfl, _, rfl, ⟨by decide, ?_, rfl⟩, ?_⟩
  · intro i x hx
    match i, hx with
    | 0, hx =>
      cases hx
      exact ⟨rfl, by decide⟩
    | 1, hx =>
      cases hx
      exact ⟨rfl, by decide⟩
  · intro hs
    exact absurd hs.terminated (by decide)

end Lines

end DominOS.Keyboard
