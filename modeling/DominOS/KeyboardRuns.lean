import DominOS.Keyboard

/-! What `cons_read` returns, over any number of turns of the buffer: the typed lines, as long as
no reader waits at a slot that still has an old 127. -/
namespace DominOS.Keyboard
open Runs

variable {k : Kbd} {c d : Console} {r : Reading} {typed str more : List Byte} {x : Byte}
  {consumed i n : Nat} {text : List Byte}

theorem next_mod (i : Nat) : next (i % bufferSize) = (i + 1) % bufferSize := by
  unfold next bufferSize
  split <;> omega

theorem next_ne (i : Nat) : next i ≠ i := by
  unfold next bufferSize
  split <;> omega

@[simp] theorem cr_ne_zero : cr ≠ 0#8 := by decide

@[simp] theorem del_ne_zero : del ≠ 0#8 := by decide

@[simp] theorem del_ne_cr : del ≠ cr := by decide

theorem consWrite_slots (k : Kbd) (str : List Byte) :
    (k.consWrite str).keyboardBuffer = k.keyboardBuffer ∧
      (k.consWrite str).indexWrite = k.indexWrite ∧ (k.consWrite str).indexRead = k.indexRead := by
  unfold Kbd.consWrite
  split
  · exact ⟨rfl, rfl, rfl⟩
  · exact ⟨rfl, rfl, rfl⟩

section Ring

/-- What is left in the slot for character number `j`, once the one before it there is read. -/
def stale (typed : List Byte) (j : Nat) : Byte :=
  if bufferSize ≤ j ∧ typed[j - bufferSize]? = some del then del else 0

/-- The unread characters are in their slots, and the other slots are as reads have left them. -/
structure Ring (k : Kbd) (typed : List Byte) (consumed : Nat) : Prop where
  le : consumed ≤ typed.length
  room : typed.length ≤ consumed + bufferSize
  write : k.indexWrite = typed.length % bufferSize
  read : k.indexRead = consumed % bufferSize
  unread : ∀ j c, consumed ≤ j → typed[j]? = some c → k.keyboardBuffer (j % bufferSize) = c
  spent : ∀ j, typed.length ≤ j → j < consumed + bufferSize →
    k.keyboardBuffer (j % bufferSize) = stale typed j

theorem slot_ne {i j : Nat} (h : i < j) (hj : j < i + bufferSize) :
    j % bufferSize ≠ i % bufferSize ∧ i % bufferSize ≠ j % bufferSize := by
  simp only [bufferSize] at hj ⊢
  omega

theorem typeChar_slots (k : Kbd) (x : Byte) :
    (k.typeChar x).keyboardBuffer = Function.update k.keyboardBuffer k.indexWrite x ∧
      (k.typeChar x).indexWrite = next k.indexWrite ∧ (k.typeChar x).indexRead = k.indexRead := by
  unfold Kbd.typeChar
  simp only
  split
  · exact consWrite_slots _ _
  split
  · split
    · exact consWrite_slots _ _
    · exact ⟨rfl, rfl, rfl⟩
  · exact consWrite_slots _ _

theorem Ring.type (h : Ring k typed consumed) (hroom : typed.length < consumed + bufferSize) (x : Byte) :
    Ring (k.typeChar x) (typed ++ [x]) consumed := by
  obtain ⟨hbuffer, hwrite, hread⟩ := typeChar_slots k x
  have hle := h.le
  have hlen : (typed ++ [x]).length = typed.length + 1 := by simp
  constructor
  · omega
  · omega
  · rw [hwrite, h.write, next_mod, hlen]
  · rw [hread, h.read]
  · intro j y hj hy
    rw [hbuffer, h.write]
    by_cases hlast : j = typed.length
    · subst hlast
      simp only [List.getElem?_concat_length, Option.some.injEq] at hy
      simp [hy]
    · have hlt : j < typed.length := by
        have := (List.getElem?_eq_some_iff.mp hy).1
        omega
      rw [List.getElem?_append_left hlt] at hy
      rw [Function.update_of_ne (slot_ne hlt (by omega)).2]
      exact h.unread j y hj hy
  · intro j hj hlt
    have hstale : stale (typed ++ [x]) j = stale typed j := by
      simp only [stale]
      by_cases hb : bufferSize ≤ j
      · rw [List.getElem?_append_left (by omega)]
      · simp [hb]
    rw [hbuffer, h.write, hstale, Function.update_of_ne (slot_ne (by omega) (by omega)).1]
    exact h.spent j (by omega) hlt

theorem Ring.typeAll (h : Ring k typed consumed)
    (hroom : typed.length + str.length ≤ consumed + bufferSize) :
    Ring (k.keyboardData str) (typed ++ str) consumed := by
  induction str generalizing k typed with
  | nil => simpa [Kbd.keyboardData] using h
  | cons x str ih =>
    simp only [List.length_cons] at hroom
    have := ih (h.type (by omega) x) (by simp only [List.length_append, List.length_singleton]; omega)
    simpa [Kbd.keyboardData] using this

/-- The next unread character, and what reading it does: a 127 stays in its slot. -/
theorem Ring.take {k' : Kbd} (h : Ring k typed consumed) (hx : typed[consumed]? = some x)
    (hwrite : k'.indexWrite = k.indexWrite) (hread : k'.indexRead = next k.indexRead)
    (hbuffer : k'.keyboardBuffer =
      Function.update k.keyboardBuffer k.indexRead (if x = del then del else 0)) :
    Ring k' typed (consumed + 1) := by
  have hlt : consumed < typed.length := (List.getElem?_eq_some_iff.mp hx).1
  have hroom := h.room
  constructor
  · omega
  · omega
  · rw [hwrite, h.write]
  · rw [hread, h.read, next_mod]
  · intro j y hj hy
    have hjlt : j < typed.length := (List.getElem?_eq_some_iff.mp hy).1
    rw [hbuffer, h.read, Function.update_of_ne (slot_ne (by omega) (by omega)).1]
    exact h.unread j y (by omega) hy
  · intro j hj hjlt
    rw [hbuffer, h.read]
    by_cases hlast : j = consumed + bufferSize
    · have hslot : j % bufferSize = consumed % bufferSize := by rw [hlast, Nat.add_mod_right]
      have hback : j - bufferSize = consumed := by omega
      rw [hslot, Function.update_self]
      simp only [stale, hback, hx, Option.some.injEq, show bufferSize ≤ j by omega, true_and]
    · rw [Function.update_of_ne (slot_ne (by omega) (by omega)).1]
      exact h.spent j hj (by omega)

theorem Ring.first (h : Ring k typed consumed) (hx : typed[consumed]? = some x) :
    k.keyboardBuffer k.indexRead = x := by
  rw [h.read]
  exact h.unread consumed x (Nat.le_refl _) hx

theorem Ring.none_left (h : Ring k typed consumed) (hx : typed[consumed]? = none) :
    consumed = typed.length ∧ k.keyboardBuffer k.indexRead = stale typed consumed := by
  have hge := List.getElem?_eq_none_iff.mp hx
  have hle := h.le
  have hpos : 0 < bufferSize := by decide
  refine ⟨by omega, ?_⟩
  rw [h.read]
  exact h.spent consumed hge (by omega)

end Ring

section Lines

/-- How far a read has come: `text` is what it has made of the characters from `began` on, and the
rest of its line is ahead. -/
structure Line (r : Reading) (typed : List Byte) (began consumed : Nat) (text : List Byte) : Prop where
  length : text.length = r.charLength
  string : ∀ i x, text[i]? = some x → r.string i = x
  ahead : ∀ more, edit r.length (typed.drop began ++ more) [] =
    (edit r.length (typed.drop consumed ++ more) text).map fun p => (p.1, p.2 + (consumed - began))

theorem edit_full (h : text.length = n) (str : List Byte) : edit n str text = some (text, 0) := by
  cases str with
  | nil => simp [edit, h]
  | cons x str => simp [edit, h]

theorem edit_append {line : List Byte × Nat} (h : edit n str text = some line) :
    edit n (str ++ more) text = some line := by
  induction str generalizing text line with
  | nil =>
    simp only [edit] at h
    split at h
    · rename_i hfull
      rw [edit_full hfull, ← h]
    · cases h
  | cons x str ih =>
    simp only [List.cons_append, edit] at h ⊢
    split
    · rename_i hfull
      simpa [hfull] using h
    · rename_i hfull
      rw [if_neg hfull] at h
      split
      · rename_i hcr
        simpa [hcr] using h
      · rename_i hcr
        rw [if_neg hcr] at h
        obtain ⟨line', hline, rfl⟩ := Option.map_eq_some_iff.mp h
        rw [ih hline]
        rfl

variable {began : Nat}

theorem drop_next (hx : typed[consumed]? = some x) :
    typed.drop consumed ++ more = x :: (typed.drop (consumed + 1) ++ more) := by
  obtain ⟨hlt, rfl⟩ := List.getElem?_eq_some_iff.mp hx
  rw [List.drop_eq_getElem_cons hlt]
  rfl

theorem Line.read {r' : Reading} {text' : List Byte} (h : Line r typed began consumed text)
    (hle : began ≤ consumed) (hx : typed[consumed]? = some x) (hfull : r.charLength ≠ r.length)
    (hcr : x ≠ cr) (htext : text' = if x = del then text.dropLast else text ++ [x])
    (hn : r'.length = r.length) (hlen : text'.length = r'.charLength)
    (hstr : ∀ i y, text'[i]? = some y → r'.string i = y) :
    Line r' typed began (consumed + 1) text' := by
  refine ⟨hlen, hstr, fun more => ?_⟩
  have hne : text.length ≠ r.length := h.length ▸ hfull
  have hcount : consumed + 1 - began = 1 + (consumed - began) := by omega
  rw [hn, h.ahead, drop_next hx, edit, if_neg hne, if_neg hcr, Option.map_map, ← htext, hcount]
  congr 1
  funext p
  simp only [Function.comp_apply, Nat.add_assoc]

theorem Line.ends {count : Nat} (h : Line r typed began consumed text) (hle : began ≤ consumed)
    (he : edit r.length (typed.drop consumed) text = some (text, count)) :
    Read.Faithful typed ⟨began, consumed + count - began, r.length, r.charLength, r.string⟩ := by
  have hall := h.ahead []
  rw [List.append_nil, List.append_nil, he, Option.map_some] at hall
  have hcount : count + (consumed - began) = consumed + count - began := by omega
  rw [hcount] at hall
  exact ⟨text, hall, h.length.symm, h.string⟩

theorem Line.type (h : Line r typed began consumed text) (hle : began ≤ consumed)
    (hlt : consumed ≤ typed.length) (str : List Byte) : Line r (typed ++ str) began consumed text where
  length := h.length
  string := h.string
  ahead more := by
    rw [List.drop_append_of_le_length (by omega), List.drop_append_of_le_length hlt,
      List.append_assoc, List.append_assoc]
    exact h.ahead (str ++ more)

theorem Line.start (n : Nat) (string : Nat → Byte) : Line ⟨n, 0, string⟩ typed began began [] where
  length := rfl
  string := nofun
  ahead more := by simp

theorem Read.Faithful.type {read : Read} (h : read.Faithful typed) (hle : read.start ≤ typed.length)
    (str : List Byte) : read.Faithful (typed ++ str) := by
  obtain ⟨text, hedit, hret, hstr⟩ := h
  refine ⟨text, ?_, hret, hstr⟩
  rw [List.drop_append_of_le_length hle]
  exact edit_append hedit

end Lines

/-- The present run is as it should be. -/
structure Tracks (c : Console) : Prop where
  ring : Ring c.kbd c.typed c.consumed
  nonzero : 0 ∉ c.typed
  le : c.began ≤ c.consumed
  line : ∀ r, c.reader = some r → ∃ text, Line r c.typed c.began c.consumed text
  idle : c.reader = none → c.consumed = c.began
  consecutive : Consecutive 0 c.reads c.began
  faithful : ∀ r ∈ c.reads, r.Faithful c.typed ∧ r.start ≤ c.typed.length

/-- Never more than `bufferSize` characters are unread. -/
def InLimits (c : Console) (e : Event) : Prop :=
  match e with
  | .type str => c.typed.length + str.length ≤ c.consumed + bufferSize
  | _ => True

/-- A reader that finds nothing unread does not wait `bufferSize` characters behind a 127. -/
def Clear (c : Console) (e : Event) : Prop :=
  match e with
  | .turn => c.consumed = c.typed.length → ∀ r, c.reader = some r → r.charLength ≠ r.length →
      bufferSize ≤ c.consumed → c.typed[c.consumed - bufferSize]? ≠ some del
  | _ => True

def Step (P : Console → Event → Prop) (c d : Console) : Prop := ∃ e, P c e ∧ c.step e = some d

def Run (P : Console → Event → Prop) : Console → Prop := Reachable (· = Console.boot) (Step P)

theorem consecutive_append {a b : Nat} {reads : List Read} (h : Consecutive a reads b) (r : Read)
    (hr : r.start = b) : Consecutive a (reads ++ [r]) (b + r.count) := by
  induction reads generalizing a with
  | nil =>
    cases h
    exact ⟨hr, rfl⟩
  | cons x reads ih => exact ⟨h.1, ih h.2⟩

theorem boot_tracks : Tracks Console.boot := by
  constructor
  · constructor
    · exact Nat.le_refl _
    · exact Nat.zero_le _
    · rfl
    · rfl
    · intro j x _ hx
      simp [Console.boot] at hx
    · intro j _ hj
      have hj : ¬ bufferSize ≤ j := by
        simp only [Console.boot] at hj
        omega
      simp [Console.boot, stale, hj]
  · simp [Console.boot]
  · exact Nat.le_refl _
  · exact nofun
  · exact fun _ => rfl
  · rfl
  · exact nofun

theorem Tracks.type (h : Tracks c) (hstr : 0 ∉ str)
    (hroom : c.typed.length + str.length ≤ c.consumed + bufferSize) :
    Tracks { c with kbd := c.kbd.keyboardData str, typed := c.typed ++ str } := by
  constructor
  · exact h.ring.typeAll hroom
  · exact fun hm => (List.mem_append.mp hm).elim h.nonzero hstr
  · exact h.le
  · intro r hr
    obtain ⟨text, hline⟩ := h.line r hr
    exact ⟨text, hline.type h.le h.ring.le str⟩
  · exact h.idle
  · exact h.consecutive
  · intro r hr
    obtain ⟨hf, hle⟩ := h.faithful r hr
    exact ⟨hf.type hle str, by simp only [List.length_append]; omega⟩

/-- A read returns: it joins the others. -/
theorem Tracks.returns {kbd : Kbd} (count : Nat) (h : Tracks c)
    (hring : Ring kbd c.typed (c.consumed + count))
    (hline : Line r c.typed c.began c.consumed text)
    (he : edit r.length (c.typed.drop c.consumed) text = some (text, count)) :
    Tracks { c with
      kbd := kbd
      reader := none
      consumed := c.consumed + count
      began := c.consumed + count
      reads := c.reads ++
        [⟨c.began, c.consumed + count - c.began, r.length, r.charLength, r.string⟩] } := by
  have hle := h.le
  have hends := hline.ends hle he
  have hstart := h.ring.le
  constructor
  · exact hring
  · exact h.nonzero
  · exact Nat.le_refl _
  · exact nofun
  · exact fun _ => rfl
  · have hnext := consecutive_append h.consecutive
      ⟨c.began, c.consumed + count - c.began, r.length, r.charLength, r.string⟩ rfl
    have hend : c.began + (c.consumed + count - c.began) = c.consumed + count := by omega
    rw [hend] at hnext
    exact hnext
  · intro read hread
    rcases List.mem_append.mp hread with hold | hnew
    · exact h.faithful read hold
    · rw [List.mem_singleton.mp hnew]
      exact ⟨hends, by simp only; omega⟩

theorem Tracks.goesOn {kbd : Kbd} {r' : Reading} (text : List Byte) (h : Tracks c)
    (hring : Ring kbd c.typed (c.consumed + 1))
    (hline : Line r' c.typed c.began (c.consumed + 1) text) :
    Tracks { c with kbd := kbd, reader := some r', consumed := c.consumed + 1 } where
  ring := hring
  nonzero := h.nonzero
  le := Nat.le_succ_of_le h.le
  line r hr := by
    cases hr
    exact ⟨text, hline⟩
  idle := nofun
  consecutive := h.consecutive
  faithful := h.faithful

theorem turn_full (hfull : r.charLength = r.length) : c.turn r = { c with
    reader := none
    began := c.consumed
    reads := c.reads ++ [⟨c.began, c.consumed - c.began, r.length, r.charLength, r.string⟩] } := by
  simp [Console.turn, consRead, hfull]

theorem turn_waits (hfull : r.charLength ≠ r.length)
    (hz : c.kbd.keyboardBuffer c.kbd.indexRead = 0) : c.turn r = { c with reader := some r } := by
  simp [Console.turn, consRead, hfull, hz]

theorem turn_cr (hfull : r.charLength ≠ r.length)
    (hx : c.kbd.keyboardBuffer c.kbd.indexRead = cr) : c.turn r = { c with
      kbd := { c.kbd with indexRead := next c.kbd.indexRead }.put c.kbd.indexRead 0
      reader := none
      consumed := c.consumed + 1
      began := c.consumed + 1
      reads := c.reads ++
        [⟨c.began, c.consumed + 1 - c.began, r.length, r.charLength, r.string⟩] } := by
  simp [Console.turn, consRead, hfull, hx, Kbd.put, next_ne]

theorem turn_del (hfull : r.charLength ≠ r.length)
    (hx : c.kbd.keyboardBuffer c.kbd.indexRead = del) : c.turn r = { c with
      kbd := { c.kbd with indexRead := next c.kbd.indexRead }
      reader := some { r with
        string := Function.update r.string r.charLength 0
        charLength := r.charLength - 1 }
      consumed := c.consumed + 1 } := by
  simp [Console.turn, consRead, hfull, hx, next_ne]

theorem turn_plain (hfull : r.charLength ≠ r.length)
    (hx : c.kbd.keyboardBuffer c.kbd.indexRead = x) (h0 : x ≠ 0#8) (hcr : x ≠ cr) (hdel : x ≠ del) :
    c.turn r = { c with
      kbd := { c.kbd with indexRead := next c.kbd.indexRead }.put c.kbd.indexRead 0
      reader := some { r with
        string := Function.update r.string r.charLength x
        charLength := r.charLength + 1 }
      consumed := c.consumed + 1 } := by
  simp [Console.turn, consRead, hfull, hx, h0, hcr, hdel, Kbd.put, next_ne]

theorem Tracks.turn (h : Tracks c) (hr : c.reader = some r) (hclear : Clear c .turn) :
    Tracks (c.turn r) := by
  obtain ⟨text, hline⟩ := h.line r hr
  by_cases hfull : r.charLength = r.length
  · rw [turn_full hfull]
    exact h.returns 0 h.ring hline (edit_full (hline.length.trans hfull) _)
  cases hx : c.typed[c.consumed]? with
  | none =>
    obtain ⟨hend, hstale⟩ := h.ring.none_left hx
    have hz : stale c.typed c.consumed = 0 := by
      apply if_neg
      rintro ⟨hturn, hdel⟩
      exact hclear hend r hr hfull hturn hdel
    rw [turn_waits hfull (hstale.trans hz), ← hr]
    exact h
  | some x =>
    have hslot := h.ring.first hx
    by_cases hcr : x = cr
    · rw [turn_cr hfull (hslot.trans hcr)]
      apply h.returns 1 _ hline
      · rw [← List.append_nil (c.typed.drop c.consumed), drop_next hx, edit, if_pos hcr,
          if_neg (hline.length.trans_ne hfull)]
      · apply h.ring.take hx
        · rfl
        · rfl
        · rw [if_neg fun hd => del_ne_cr (hd.symm.trans hcr)]
          rfl
    by_cases hdel : x = del
    · rw [turn_del hfull (hslot.trans hdel)]
      apply h.goesOn text.dropLast
      · apply h.ring.take hx
        · rfl
        · rfl
        · rw [if_pos hdel, ← hdel, ← hslot, Function.update_eq_self]
      · apply hline.read h.le hx hfull hcr
        · exact (if_pos hdel).symm
        · rfl
        · simp [hline.length]
        · intro i y hy
          obtain ⟨hi, _⟩ := List.getElem?_eq_some_iff.mp hy
          rw [List.length_dropLast, hline.length] at hi
          rw [List.getElem?_dropLast] at hy
          split at hy
          · simp only [Function.update_of_ne (show i ≠ r.charLength by omega)]
            exact hline.string i y hy
          · cases hy
    · have h0 : x ≠ 0#8 := by
        rintro rfl
        exact h.nonzero (List.mem_of_getElem? hx)
      rw [turn_plain hfull hslot h0 hcr hdel]
      apply h.goesOn (text ++ [x])
      · apply h.ring.take hx
        · rfl
        · rfl
        · rw [if_neg hdel]
          rfl
      · apply hline.read h.le hx hfull hcr
        · exact (if_neg hdel).symm
        · rfl
        · simp [hline.length]
        · intro i y hy
          by_cases hi : i = r.charLength
          · subst hi
            rw [← hline.length, List.getElem?_concat_length] at hy
            simpa using hy
          · have hlt : i < text.length := by
              have hi' := (List.getElem?_eq_some_iff.mp hy).1
              have hlen := hline.length
              simp only [List.length_append, List.length_singleton] at hi'
              omega
            rw [List.getElem?_append_left hlt] at hy
            simp only [Function.update_of_ne hi]
            exact hline.string i y hy

theorem step_type (h : 0 ∉ str) : c.step (.type str) =
    some { c with kbd := c.kbd.keyboardData str, typed := c.typed ++ str } := if_neg h

theorem Tracks.step {e : Event} (h : Tracks c) (hlimits : InLimits c e) (hclear : Clear c e)
    (hs : c.step e = some d) : Tracks d := by
  cases e with
  | type str =>
    by_cases hstr : 0 ∈ str
    · cases (show c.step (.type str) = none from if_pos hstr).symm.trans hs
    · cases (step_type hstr).symm.trans hs
      exact h.type hstr hlimits
  | call length string =>
    cases hr : c.reader with
    | some r =>
      simp [Console.step, hr] at hs
    | none =>
      simp only [Console.step, hr, Option.some.injEq] at hs
      subst hs
      have hline : Line ⟨length, 0, string⟩ c.typed c.began c.consumed [] :=
        h.idle hr ▸ Line.start length string
      constructor
      · exact h.ring
      · exact h.nonzero
      · exact h.le
      · intro r hr
        cases hr
        exact ⟨[], hline⟩
      · exact nofun
      · exact h.consecutive
      · exact h.faithful
  | turn =>
    cases hr : c.reader with
    | none =>
      simp [Console.step, hr] at hs
    | some r =>
      simp only [Console.step, hr, Option.some.injEq] at hs
      exact hs ▸ h.turn hr hclear

/-- In every run each read returns the next typed line, edited, and a reader waits only when
nothing is unread. -/
theorem reads_typed_lines (h : Run (fun c e => InLimits c e ∧ Clear c e) c) :
    Consecutive 0 c.reads c.began ∧ (∀ r ∈ c.reads, r.Faithful c.typed) ∧
      (c.kbd.keyboardBuffer c.kbd.indexRead = 0 → c.consumed = c.typed.length) := by
  have ht : Tracks c := by
    apply h.invariant
    · rintro _ rfl
      exact boot_tracks
    · rintro c d hc ⟨e, ⟨hlimits, hclear⟩, hs⟩
      exact hc.step hlimits hclear hs
  refine ⟨ht.consecutive, fun r hr => (ht.faithful r hr).1, fun hz => ?_⟩
  cases hx : c.typed[c.consumed]? with
  | none => exact (ht.ring.none_left hx).1
  | some x =>
    have h0 : x = 0 := (ht.ring.first hx).symm.trans hz
    exact absurd (h0 ▸ List.mem_of_getElem? hx) ht.nonzero

/-- A line with a character erased. -/
theorem reads_typed_lines_one : ∃ c : Console, c.typed = [97, 98, del, cr] ∧
    c.reads.map (fun r => (r.start, r.count, r.ret)) = [(0, 4, 1)] ∧
    ∀ r ∈ c.reads, r.Faithful c.typed := by
  have h₀ : Run (fun c e => InLimits c e ∧ Clear c e) Console.boot := Reachable.start rfl
  have h₁ := h₀.next ⟨.call 10 fun _ => 0, ⟨trivial, trivial⟩, rfl⟩
  have h₂ := h₁.next ⟨.type [97, 98, del, cr], ⟨show 0 + 4 ≤ 0 + 1000 by decide, trivial⟩, rfl⟩
  have h₃ := h₂.next ⟨.turn, ⟨trivial, fun _ _ _ _ h => absurd h (by decide)⟩, rfl⟩
  have h₄ := h₃.next ⟨.turn, ⟨trivial, fun _ _ _ _ h => absurd h (by decide)⟩, rfl⟩
  have h₅ := h₄.next ⟨.turn, ⟨trivial, fun _ _ _ _ h => absurd h (by decide)⟩, rfl⟩
  have h₆ := h₅.next ⟨.turn, ⟨trivial, fun _ _ _ _ h => absurd h (by decide)⟩, rfl⟩
  exact ⟨_, rfl, rfl, (reads_typed_lines h₆).2.1⟩

section Stale

def filling (n : Nat) : List Byte := del :: List.replicate n 97

theorem filling_length (n : Nat) : (filling n).length = n + 1 := by
  simp [filling]

theorem filling_char {i n : Nat} (hi : i < n) : (filling n)[i + 1]? = some 97 := by
  simp [filling, hi]

theorem filling_zero (n : Nat) : (0 : Byte) ∉ filling n := by
  simp [filling, Ne.symm del_ne_zero]

/-- A reader of a whole buffer has read the 127 and the first of the characters, as many as `i` says
in all. -/
structure Filled (str : List Byte) (c : Console) (r : Reading) (i : Nat) : Prop where
  run : Run InLimits c
  tracks : Tracks c
  typed : c.typed = str
  consumed : c.consumed = i
  reader : c.reader = some r
  length : r.length = bufferSize
  charLength : r.charLength = i - 1
  began : c.began = 0

theorem filled_zero (hstr : 0 ∉ str) (hlen : str.length ≤ bufferSize) :
    ∃ c r, Filled str c r 0 := by
  have hrun := (Reachable.start rfl : Run InLimits Console.boot).next
    ⟨.call bufferSize fun _ => 0, trivial, rfl⟩
  have htracks := boot_tracks.step (e := .call bufferSize fun _ => 0) trivial trivial rfl
  have hlimits : InLimits { Console.boot with reader := some ⟨bufferSize, 0, fun _ => 0⟩ }
      (.type str) := by
    change 0 + str.length ≤ 0 + bufferSize
    omega
  have hrun' := hrun.next ⟨.type str, hlimits, step_type hstr⟩
  have htracks' := htracks.step hlimits trivial (step_type hstr)
  exact ⟨_, _, hrun', htracks', List.nil_append str, rfl, rfl, rfl, rfl, rfl⟩

theorem Filled.turn {i : Nat} (h : Filled (filling (bufferSize - 1)) c r i) (hi : i < bufferSize) :
    ∃ r', Filled (filling (bufferSize - 1)) (c.turn r) r' (i + 1) := by
  have hfull : r.charLength ≠ r.length := by
    rw [h.charLength, h.length]
    omega
  have hlt : c.consumed < c.typed.length := by
    rw [h.typed, h.consumed, filling_length]
    omega
  have htracks := h.tracks.turn h.reader fun hend => absurd hend (Nat.ne_of_lt hlt)
  have hrun := h.run.next ⟨.turn, trivial, show c.step .turn = some (c.turn r) by
    simp [Console.step, h.reader]⟩
  cases i with
  | zero =>
    have hx : c.typed[c.consumed]? = some del := by
      rw [h.typed, h.consumed]
      rfl
    rw [turn_del hfull (h.tracks.ring.first hx)] at hrun htracks ⊢
    refine ⟨_, hrun, htracks, h.typed, ?_, rfl, h.length, ?_, h.began⟩
    · exact congrArg (· + 1) h.consumed
    · simp [h.charLength]
  | succ i =>
    have hx : c.typed[c.consumed]? = some 97 := by
      rw [h.typed, h.consumed]
      exact filling_char (by omega)
    rw [turn_plain hfull (h.tracks.ring.first hx) (by decide) (by decide) (by decide)] at hrun htracks ⊢
    refine ⟨_, hrun, htracks, h.typed, ?_, rfl, h.length, ?_, h.began⟩
    · exact congrArg (· + 1) h.consumed
    · simp [h.charLength]

theorem filled (i : Nat) (hi : i ≤ bufferSize) : ∃ c r, Filled (filling (bufferSize - 1)) c r i := by
  induction i with
  | zero =>
    apply filled_zero (filling_zero _)
    rw [filling_length]
    decide
  | succ i ih =>
    obtain ⟨c, r, h⟩ := ih (by omega)
    obtain ⟨r', h'⟩ := h.turn (by omega)
    exact ⟨_, r', h'⟩

theorem edit_plain (hx : x ≠ cr) (hd : x ≠ del) (hn : text.length + i ≤ n) :
    edit n (List.replicate i x ++ str) text =
      (edit n str (text ++ List.replicate i x)).map fun p => (p.1, p.2 + i) := by
  induction i generalizing text with
  | zero => simp
  | succ i ih =>
    have hfull : text.length ≠ n := by omega
    have hlen : (text ++ [x]).length + i ≤ n := by
      simp only [List.length_append, List.length_singleton]
      omega
    rw [List.replicate_succ, List.cons_append, edit, if_neg hfull, if_neg hx, if_neg hd, ih hlen,
      Option.map_map, List.append_assoc, List.singleton_append]
    congr 1

theorem edit_last (hx : x ≠ cr) (hd : x ≠ del) (hn : text.length + 1 = n) :
    edit n (x :: str) text = some (text ++ [x], 1) := by
  have hfull : text.length ≠ n := by omega
  rw [edit, if_neg hfull, if_neg hx, if_neg hd, edit_full (by simpa using hn)]
  rfl

theorem edit_filling : ∃ text, edit bufferSize (filling (bufferSize - 1) ++ [98, 99, cr]) [] =
    some (text, bufferSize + 1) := by
  have hlen : (List.replicate (bufferSize - 1) (97 : Byte)).length + 1 = bufferSize := by
    rw [List.length_replicate]
    decide
  have hlast : edit bufferSize (98 :: [99, cr]) (List.replicate (bufferSize - 1) 97) =
      some (List.replicate (bufferSize - 1) 97 ++ [98], 1) :=
    edit_last (by decide) (by decide) hlen
  have hplain : edit bufferSize (List.replicate (bufferSize - 1) 97 ++ [98, 99, cr]) [] =
      (edit bufferSize [98, 99, cr] ([] ++ List.replicate (bufferSize - 1) 97)).map
        fun p => (p.1, p.2 + (bufferSize - 1)) := by
    apply edit_plain
    · decide
    · decide
    · simp
  rw [List.nil_append, hlast] at hplain
  refine ⟨List.replicate (bufferSize - 1) 97 ++ [98], ?_⟩
  have hcount : 1 + (bufferSize - 1) + 1 = bufferSize + 1 := by decide
  rw [filling, List.cons_append, edit, if_neg (by decide), if_neg del_ne_cr, if_pos rfl,
    List.dropLast_nil, hplain]
  simp only [Option.map_some, hcount]

theorem typed_three (hw : k.indexWrite = 0) :
    (k.keyboardData [98, 99, cr]).keyboardBuffer 1 = 99 ∧
      (k.keyboardData [98, 99, cr]).keyboardBuffer 2 = cr ∧
      (k.keyboardData [98, 99, cr]).indexRead = k.indexRead := by
  obtain ⟨hb₁, hw₁, hr₁⟩ := typeChar_slots k 98
  obtain ⟨hb₂, hw₂, hr₂⟩ := typeChar_slots (k.typeChar 98) 99
  obtain ⟨hb₃, _, hr₃⟩ := typeChar_slots ((k.typeChar 98).typeChar 99) cr
  rw [hw₂, hw₁, hw, hb₂, hw₁, hw] at hb₃
  refine ⟨?_, ?_, hr₃.trans (hr₂.trans hr₁)⟩
  · change (((k.typeChar 98).typeChar 99).typeChar cr).keyboardBuffer 1 = 99
    rw [hb₃]
    rfl
  · change (((k.typeChar 98).typeChar 99).typeChar cr).keyboardBuffer 2 = cr
    rw [hb₃]
    rfl

/-- The reader does not wait behind the whole buffer but takes the old 127 for a new character,
and the first character that is typed then is lost. -/
theorem typed_character_lost : ∃ c : Console, Run InLimits c ∧ ∃ r ∈ c.reads, ¬ r.Faithful c.typed := by
  obtain ⟨c, r, h⟩ := filled bufferSize (Nat.le_refl _)
  have hfull : r.charLength ≠ r.length := by
    rw [h.charLength, h.length]
    decide
  have hend : c.typed[c.consumed]? = none := by
    apply List.getElem?_eq_none
    rw [h.typed, h.consumed, filling_length]
    decide
  obtain ⟨_, hstale⟩ := h.tracks.ring.none_left hend
  have hdel : stale c.typed c.consumed = del := by
    rw [h.typed, h.consumed]
    exact if_pos ⟨Nat.le_refl _, rfl⟩
  have hwrite : c.kbd.indexWrite = 0 := by
    rw [h.tracks.ring.write, h.typed, filling_length]
    decide
  have hread : c.kbd.indexRead = 0 := by
    rw [h.tracks.ring.read, h.consumed]
    decide
  have hrun₁ := h.run.next ⟨.turn, trivial, show c.step .turn = some (c.turn r) by
    simp [Console.step, h.reader]⟩
  rw [turn_del hfull (hstale.trans hdel)] at hrun₁
  have hlimits : c.typed.length + 3 ≤ c.consumed + 1 + bufferSize := by
    rw [h.typed, h.consumed, filling_length]
    decide
  have hrun₂ := hrun₁.next ⟨.type [98, 99, cr], hlimits, step_type (by decide)⟩
  obtain ⟨hslot₁, hslot₂, hread₂⟩ :=
    typed_three (k := { c.kbd with indexRead := next c.kbd.indexRead }) hwrite
  have hread₃ : next c.kbd.indexRead = 1 := by
    rw [hread]
    decide
  generalize hk : Kbd.keyboardData [98, 99, cr] { c.kbd with indexRead := next c.kbd.indexRead } = k
    at hslot₁ hslot₂ hread₂ hrun₂
  rw [hread₃] at hread₂
  have hlen : r.charLength - 1 ≠ r.length ∧ r.charLength - 1 + 1 ≠ r.length := by
    rw [h.charLength, h.length]
    decide
  have hrun₃ := hrun₂.next ⟨.turn, trivial, rfl⟩
  have hslot₁' : k.keyboardBuffer k.indexRead = 99 := hread₂ ▸ hslot₁
  rw [turn_plain hlen.1 hslot₁' (by decide) (by decide) (by decide)] at hrun₃
  have hrun₄ := hrun₃.next ⟨.turn, trivial, rfl⟩
  have hslot₂' : ({ k with indexRead := next k.indexRead }.put k.indexRead 0).keyboardBuffer
      (next k.indexRead) = cr := by
    rw [hread₂]
    exact hslot₂
  rw [turn_cr hlen.2 hslot₂'] at hrun₄
  refine ⟨_, hrun₄, _, List.mem_append_right _ (List.mem_singleton_self _), ?_⟩
  rintro ⟨text, hedit, _⟩
  obtain ⟨line, hline⟩ := edit_filling
  simp only [h.began, h.typed, h.length, h.consumed, List.drop_zero] at hedit
  rw [hline] at hedit
  have hcount := congrArg Prod.snd (Option.some.inj hedit)
  simp only at hcount
  omega

end Stale

end DominOS.Keyboard
