import DominOS.DoprntItems
import DominOS.CgaSpec

/-! printf.c: what reaches the console through the buffer of `printf`. -/
namespace DominOS.Printf
open Doprnt
open Cga (Console Terminal)
variable {σ : Type}

def bufmax : Nat := 128

/-- `printf_state`, and the console behind it. -/
structure State (σ : Type) where
  buf : Vector Byte bufmax
  index : Nat
  console : σ

section Buffer
variable (putbytes : List Byte → σ → Option σ)

def flush (s : State σ) : Option (State σ) :=
  (putbytes (s.buf.toList.take s.index) s.console).map fun k => { s with index := 0, console := k }

def printfChar (c : Byte) (s : State σ) : Option (State σ) :=
  if h : c = 0 ∨ c = ch '\n' ∨ bufmax ≤ s.index then do
    let s ← flush putbytes s
    let s := { s with buf := s.buf.set 0 c (by decide) }
    (putbytes (s.buf.toList.take 1) s.console).map fun k => { s with console := k }
  else some { s with buf := s.buf.set s.index c (by simp only [not_or, not_le] at h; exact h.2.2), index := s.index + 1 }

def printAll : List Byte → State σ → Option (State σ)
  | [], s => some s
  | c :: out, s => (printfChar putbytes c s).bind (printAll out)

def vprintf (fmt : List Byte) (args : List Arg) (buf : Vector Byte bufmax) (k : σ) : Option σ := do
  let out ← doprnt 0 fmt args
  let s ← printAll putbytes out ⟨buf, 0, k⟩
  let s ← if s.index ≠ 0 then flush putbytes s else some s
  some s.console

def putchar (c : Byte) (k : σ) : Option σ := putbytes [c] k

def puts : List Byte → σ → Option σ
  | [], k => putchar putbytes (ch '\n') k
  | c :: s, k => if c = 0 then putchar putbytes (ch '\n') k else (putchar putbytes c k).bind (puts s)

end Buffer

def visible (out : List Byte) : List Byte := out.filter (· ≠ 0)

structure Appends (putbytes : List Byte → σ → Option σ) : Prop where
  append : ∀ a b k, 0 ∉ a → 0 ∉ b → (putbytes a k).bind (putbytes b) = putbytes (a ++ b) k
  nul : ∀ k, putbytes [0] k = some k

theorem zero_not_mem_visible (out : List Byte) : 0 ∉ visible out := by
  simp [visible]

theorem visible_one {c : Byte} (hc : c ≠ 0) : visible [c] = [c] :=
  List.filter_cons_of_pos (by simpa using hc)

theorem visible_nul : visible [0] = [] := rfl

theorem zero_not_mem_one {c : Byte} (hc : c ≠ 0) : 0 ∉ [c] := by
  simpa using hc.symm

theorem visible_cons (c : Byte) (out : List Byte) : visible (c :: out) = visible [c] ++ visible out := by
  unfold visible
  rw [← List.filter_append, List.singleton_append]

namespace State
variable {putbytes : List Byte → σ → Option σ} {s s' : State σ} {c : Byte} {out : List Byte}

def pending (s : State σ) : List Byte := s.buf.toList.take s.index

def Clean (s : State σ) : Prop := 0 ∉ s.pending

def Done (putbytes : List Byte → σ → Option σ) (s : State σ) : Prop :=
  s.index = 0 → putbytes [] s.console = some s.console

def settle (putbytes : List Byte → σ → Option σ) (s : State σ) : Option σ :=
  putbytes s.pending s.console

theorem Appends.idle (h : Appends putbytes) {a : List Byte} {k k' : σ} (ha : 0 ∉ a)
    (hk : putbytes a k = some k') : putbytes [] k' = some k' := by
  have := h.append a [] k ha (by simp)
  rwa [hk, Option.bind_some, List.append_nil, hk] at this

theorem pending_push (hlt : s.index < bufmax) :
    pending { s with buf := s.buf.set s.index c hlt, index := s.index + 1 } = s.pending ++ [c] := by
  have hlen : s.index < (s.buf.toList.set s.index c).length := by simpa using hlt
  unfold pending
  dsimp only
  rw [Vector.toList_set, ← List.take_append_getElem hlen, List.take_set, List.getElem_set_self]
  congr 1
  apply List.set_eq_of_length_le
  simp

theorem printfChar_flush (hc : c = 0 ∨ c = ch '\n' ∨ bufmax ≤ s.index) :
    printfChar putbytes c s = (s.settle putbytes).bind fun k =>
      (putbytes [c] k).map fun k => ⟨s.buf.set 0 c (by decide), 0, k⟩ := by
  have hone : (s.buf.set 0 c (by decide)).toList.take 1 = [c] := by
    have hlen : 0 < (s.buf.toList.set 0 c).length := by
      rw [List.length_set, Vector.length_toList]
      decide
    rw [Vector.toList_set, ← List.take_append_getElem hlen, List.getElem_set_self, List.take_zero]
    rfl
  unfold printfChar
  rw [dif_pos hc]
  unfold flush settle
  change (Option.map _ (putbytes s.pending s.console)).bind _ = _
  cases putbytes s.pending s.console with
  | none => rfl
  | some k =>
    simp only [Option.map_some, Option.bind_some, hone]

theorem printfChar_keep (hc : ¬(c = 0 ∨ c = ch '\n' ∨ bufmax ≤ s.index)) (hlt : s.index < bufmax) :
    printfChar putbytes c s = some { s with buf := s.buf.set s.index c hlt, index := s.index + 1 } := by
  unfold printfChar
  rw [dif_neg hc]

theorem settle_printfChar (h : Appends putbytes) (hs : s.Clean) :
    (printfChar putbytes c s).bind (settle putbytes) =
      (s.settle putbytes).bind (putbytes (visible [c])) := by
  by_cases hc : c = 0 ∨ c = ch '\n' ∨ bufmax ≤ s.index
  · rw [printfChar_flush hc]
    cases s.settle putbytes with
    | none => rfl
    | some k =>
      rw [Option.bind_some, Option.bind_some]
      by_cases h0 : c = 0
      · rw [h0, h.nul, visible_nul]
        rfl
      · have happ := h.append [c] [] k (zero_not_mem_one h0) (by simp)
        rw [List.append_nil] at happ
        rw [visible_one h0]
        cases hput : putbytes [c] k with
        | none => rfl
        | some k' => rwa [hput] at happ
  · have hc' := hc
    simp only [not_or, not_le] at hc'
    rw [printfChar_keep hc hc'.2.2, Option.bind_some, visible_one hc'.1]
    unfold settle
    rw [pending_push hc'.2.2, h.append _ _ _ hs (zero_not_mem_one hc'.1)]

theorem Clean.printfChar (h : Appends putbytes) (hs : s.Clean)
    (heq : Printf.printfChar putbytes c s = some s') : s'.Clean ∧ s'.Done putbytes := by
  by_cases hc : c = 0 ∨ c = ch '\n' ∨ bufmax ≤ s.index
  · rw [printfChar_flush hc] at heq
    obtain ⟨k, hk, heq⟩ := Option.bind_eq_some_iff.mp heq
    obtain ⟨k', hk', rfl⟩ := Option.map_eq_some_iff.mp heq
    refine ⟨by simp [Clean, pending], fun _ => ?_⟩
    by_cases h0 : c = 0
    · rw [h0, h.nul] at hk'
      cases hk'
      exact Appends.idle h hs hk
    · exact Appends.idle h (zero_not_mem_one h0) hk'
  · have hc' := hc
    simp only [not_or, not_le] at hc'
    rw [printfChar_keep hc hc'.2.2] at heq
    cases heq
    refine ⟨?_, fun h0 => absurd h0 (by simp)⟩
    unfold Clean
    rw [pending_push hc'.2.2, List.mem_append, not_or]
    exact ⟨hs, zero_not_mem_one hc'.1⟩

theorem settle_printAll (h : Appends putbytes) (hs : s.Clean) (out : List Byte) :
    (printAll putbytes out s).bind (settle putbytes) =
      (s.settle putbytes).bind (putbytes (visible out)) := by
  induction out generalizing s with
  | nil =>
    have happ := h.append s.pending [] s.console hs (by simp)
    rw [List.append_nil] at happ
    exact happ.symm
  | cons c out ih =>
    have hstep := settle_printfChar (c := c) h hs
    have hrest : (printAll putbytes (c :: out) s).bind (settle putbytes) =
        ((printfChar putbytes c s).bind (settle putbytes)).bind (putbytes (visible out)) := by
      rw [printAll]
      cases hchar : printfChar putbytes c s with
      | none => rfl
      | some s₁ => exact ih (hs.printfChar h hchar).1
    rw [hrest, hstep, visible_cons c out]
    unfold settle
    cases putbytes s.pending s.console with
    | none => rfl
    | some k =>
      rw [Option.bind_some, Option.bind_some, h.append _ _ _ (zero_not_mem_visible _)
        (zero_not_mem_visible _)]

theorem printAll_done (h : Appends putbytes) (hs : s.Clean) (hout : out ≠ [])
    (heq : printAll putbytes out s = some s') : s'.Done putbytes := by
  induction out generalizing s with
  | nil => exact absurd rfl hout
  | cons c out ih =>
    rw [printAll] at heq
    obtain ⟨s₁, hchar, heq⟩ := Option.bind_eq_some_iff.mp heq
    have hnext := hs.printfChar h hchar
    by_cases hlast : out = []
    · subst hlast
      cases heq
      exact hnext.2
    · exact ih hnext.1 hlast heq

end State

variable {putbytes : List Byte → σ → Option σ} {fmt out : List Byte} {args : List Arg}

/-- The buffer is never overrun, and it cannot be seen: a text reaches the console as if it were
given at once, without its NULs. -/
theorem vprintf_eq (h : Appends putbytes) (hout : doprnt 0 fmt args = some out)
    (buf : Vector Byte bufmax) (k : σ) : vprintf putbytes fmt args buf k =
      if out = [] then some k else putbytes (visible out) k := by
  have hclean : (State.mk buf 0 k).Clean := by simp [State.Clean, State.pending]
  have hall := State.settle_printAll h hclean out
  have hfirst : (State.mk buf 0 k).settle putbytes = putbytes [] k := by
    unfold State.settle State.pending
    rw [List.take_zero]
  rw [hfirst, h.append _ _ _ (by simp) (zero_not_mem_visible out), List.nil_append] at hall
  unfold vprintf
  simp only [hout, Option.bind_eq_bind, Option.bind_some]
  by_cases hempty : out = []
  · subst hempty
    rfl
  · rw [if_neg hempty, ← hall]
    cases hrun : printAll putbytes out ⟨buf, 0, k⟩ with
    | none => rfl
    | some s =>
      have hdone := State.printAll_done h hclean hempty hrun
      simp only [Option.bind_some]
      by_cases hindex : s.index = 0
      · have hpending : s.pending = [] := by
          unfold State.pending
          rw [hindex, List.take_zero]
        rw [if_neg (by simpa using hindex), State.settle, hpending, hdone hindex]
      · rw [if_pos hindex]
        change (Option.map _ (s.settle putbytes)).bind _ = _
        cases s.settle putbytes <;> rfl

theorem puts_eq (h : Appends putbytes) (s : List Byte) (k : σ) :
    puts putbytes s k = putbytes (cString s ++ [ch '\n']) k := by
  have hnl : ch '\n' ≠ 0 := by decide
  induction s generalizing k with
  | nil => rfl
  | cons c s ih =>
    unfold puts putchar
    by_cases h0 : c = 0
    · rw [if_pos h0, h0]
      rfl
    · have hclean : 0 ∉ cString s ++ [ch '\n'] := by
        rw [List.mem_append, not_or]
        refine ⟨fun hmem => ?_, zero_not_mem_one hnl⟩
        simpa using List.mem_takeWhile_imp hmem
      have hcons : cString (c :: s) = c :: cString s := cString_cons h0 s
      have happ := h.append [c] _ k (zero_not_mem_one h0) hclean
      rw [if_neg h0, hcons]
      refine Eq.trans ?_ happ
      congr 1
      funext k'
      exact ih k'

/-! The console of the kernel. -/

def atPorts (ports : Byte → Byte) (k : Console) : Console := { k with ports := ports }

section Ports
variable (ports : Byte → Byte) (k : Console)

theorem draw_ports (f : ByteMemory.Memory → Option ByteMemory.Memory) :
    (atPorts ports k).draw f = (k.draw f).map (atPorts ports) := by
  unfold Console.draw
  rw [Option.map_map]
  rfl

theorem map_ports {f : Console → Console} (hf : ∀ k, f (atPorts ports k) = atPorts ports (f k))
    {o o' : Option Console} (h : o' = o.map (atPorts ports)) :
    o'.map f = (o.map f).map (atPorts ports) := by
  rw [h, Option.map_map, Option.map_map]
  congr 1
  funext k
  exact hf k

theorem bind_ports {f : Console → Option Console}
    (hf : ∀ k, f (atPorts ports k) = (f k).map (atPorts ports)) {o o' : Option Console}
    (h : o' = o.map (atPorts ports)) : o'.bind f = (o.bind f).map (atPorts ports) := by
  rw [h]
  cases o with
  | none => rfl
  | some k => exact hf k

theorem scrollScreen_ports :
    (atPorts ports k).scrollScreen = k.scrollScreen.map (atPorts ports) :=
  bind_ports ports (fun k => draw_ports ports k _) (draw_ports ports k _)

theorem scrollCase_ports : (atPorts ports k).scrollCase = k.scrollCase.map (atPorts ports) := by
  have hline : (atPorts ports k).curLine = k.curLine := rfl
  unfold Console.scrollCase
  rw [hline]
  by_cases hlast : k.curLine = 25
  · rw [if_pos hlast, if_pos hlast]
    refine map_ports ports ?_ (scrollScreen_ports ports k)
    intro k
    rfl
  · rw [if_neg hlast, if_neg hlast]
    rfl

theorem ite_ports {p : Prop} [Decidable p] {a b a' b' : Option Console}
    (ha : a' = a.map (atPorts ports)) (hb : b' = b.map (atPorts ports)) :
    (if p then a' else b') = (if p then a else b).map (atPorts ports) := by
  split
  · exact ha
  · exact hb

theorem putcharCase_ports (c : Byte) :
    (atPorts ports k).putcharCase c = (k.putcharCase c).map (atPorts ports) := by
  have hcolumn (k : Console) : (atPorts ports k).curColumn = k.curColumn := rfl
  unfold Console.putcharCase
  refine ite_ports ports ?_ (ite_ports ports rfl (ite_ports ports rfl (ite_ports ports ?_
    (ite_ports ports rfl (ite_ports ports ?_ ?_)))))
  · rw [hcolumn]
    split <;> rfl
  · refine map_ports ports ?_ (draw_ports ports k _)
    intro k
    rfl
  · have hline : (atPorts ports k).curLine = k.curLine := rfl
    rw [hcolumn, hline]
    by_cases hzero : k.curColumn ≠ 0
    · rw [if_pos hzero, if_pos hzero]
      exact draw_ports ports { k with curColumn := k.curColumn - 1 } _
    · rw [if_neg hzero, if_neg hzero]
      by_cases htop : 0 < k.curLine
      · rw [if_pos htop, if_pos htop]
        exact draw_ports ports { k with curLine := k.curLine - 1, curColumn := 79 } _
      · rw [if_neg htop, if_neg htop]
        exact draw_ports ports k _
  · refine map_ports ports (fun k => ?_) (draw_ports ports k _)
    rw [hcolumn]
    split <;> rfl

theorem consolePutchar_ports (c : Byte) :
    (atPorts ports k).consolePutchar c = (k.consolePutchar c).map (atPorts ports) := by
  unfold Console.consolePutchar
  rw [putcharCase_ports, Option.bind_map]
  cases k.putcharCase c with
  | none => rfl
  | some k' => exact scrollCase_ports ports k'

theorem putAll_ports (str : List Byte) :
    (atPorts ports k).putAll str = (k.putAll str).map (atPorts ports) := by
  induction str generalizing k with
  | nil => rfl
  | cons c str ih =>
    unfold Console.putAll
    rw [consolePutchar_ports, Option.bind_map]
    cases k.consolePutchar c with
    | none => rfl
    | some k' => exact ih k'

end Ports

theorem putAll_keeps_ports {str : List Byte} {k k' : Console} (h : k.putAll str = some k') :
    k'.ports = k.ports := by
  have hports := putAll_ports k.ports k str
  have hself : atPorts k.ports k = k := rfl
  rw [hself, h, Option.map_some, Option.some.injEq] at hports
  rw [hports]
  rfl

theorem putCursor_ports {k k' : Console} (h : k'.ports = k.ports) (line column line' column' : Byte) :
    (atPorts (k.putCursor line column).ports k').putCursor line' column' =
      k'.putCursor line' column' := by
  unfold Console.putCursor atPorts
  dsimp only
  congr 1
  funext x
  by_cases hhigh : x = Cga.cursorWriteHigh
  · rw [hhigh, Function.update_self, Function.update_self]
  · rw [Function.update_of_ne hhigh, Function.update_of_ne hhigh]
    by_cases hlow : x = Cga.cursorWriteLow
    · rw [hlow, Function.update_self, Function.update_self]
    · rw [Function.update_of_ne hlow, Function.update_of_ne hlow, Function.update_of_ne hhigh,
        Function.update_of_ne hlow, h]

theorem consWrite_eq {str : List Byte} (h : 0 ∉ str) (k : Console) :
    k.consWrite str = (k.putAll str).map fun k => k.putCursor k.curLine k.curColumn := by
  unfold Console.consWrite
  rw [if_neg (by simp [Cga.strnlen_eq h])]

theorem putAll_append (a b : List Byte) (k : Console) :
    k.putAll (a ++ b) = (k.putAll a).bind (Console.putAll b) := by
  induction a generalizing k with
  | nil => rfl
  | cons c a ih =>
    change (k.consolePutchar c).bind (Console.putAll (a ++ b)) =
      ((k.consolePutchar c).bind (Console.putAll a)).bind (Console.putAll b)
    cases k.consolePutchar c with
    | none => rfl
    | some k' => exact ih k'

def consolePutbytes (bytes : List Byte) (k : Console) : Option Console := k.consWrite bytes

theorem consolePutbytes_appends : Appends consolePutbytes where
  append a b k ha hb := by
    have hab : 0 ∉ a ++ b := by
      rw [List.mem_append, not_or]
      exact ⟨ha, hb⟩
    have hcongr : consolePutbytes b = fun k => (k.putAll b).map
        fun k => k.putCursor k.curLine k.curColumn := by
      funext k
      exact consWrite_eq hb k
    unfold consolePutbytes at hcongr ⊢
    rw [consWrite_eq hab, putAll_append, consWrite_eq ha, hcongr]
    cases k.putAll a with
    | none => rfl
    | some k₁ =>
      have hports := putAll_ports (k₁.putCursor k₁.curLine k₁.curColumn).ports k₁ b
      rw [Option.map_some, Option.bind_some, Option.bind_some]
      have hsame : k₁.putCursor k₁.curLine k₁.curColumn =
          atPorts (k₁.putCursor k₁.curLine k₁.curColumn).ports k₁ := rfl
      rw [hsame, hports]
      cases hlast : k₁.putAll b with
      | none => rfl
      | some k₂ => exact congrArg some (putCursor_ports (putAll_keeps_ports hlast) _ _ _ _)
  nul k := by
    unfold consolePutbytes Console.consWrite
    rw [if_pos (by decide)]

/-- On the console `printf` is one `cons_write` of what `_doprnt` puts out without its NULs, and the
terminal shows it. -/
theorem printf_shows (hout : doprnt 0 fmt args = some out) (buf : Vector Byte bufmax) (k : Console)
    (hk : k.Inside) :
    vprintf consolePutbytes fmt args buf k =
        (if out = [] then some k else k.consWrite (visible out)) ∧
      ∃ k', vprintf consolePutbytes fmt args buf k = some k' ∧ ∃ hk' : k'.Inside,
        k'.terminal hk' = (visible out).foldl (Terminal.put Cga.drawn) (k.terminal hk) := by
  have heq : vprintf consolePutbytes fmt args buf k =
      if out = [] then some k else k.consWrite (visible out) :=
    vprintf_eq consolePutbytes_appends hout buf k
  refine ⟨heq, ?_⟩
  rw [heq]
  by_cases hempty : out = []
  · subst hempty
    exact ⟨k, rfl, hk, rfl⟩
  · rw [if_neg hempty]
    have hnul : Cga.NulFree [.consWrite (visible out)] := by
      intro str hstr
      obtain rfl : str = visible out := by simpa using hstr
      exact zero_not_mem_visible out
    exact Cga.exec_shows hk hnul

/-- `a%c%db`, with a NUL and a number. -/
theorem printf_shows_number : ∃ k' : Console,
    vprintf consolePutbytes (text "a%c%db") [.word 0, .word 42] (Vector.replicate bufmax 0) Cga.boot =
      some k' ∧ ∃ hk' : k'.Inside, k'.terminal hk' =
        (text "a42b").foldl (Terminal.put Cga.drawn) (Cga.boot.terminal Cga.boot_inside) := by
  have hout : doprnt 0 (text "a%c%db") [.word 0, .word 42] = some (text "a" ++ 0 :: text "42b") := by
    decide +kernel
  exact (printf_shows hout (Vector.replicate bufmax 0) Cga.boot Cga.boot_inside).2

end DominOS.Printf
