import DominOS.ContextSwitch

/-! Runs of the processor over many tasks: what a task finds when it is switched to again. -/
namespace DominOS.ContextSwitch
open WordMemory
universe u
variable {c : Cpu} {m m' : Memory} {n r sp x : Word}

def Tss (x : Word) : Prop := Within tssEsp0 4 x ∨ Within tssCr3 4 x

theorem withTss_of_not (h : ¬Tss x) : withTss n m x = m x := by
  unfold Tss at h
  rw [not_or] at h
  unfold withTss
  rw [write32_of_not h.1, write32_of_not h.2]

theorem tssCr3_withTss : read32 (withTss n m) tssCr3 = read32 m (n + 20) := by
  have hapart : Apart tssCr3 4 tssEsp0 4 :=
    (apart_add (a := tssEsp0) (i := 0) (j := 0x18) (by decide) (by decide)).symm
  unfold withTss
  rw [read32_write32_apart hapart, read32_write32]

theorem tssEsp0_withTss (h : ∀ x, Within n 28 x → ¬Tss x) :
    read32 (withTss n m) tssEsp0 = read32 m (n + 24) := by
  unfold withTss
  rw [read32_write32, read32_write32_apart]
  exact fun x hx htss => h x (hx.shift (by decide)) (.inr htss)

theorem within_shift {a : Word} {off : Word} {k n : Nat} (hn : off.toNat + k ≤ n)
    (h : ¬Within a n x) : ¬Within (a + off) k x := fun hx => h (hx.shift hn)

theorem saved_of_not (h : ¬Within r 20 x) : c.saved r x = c.memory x := by
  unfold Cpu.saved
  rw [write32_of_not (within_shift (by decide) h), write32_of_not (within_shift (by decide) h),
    write32_of_not (within_shift (by decide) h), write32_of_not (within_shift (by decide) h),
    write32_of_not (within_shift (by decide) h)]

theorem framed_of_not {eflags : Word} (h : ¬Within (sp - 20) 20 x) : framed sp eflags m x = m x := by
  have hfirst : ¬Within (sp - 20) 4 x := fun hx => h (hx.mono (by decide))
  unfold framed
  rw [write32_of_not hfirst, write32_of_not (within_shift (by decide) h),
    write32_of_not (within_shift (by decide) h), write32_of_not (within_shift (by decide) h),
    write32_of_not (within_shift (by decide) h), write32_of_not (within_shift (by decide) h)]

theorem read32_saved (c : Cpu) (r : Word) :
    read32 (c.saved r) (r + 0) = c.regs .ebx ∧ read32 (c.saved r) (r + 4) = c.regs .esp ∧
    read32 (c.saved r) (r + 8) = c.regs .ebp ∧ read32 (c.saved r) (r + 12) = c.regs .esi ∧
    read32 (c.saved r) (r + 16) = c.regs .edi := by
  have hapart {i j : Word} (h : i.toNat + 4 ≤ j.toNat) (hj : j.toNat + 4 ≤ 2 ^ 32) :
      Apart (r + i) 4 (r + j) 4 := apart_add h hj
  unfold Cpu.saved
  refine ⟨?_, ?_, ?_, ?_, read32_write32⟩
  · rw [read32_write32_apart (hapart (by decide) (by decide)),
      read32_write32_apart (hapart (by decide) (by decide)),
      read32_write32_apart (hapart (by decide) (by decide)),
      read32_write32_apart (hapart (by decide) (by decide)), read32_write32]
  · rw [read32_write32_apart (hapart (by decide) (by decide)),
      read32_write32_apart (hapart (by decide) (by decide)),
      read32_write32_apart (hapart (by decide) (by decide)), read32_write32]
  · rw [read32_write32_apart (hapart (by decide) (by decide)),
      read32_write32_apart (hapart (by decide) (by decide)), read32_write32]
  · rw [read32_write32_apart (hapart (by decide) (by decide)), read32_write32]

/-- A task that has been switched out: where its `regs` are, the processor at the call of the
switch, and how much of the stack is in use. -/
structure Saved where
  regs : Word
  cpu : Cpu
  used : Nat

namespace Saved
variable {v v' : Saved}

/-- The bytes that must stay as they are while the task is not running. -/
def Owns (v : Saved) (x : Word) : Prop := Within v.regs 28 x ∨ Within (v.cpu.regs .esp) v.used x

/-- The stack holds the call, and lies apart from `regs` and the task state segment. -/
structure Clear (v : Saved) : Prop where
  call : 12 ≤ v.used
  stack : Apart (v.cpu.regs .esp) v.used v.regs 28
  tss : ∀ x, v.Owns x → ¬Tss x

def Intact (v : Saved) (m : Memory) : Prop := ∀ x, v.Owns x → m x = v.cpu.saved v.regs x

theorem Intact.congr (h : v.Intact m) (hm : ∀ x, v.Owns x → m' x = m x) : v.Intact m' :=
  fun x hx => (hm x hx).trans (h x hx)

theorem Intact.word (h : v.Intact m) {off : Word} (hoff : off.toNat + 4 ≤ 28) :
    read32 m (v.regs + off) = read32 (v.cpu.saved v.regs) (v.regs + off) :=
  read32_congr fun x hx => h x (.inl (hx.shift hoff))

end Saved

/-- The task goes on behind its call of the switch: the registers that it counts on, its stack,
its address space and the stack for its interrupts are the ones that it had. -/
structure Resumed (v : Saved) (c : Cpu) : Prop where
  ebx : c.regs .ebx = v.cpu.regs .ebx
  ebp : c.regs .ebp = v.cpu.regs .ebp
  esi : c.regs .esi = v.cpu.regs .esi
  edi : c.regs .edi = v.cpu.regs .edi
  esp : c.regs .esp = v.cpu.regs .esp + 4
  eip : c.eip = v.cpu.top 0
  stack : ∀ x, Within (v.cpu.regs .esp) v.used x → c.memory x = v.cpu.memory x
  cr3 : c.cr3 = read32 v.cpu.memory (v.regs + 20)
  tssCr3 : read32 c.memory tssCr3 = c.cr3
  tssEsp0 : read32 c.memory tssEsp0 = read32 v.cpu.memory (v.regs + 24)

structure State (τ : Type u) where
  cpu : Cpu
  current : τ
  saved : τ → Option Saved

inductive Event (τ : Type u) where
  | work
  | release (t : τ)
  | swtch (t : τ)
  | gotoUserMode (t : τ)
deriving DecidableEq

variable {τ : Type u} {s s' s₁ s₂ s₃ : State τ} {t : τ} {e : Event τ} {es : List (Event τ)}
  {me v : Saved} {new : Word}

namespace State

/-- The processor stands at a call of a switch from the current task, whose areas lie apart from
those of the other tasks, to `new`. -/
structure Calls (s : State τ) (me : Saved) (new : Word) : Prop where
  cpu : me.cpu = s.cpu
  old : s.cpu.top 4 = me.regs
  new : s.cpu.top 8 = new
  clear : me.Clear
  apart : ∀ t v, s.saved t = some v → ∀ x, v.Owns x → ¬me.Owns x

/-- `gotoUserMode` pushes onto the stack that it leaves. -/
structure Below (s : State τ) (me : Saved) (new : Word) : Prop where
  own : ∀ x, me.Owns x → ¬Within (s.cpu.regs .esp - 20) 20 x
  others : ∀ t v, s.saved t = some v → ∀ x, v.Owns x → ¬Within (s.cpu.regs .esp - 20) 20 x
  tss : ∀ x, Tss x → ¬Within (s.cpu.regs .esp - 20) 20 x
  fresh : Apart new 28 me.regs 28
  freshTss : ∀ x, Within new 28 x → ¬Tss x

theorem Calls.others (h : s.Calls me new) (hv : s.saved t = some v) (hx : v.Owns x) :
    s.cpu.saved me.regs x = s.cpu.memory x :=
  saved_of_not fun hr => h.apart t v hv x hx (.inl (hr.mono (by decide)))

theorem Calls.stack (h : s.Calls me new) (hx : Within (s.cpu.regs .esp) me.used x) :
    s.cpu.saved me.regs x = s.cpu.memory x := by
  refine saved_of_not fun hr => ?_
  rw [← h.cpu] at hx
  exact h.clear.stack x hx (hr.mono (by decide))

theorem Calls.new_saved (h : s.Calls me new) :
    new = read32 (s.cpu.saved (s.cpu.top 4)) (s.cpu.regs .esp + 8) := by
  rw [h.old, ← h.new]
  refine (read32_congr fun x hx => h.stack (hx.shift ?_)).symm
  have := h.clear.call
  show 8 + 4 ≤ me.used
  omega

end State

theorem memory_swtch {me : Saved} {new : Word} (h : s.Calls me new) :
    (s.cpu.run swtch).memory = withTss new (s.cpu.saved me.regs) := by
  have hrun := run_swtch s.cpu _ new rfl h.new_saved
  rw [hrun.1, h.old]

theorem memory_gotoUserMode {me : Saved} {new : Word} (h : s.Calls me new) :
    (s.cpu.run gotoUserMode).memory =
      framed (s.cpu.regs .esp) s.cpu.eflags (withTss new (s.cpu.saved me.regs)) := by
  have hrun := run_gotoUserMode s.cpu _ new rfl h.new_saved
  rw [hrun.2.1, h.old]

theorem resumed_swtch {v me : Saved} (hv : v.Clear) (hm : v.Intact s.cpu.memory)
    (hsaved : s.saved t = some v) (h : s.Calls me v.regs) : Resumed v (s.cpu.run swtch) := by
  obtain ⟨hmemory, hcr3, hebx, hebp, hesi, hedi, hesp, heip⟩ :=
    run_swtch s.cpu _ v.regs rfl h.new_saved
  rw [h.old] at hmemory hcr3 hebx hebp hesi hedi hesp heip
  have hspace : v.Intact (s.cpu.saved me.regs) := hm.congr fun x hx => h.others hsaved hx
  have hafter : v.Intact (withTss v.regs (s.cpu.saved me.regs)) :=
    hspace.congr fun x hx => withTss_of_not (hv.tss x hx)
  have hstack {x : Addr} (hx : Within (v.cpu.regs .esp) v.used x) :
      v.cpu.saved v.regs x = v.cpu.memory x :=
    saved_of_not fun hr => hv.stack x hx (hr.mono (by decide))
  obtain ⟨hwbx, hwsp, hwbp, hwsi, hwdi⟩ := read32_saved v.cpu v.regs
  have hold {off : Word} (hlow : 20 ≤ off.toNat) (hhigh : off.toNat + 4 ≤ 28) :
      read32 (v.cpu.saved v.regs) (v.regs + off) = read32 v.cpu.memory (v.regs + off) :=
    read32_congr fun x hx => saved_of_not fun hr =>
      apart_add (a := v.regs) (i := 0) (j := off) (n := 20) (k := 4) (by simpa using hlow)
        (by omega) x (by simpa using hr) hx
  have hcr3' : (s.cpu.run swtch).cr3 = read32 v.cpu.memory (v.regs + 20) := by
    rw [hcr3, hspace.word (by decide), hold (by decide) (by decide)]
  refine ⟨?_, ?_, ?_, ?_, ?_, ?_, ?_, hcr3', ?_, ?_⟩
  · rw [hebx, hafter.word (by decide), hwbx]
  · rw [hebp, hafter.word (by decide), hwbp]
  · rw [hesi, hafter.word (by decide), hwsi]
  · rw [hedi, hafter.word (by decide), hwdi]
  · rw [hesp, hspace.word (by decide), hwsp]
  · rw [heip, hspace.word (by decide), hwsp]
    refine read32_congr fun x hx => ?_
    have hin : Within (v.cpu.regs .esp) v.used x := hx.shift (by
      have := hv.call
      show 0 + 4 ≤ v.used
      omega)
    rw [hafter x (.inr hin), hstack hin]
  · intro x hx
    rw [hmemory, hafter x (.inr hx), hstack hx]
  · rw [hmemory, hcr3]
    exact tssCr3_withTss
  · rw [hmemory, tssEsp0_withTss fun x hx => hv.tss x (.inl hx), hspace.word (by decide),
      hold (by decide) (by decide)]

theorem entered_gotoUserMode (h : s.Calls me new) (hbelow : s.Below me new) :
    (s.cpu.run gotoUserMode).Entered s.cpu.eflags ∧
    (s.cpu.run gotoUserMode).cr3 = read32 s.cpu.memory (new + 20) ∧
    read32 (s.cpu.run gotoUserMode).memory tssCr3 = read32 s.cpu.memory (new + 20) ∧
    read32 (s.cpu.run gotoUserMode).memory tssEsp0 = read32 s.cpu.memory (new + 24) := by
  obtain ⟨hentered, -, hcr3⟩ := run_gotoUserMode s.cpu _ new rfl h.new_saved
  have hregs {off : Word} (hoff : off.toNat + 4 ≤ 28) :
      read32 (s.cpu.saved me.regs) (new + off) = read32 s.cpu.memory (new + off) :=
    read32_congr fun x hx => saved_of_not fun hr =>
      hbelow.fresh x (hx.shift hoff) (hr.mono (by decide))
  rw [h.old, hregs (by decide)] at hcr3
  have hframe {a : Addr} (ha : ∀ x, Within a 4 x → Tss x) (m : Memory) :
      read32 (framed (s.cpu.regs .esp) s.cpu.eflags m) a = read32 m a :=
    read32_congr fun x hx => framed_of_not (hbelow.tss x (ha x hx))
  rw [memory_gotoUserMode h, hframe fun x hx => .inr hx, hframe fun x hx => .inl hx]
  refine ⟨hentered, hcr3, ?_, ?_⟩
  · rw [tssCr3_withTss, hregs (by decide)]
  · rw [tssEsp0_withTss fun x hx => hbelow.freshTss x hx, hregs (by decide)]

variable [DecidableEq τ]

def State.leave (s : State τ) (me : Saved) (t : τ) (cpu : Cpu) : State τ where
  cpu := cpu
  current := t
  saved := Function.update (Function.update s.saved t none) s.current (some me)

/-- The scheduler switches from a task to another one only, and to one that has been switched out
or that starts. Whatever runs leaves the areas of the other tasks alone. -/
inductive Step : Event τ → State τ → State τ → Prop where
  | work {s : State τ} (cpu : Cpu)
      (h : ∀ t v, s.saved t = some v → ∀ x, v.Owns x → cpu.memory x = s.cpu.memory x) :
      Step .work s { s with cpu := cpu }
  | release {s : State τ} (t : τ) :
      Step (.release t) s { s with saved := Function.update s.saved t none }
  | swtch {s : State τ} (t : τ) (v me : Saved) (hv : s.saved t = some v) (ht : t ≠ s.current)
      (hcall : s.Calls me v.regs) : Step (.swtch t) s (s.leave me t (s.cpu.run swtch))
  | gotoUserMode {s : State τ} (t : τ) (new : Word) (me : Saved) (ht : t ≠ s.current)
      (hcall : s.Calls me new) (hbelow : s.Below me new) :
      Step (.gotoUserMode t) s (s.leave me t (s.cpu.run gotoUserMode))

namespace State

theorem leave_saved_current {cpu : Cpu} (ht : t ≠ s.current) :
    (s.leave me t cpu).saved s.current = some me ∧ (s.leave me t cpu).saved t = none := by
  constructor
  · exact Function.update_self ..
  · show Function.update (Function.update s.saved t none) s.current (some me) t = none
    rw [Function.update_of_ne ht, Function.update_self]

theorem leave_saved_of_ne {cpu : Cpu} {u : τ} (hu : u ≠ t) (hc : u ≠ s.current) :
    (s.leave me t cpu).saved u = s.saved u := by
  show Function.update (Function.update s.saved t none) s.current (some me) u = s.saved u
  rw [Function.update_of_ne hc, Function.update_of_ne hu]

structure Inv (s : State τ) : Prop where
  clear : ∀ t v, s.saved t = some v → v.Clear
  intact : ∀ t v, s.saved t = some v → v.Intact s.cpu.memory
  running : s.saved s.current = none

/-- A switch keeps the tasks that do not run, and the one that it leaves becomes one of them. -/
theorem Inv.leave {cpu : Cpu} (h : s.Inv) (hcall : s.Calls me new) (ht : t ≠ s.current)
    (hown : ∀ x, me.Owns x → cpu.memory x = s.cpu.saved me.regs x)
    (hothers : ∀ u v, s.saved u = some v → ∀ x, v.Owns x → cpu.memory x = s.cpu.memory x) :
    (s.leave me t cpu).Inv := by
  have hcases {u : τ} {v : Saved} (hv : (s.leave me t cpu).saved u = some v) :
      v = me ∨ s.saved u = some v := by
    by_cases hc : u = s.current
    · rw [hc, (leave_saved_current ht).1] at hv
      exact .inl (Option.some.inj hv).symm
    · by_cases hu : u = t
      · rw [hu, (leave_saved_current ht).2] at hv
        cases hv
      · rw [leave_saved_of_ne hu hc] at hv
        exact .inr hv
  constructor
  · intro u v hv
    rcases hcases hv with rfl | hv
    · exact hcall.clear
    · exact h.clear u v hv
  · intro u v hv x hx
    rcases hcases hv with rfl | hv
    · rw [hcall.cpu]
      exact hown x hx
    · exact (hothers u v hv x hx).trans (h.intact u v hv x hx)
  · exact (leave_saved_current ht).2

end State

open State

theorem Step.inv (h : Step e s s') (hi : s.Inv) : s'.Inv := by
  cases h with
  | work cpu hcpu =>
    exact ⟨hi.clear, fun t v hv => (hi.intact t v hv).congr (hcpu t v hv), hi.running⟩
  | release t =>
    have hcases {u : τ} {v : Saved} (hv : Function.update s.saved t none u = some v) :
        s.saved u = some v := by
      by_cases hu : u = t
      · rw [hu, Function.update_self] at hv
        cases hv
      · rwa [Function.update_of_ne hu] at hv
    refine ⟨fun u v hv => hi.clear u v (hcases hv), fun u v hv => hi.intact u v (hcases hv), ?_⟩
    show Function.update s.saved t none s.current = none
    by_cases hc : s.current = t
    · rw [hc, Function.update_self]
    · rw [Function.update_of_ne hc]
      exact hi.running
  | swtch t v me hv ht hcall =>
    refine hi.leave hcall ht (fun x hx => ?_) fun u w hw x hx => ?_
    · rw [memory_swtch hcall, withTss_of_not (hcall.clear.tss x hx)]
    · rw [memory_swtch hcall, withTss_of_not ((hi.clear u w hw).tss x hx), hcall.others hw hx]
  | gotoUserMode t new me ht hcall hbelow =>
    refine hi.leave hcall ht (fun x hx => ?_) fun u w hw x hx => ?_
    · rw [memory_gotoUserMode hcall, framed_of_not (hbelow.own x hx),
        withTss_of_not (hcall.clear.tss x hx)]
    · rw [memory_gotoUserMode hcall, framed_of_not (hbelow.others u w hw x hx),
        withTss_of_not ((hi.clear u w hw).tss x hx), hcall.others hw hx]

def Run : List (Event τ) → State τ → State τ → Prop
  | [], s, s' => s' = s
  | e :: es, s, s' => ∃ s₁, Step e s s₁ ∧ Run es s₁ s'

theorem Run.inv (h : Run es s s') (hi : s.Inv) : s'.Inv := by
  induction es generalizing s with
  | nil => exact h ▸ hi
  | cons e es ih =>
    obtain ⟨s₁, hstep, hrun⟩ := h
    exact ih hrun (hstep.inv hi)

def Event.Passes (t : τ) : Event τ → Prop
  | .work => True
  | .release u | .swtch u | .gotoUserMode u => u ≠ t

theorem Step.saved (h : Step e s s') (hi : s.Inv) (hv : s.saved t = some v) (he : e.Passes t) :
    s'.saved t = some v := by
  have hcurrent : t ≠ s.current := by
    rintro rfl
    rw [hi.running] at hv
    cases hv
  cases h with
  | work cpu hcpu => exact hv
  | release u =>
    show Function.update s.saved u none t = some v
    rw [Function.update_of_ne (Ne.symm he), hv]
  | swtch u w me hw hu hcall => rw [leave_saved_of_ne (Ne.symm he) hcurrent, hv]
  | gotoUserMode u new me hu hcall hbelow => rw [leave_saved_of_ne (Ne.symm he) hcurrent, hv]

theorem Run.saved (h : Run es s s') (hi : s.Inv) (hv : s.saved t = some v)
    (hes : ∀ e ∈ es, e.Passes t) : s'.saved t = some v := by
  induction es generalizing s with
  | nil => exact h ▸ hv
  | cons e es ih =>
    obtain ⟨s₁, hstep, hrun⟩ := h
    have hfirst : s₁.saved t = some v := hstep.saved hi hv (hes e List.mem_cons_self)
    exact ih hrun (hstep.inv hi) hfirst fun e he => hes e (List.mem_cons_of_mem _ he)

theorem Step.leaves (h : Step e s s') (he : e = .swtch t ∨ e = .gotoUserMode t) :
    ∃ me : Saved, s'.saved s.current = some me ∧ me.cpu = s.cpu ∧ me.regs = s.cpu.top 4 := by
  cases h with
  | work cpu hcpu => simp at he
  | release u => simp at he
  | swtch u w me hw hu hcall =>
    exact ⟨me, (leave_saved_current hu).1, hcall.cpu, hcall.old.symm⟩
  | gotoUserMode u new me hu hcall hbelow =>
    exact ⟨me, (leave_saved_current hu).1, hcall.cpu, hcall.old.symm⟩

/-- However the tasks are switched, a task that is left and comes back goes on as if its call of the
switch had returned. -/
theorem task_resumes {out : Event τ} {es' : List (Event τ)} {s₄ : State τ}
    (hstart : ∀ t, s.saved t = none) (hbefore : Run es s s₁)
    (hout : Step out s₁ s₂) (ht : out = .swtch t ∨ out = .gotoUserMode t)
    (hmean : Run es' s₂ s₃) (hes : ∀ e ∈ es', e.Passes s₁.current)
    (hback : Step (.swtch s₁.current) s₃ s₄) :
    ∃ me : Saved, s₂.saved s₁.current = some me ∧ me.cpu = s₁.cpu ∧ me.regs = s₁.cpu.top 4 ∧
      Resumed me s₄.cpu := by
  have hinit : s.Inv := by
    refine ⟨fun t v hv => ?_, fun t v hv => ?_, hstart _⟩ <;>
    · rw [hstart] at hv
      cases hv
  have hi₂ : s₂.Inv := hout.inv (hbefore.inv hinit)
  obtain ⟨me, hsaved, hcpu, hregs⟩ := hout.leaves ht
  have hkept : s₃.saved s₁.current = some me := hmean.saved hi₂ hsaved hes
  have hi₃ : s₃.Inv := hmean.inv hi₂
  refine ⟨me, hsaved, hcpu, hregs, ?_⟩
  cases hback with
  | swtch u v me' hv hu hcall =>
    obtain rfl : me = v := Option.some.inj (hkept.symm.trans hv)
    exact resumed_swtch (hi₃.clear _ _ hv) (hi₃.intact _ _ hv) hv hcall

/-- A task that starts is in user mode at the beginning of its program, in its own address space
and with its own stack for interrupts. -/
theorem task_starts (h : Step (.gotoUserMode t) s s') : s'.cpu.Entered s.cpu.eflags ∧
    s'.cpu.cr3 = read32 s.cpu.memory (s.cpu.top 8 + 20) ∧
    read32 s'.cpu.memory tssCr3 = read32 s.cpu.memory (s.cpu.top 8 + 20) ∧
    read32 s'.cpu.memory tssEsp0 = read32 s.cpu.memory (s.cpu.top 8 + 24) := by
  cases h with
  | gotoUserMode t new me ht hcall hbelow =>
    rw [hcall.new]
    exact entered_gotoUserMode hcall hbelow

theorem clear_of_lt (hcall : 12 ≤ v.used) (hstack : (v.cpu.regs .esp).toNat + v.used ≤ 0x20004)
    (hlow : 0x20020 ≤ v.regs.toNat) (hhigh : v.regs.toNat + 28 ≤ 2 ^ 32) : v.Clear := by
  refine ⟨hcall, fun x hx hr => ?_, fun x hx htss => ?_⟩
  · have hbelow := hx.bounds (by omega)
    have habove := hr.bounds hhigh
    omega
  · have htop : 0x20004 ≤ x.toNat ∧ x.toNat < 0x20020 := by
      rcases htss with htss | htss
      · have hbounds : 0x20004 ≤ x.toNat ∧ x.toNat < 0x20008 := htss.bounds (by decide)
        omega
      · have hbounds : 0x2001c ≤ x.toNat ∧ x.toNat < 0x20020 := htss.bounds (by decide)
        omega
    rcases hx with hx | hx
    · have habove := hx.bounds hhigh
      omega
    · have hbelow := hx.bounds (by omega)
      omega

def calling (c : Cpu) (sp old new : Word) : Cpu :=
  ((c.set .esp sp).write (sp + 4) old).write (sp + 8) new

theorem calling_esp (c : Cpu) (sp old new : Word) : (calling c sp old new).regs .esp = sp := by
  simp [calling, Cpu.set, Cpu.write]

theorem calling_tops (c : Cpu) (sp old new : Word) :
    (calling c sp old new).top 4 = old ∧ (calling c sp old new).top 8 = new := by
  have hmemory : (calling c sp old new).memory = write32 (sp + 8) new (write32 (sp + 4) old c.memory) := rfl
  unfold Cpu.top
  rw [calling_esp, hmemory]
  constructor
  · rw [read32_write32_apart (apart_add (by decide) (by decide)), read32_write32]
  · exact read32_write32

def booted : State Bool where
  cpu := calling ⟨fun _ => 7, fun _ => 0, 0, 2, 0x100000, fun _ => 0⟩ 0x10000 0x30000 0x40000
  current := false
  saved := fun _ => none

def first : Saved := ⟨0x30000, booted.cpu, 64⟩

def started : State Bool := booted.leave first true (booted.cpu.run gotoUserMode)

def back : State Bool := { started with cpu := calling started.cpu 0x18000 0x40000 0x30000 }

def second : Saved := ⟨0x40000, back.cpu, 64⟩

theorem starts : Step (.gotoUserMode true) booted started := by
  obtain ⟨hold, hnew⟩ := calling_tops ⟨fun _ => 7, fun _ => 0, 0, 2, 0x100000, fun _ => 0⟩ 0x10000
    0x30000 0x40000
  have hclear : first.Clear := clear_of_lt (by decide) (by decide) (by decide) (by decide)
  have hframe {x : Addr} (hx : Within (booted.cpu.regs .esp - 20) 20 x) :
      0xffec ≤ x.toNat ∧ x.toNat < 0x10000 := by
    have hsp : booted.cpu.regs .esp - 20 = 0xffec := by
      unfold booted
      rw [calling_esp]
      rfl
    rw [hsp] at hx
    exact hx.bounds (by decide)
  refine Step.gotoUserMode true 0x40000 first (by decide) ⟨rfl, hold, hnew, hclear, ?_⟩ ⟨?_, ?_, ?_, ?_, ?_⟩
  · intro t v hv
    cases hv
  · intro x hx hf
    have hbelow := hframe hf
    rcases hx with hx | hx
    · have habove : 0x30000 ≤ x.toNat ∧ x.toNat < 0x3001c := hx.bounds (by decide)
      omega
    · have habove : 0x10000 ≤ x.toNat ∧ x.toNat < 0x10040 := hx.bounds (by decide)
      omega
  · intro t v hv
    cases hv
  · intro x hx hf
    have hbelow := hframe hf
    rcases hx with hx | hx
    · have habove : 0x20004 ≤ x.toNat ∧ x.toNat < 0x20008 := hx.bounds (by decide)
      omega
    · have habove : 0x2001c ≤ x.toNat ∧ x.toNat < 0x20020 := hx.bounds (by decide)
      omega
  · intro x hx hr
    have habove : 0x40000 ≤ x.toNat ∧ x.toNat < 0x4001c := hx.bounds (by decide)
    have hbelow : 0x30000 ≤ x.toNat ∧ x.toNat < 0x3001c := hr.bounds (by decide)
    omega
  · intro x hx htss
    have habove : 0x40000 ≤ x.toNat ∧ x.toNat < 0x4001c := hx.bounds (by decide)
    rcases htss with htss | htss
    · have hbelow : 0x20004 ≤ x.toNat ∧ x.toNat < 0x20008 := htss.bounds (by decide)
      omega
    · have hbelow : 0x2001c ≤ x.toNat ∧ x.toNat < 0x20020 := htss.bounds (by decide)
      omega

theorem started_saved (t : Bool) (h : started.saved t = some v) : t = false ∧ v = first := by
  cases t with
  | false => exact ⟨rfl, (Option.some.inj h).symm⟩
  | true => cases h

theorem first_owns (h : first.Owns x) :
    0x10000 ≤ x.toNat ∧ x.toNat < 0x10040 ∨ 0x30000 ≤ x.toNat ∧ x.toNat < 0x3001c := by
  rcases h with hx | hx
  · exact .inr (hx.bounds (by decide))
  · exact .inl (hx.bounds (by decide))

theorem works : Step .work started back := by
  refine Step.work _ fun t v hv x hx => ?_
  obtain ⟨-, rfl⟩ := started_saved t hv
  have howns := first_owns hx
  have hold : ¬Within 0x18004 4 x := fun hw => by
    have hbounds : 0x18004 ≤ x.toNat ∧ x.toNat < 0x18008 := hw.bounds (by decide)
    omega
  have hnew : ¬Within 0x18008 4 x := fun hw => by
    have hbounds : 0x18008 ≤ x.toNat ∧ x.toNat < 0x1800c := hw.bounds (by decide)
    omega
  show write32 0x18008 _ (write32 0x18004 _ started.cpu.memory) x = started.cpu.memory x
  rw [write32_of_not hnew, write32_of_not hold]

theorem switches : Step (.swtch false) back (back.leave second false (back.cpu.run swtch)) := by
  obtain ⟨hold, hnew⟩ := calling_tops started.cpu 0x18000 0x40000 0x30000
  have hclear : second.Clear := by
    have hsp : second.cpu.regs .esp = 0x18000 := calling_esp ..
    exact clear_of_lt (by decide) (by rw [hsp]; decide) (by decide) (by decide)
  refine Step.swtch false first second rfl (by decide) ⟨rfl, hold, hnew, hclear, ?_⟩
  intro t v hv x hx hown
  obtain ⟨-, rfl⟩ := started_saved t hv
  have howns := first_owns hx
  rcases hown with hown | hown
  · have hbounds : 0x40000 ≤ x.toNat ∧ x.toNat < 0x4001c := hown.bounds (by decide)
    omega
  · have hsp : second.cpu.regs .esp = 0x18000 := calling_esp ..
    rw [hsp] at hown
    have hbounds : 0x18000 ≤ x.toNat ∧ x.toNat < 0x18040 := hown.bounds (by decide)
    omega

theorem task_resumes_first : ∃ me : Saved, started.saved false = some me ∧ me.cpu = booted.cpu ∧
    me.regs = booted.cpu.top 4 ∧ Resumed me (back.cpu.run swtch) := by
  have hbefore : Run [] booted booted := rfl
  have hmean : Run [.work] started back := ⟨back, works, rfl⟩
  refine task_resumes (fun _ => rfl) hbefore starts (.inr rfl) hmean (fun e he => ?_) switches
  rw [List.mem_singleton.mp he]
  trivial

theorem task_starts_second : started.cpu.Entered booted.cpu.eflags ∧
    started.cpu.cr3 = read32 booted.cpu.memory (booted.cpu.top 8 + 20) ∧
    read32 started.cpu.memory tssCr3 = read32 booted.cpu.memory (booted.cpu.top 8 + 20) ∧
    read32 started.cpu.memory tssEsp0 = read32 booted.cpu.memory (booted.cpu.top 8 + 24) :=
  task_starts starts

end DominOS.ContextSwitch
