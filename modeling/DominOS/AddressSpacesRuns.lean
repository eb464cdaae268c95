import DominOS.AddressSpacesBooks

/-! What user code can reach in any run: its own frames, and the shared pages that it holds. -/
namespace DominOS.AddressSpaces
open Paging Fallible Runs
open Process (TaskPtr)

variable {m m' : Mem} {t u : TaskPtr} {space space' : Space} {code ssize : Nat} {o : StartOffers}
  {shp : Shp} {key : String} {v f : Nat} {e : Event} {lost : List (Nat × Nat)} {E : Prop}

def Boots (m : Mem) : Prop := ∃ early, m = Mem.boot early

def StepOf (P : Mem → Event → Prop) (m m' : Mem) : Prop := ∃ e, P m e ∧ m.step e = .ok m'

abbrev Run (P : Mem → Event → Prop) : Mem → Prop := Reachable Boots (StepOf P)

theorem boot_books {early : EarlyMem} : Books (Mem.boot early) [] where
  valid := ⟨List.Pairwise.nil, nofun, nofun⟩
  live := .refl _
  heap := .refl _
  fresh _ _ := rfl
  keys := List.nodup_nil
  slot := nofun
  slots _ := ⟨nofun, nofun⟩
  apart := List.nodup_nil
  counts := nofun
  registered := nofun

/-- The pages of user code: of its code and its stack, the one behind the stack if `E` allows it,
and those of the entries that it holds, at their slots. -/
def Maps (E : Prop) (m : Mem) : Prop :=
  ∀ t space v f, m.spaces t = some space → space.userFrame v = some f →
    space.Inside f ∨ (E ∧ v / 0x1000 = 0xfff00 ∧ f = space.behind) ∨
      ∃ shp ∈ m.shpTable, (t, shp.key) ∈ m.held ∧ f = shp.physicalAddress ∧
        v / 0x1000 = shp.virtualAddress / 0x1000

/-- The zone of the stack ends in its last page, or the frame behind is one of the code. -/
def Fits (E : Prop) (e : Event) : Prop :=
  match e with
  | .start code ssize o =>
    E ∨ realSize ssize % 0x1000 = 0 ∨
      (o.code ≤ o.stack + nbStackPages ssize * 0x1000 ∧
        o.stack + nbStackPages ssize * 0x1000 < o.code + nbCodePages code * 0x1000)
  | _ => True

theorem Redirected.cases {s s' : Frames} {virt : Nat} {target : Option Nat} {space₁ : Space}
    (hr : Redirected s s' space space' virt target) (hs : m.spaces t = some space)
    (h₁ : Function.update m.spaces t (some space') u = some space₁) (hf : space₁.userFrame v = some f) :
    (u = t ∧ v / 0x1000 = virt / 0x1000 ∧ target = some f) ∨
      ∃ space₀, m.spaces u = some space₀ ∧ space₀.userFrame v = some f ∧
        (space₀.Inside f → space₁.Inside f) ∧ space₁.behind = space₀.behind ∧
        (u = t → v / 0x1000 ≠ virt / 0x1000) := by
  by_cases hu : u = t
  · subst hu
    rw [Function.update_self] at h₁
    cases h₁
    rw [hr.maps] at hf
    split at hf
    · rename_i hv
      exact Or.inl ⟨rfl, hv, hf⟩
    · rename_i hv
      exact Or.inr ⟨space, hs, hf, hr.inside.1.mpr, hr.inside (f := f).2, fun _ => hv⟩
  · rw [Function.update_of_ne hu] at h₁
    exact Or.inr ⟨space₁, h₁, hf, id, rfl, fun h => absurd h hu⟩

theorem sole_holder (hone : m.refs key = 1) (ht : (t, key) ∈ m.held) (hu : (u, key) ∈ m.held) :
    u = t := by
  have hcount := refs_erase key { m with held := m.held.erase (t, key) } ht rfl
  rw [if_pos rfl, hone] at hcount
  by_contra hne
  have hmem : (u, key) ∈ m.held.erase (t, key) :=
    (List.mem_erase_of_ne fun h => hne (Prod.mk.inj h).1).mpr hu
  exact List.countP_eq_zero.mp (Nat.succ.inj hcount).symm _ hmem (decide_eq_true rfl)

theorem Books.still_held {old : Shp} (hb : Books m lost) (hshp : shp ∈ m.shpTable)
    (hk : shp.key = key) (hold : old ∈ m.shpTable) (hheld : (u, old.key) ∈ m.held)
    (hother : u = t → old.virtualAddress / 0x1000 ≠ shp.virtualAddress / 0x1000) :
    (u, old.key) ∈ m.held.erase (t, key) := by
  refine (List.mem_erase_of_ne fun heq => ?_).mpr hheld
  obtain ⟨hu, hkey⟩ := Prod.mk.inj heq
  exact hother hu (by rw [hb.unique hold hshp (hkey.trans hk.symm)])

theorem Change.maps (hb : Books m lost) (hfits : Fits E e) (hm : Maps E m) (h : Change m e m') :
    Maps E m' := by
  cases h with
  | @started code ssize o space s hstarted hv hp =>
    intro u space₁ v f h₁ hf
    by_cases hu : u = m.fresh
    · rw [hu] at h₁
      cases (Function.update_self ..).symm.trans h₁
      rcases hstarted.maps v f hf with hin | ⟨hpage, hbehind, hmod⟩
      · exact Or.inl hin
      · rcases hfits with hE | hzero | hcode
        · exact Or.inr (Or.inl ⟨hE, hpage, hbehind⟩)
        · exact absurd hzero hmod
        · refine Or.inl (Or.inl ?_)
          rw [hbehind]
          unfold Space.behind
          rw [hstarted.codePages, hstarted.stackPages, hstarted.nbCode, hstarted.nbStack]
          exact hcode
    · exact hm u space₁ v f ((Function.update_of_ne hu ..).symm.trans h₁) hf
  | terminated offers hl => exact hm
  | @freed t space s heap hs hz hp hq =>
    intro u space₁ v f h₁ hf
    have hu : u ≠ t := by
      rintro rfl
      cases (Function.update_self ..).symm.trans h₁
    exact hm u space₁ v f ((Function.update_of_ne hu ..).symm.trans h₁) hf
  | same offers => exact hm
  | lost hv hl => exact hm
  | @created t key offers a i space space' s₁ s hlive hs hkey hslot hhead hv hl hr =>
    intro u space₁ v f h₁ hf
    rcases hr.cases hs h₁ hf with ⟨rfl, hpage, htarget⟩ | ⟨space₀, h₀, hf₀, hin, hbehind, _⟩
    · cases htarget
      exact Or.inr (Or.inr ⟨_, List.mem_cons_self, List.mem_cons_self, rfl, hpage⟩)
    · rcases hm u space₀ v f h₀ hf₀ with h | ⟨hE, hpage, h⟩ | ⟨shp, hshp, hheld, hphys, hpage⟩
      · exact Or.inl (hin h)
      · exact Or.inr (Or.inl ⟨hE, hpage, h.trans hbehind.symm⟩)
      · exact Or.inr (Or.inr ⟨shp, List.mem_cons_of_mem _ hshp, List.mem_cons_of_mem _ hheld, hphys,
          hpage⟩)
  | @acquired t key offers shp space space' s hlive hs hshp hk hr =>
    intro u space₁ v f h₁ hf
    rcases hr.cases hs h₁ hf with ⟨rfl, hpage, htarget⟩ | ⟨space₀, h₀, hf₀, hin, hbehind, _⟩
    · cases htarget
      obtain ⟨new, hnew, hkey, hva, hphys⟩ := mem_setRefcount_of key (shp.refcount + 1) hshp
      refine Or.inr (Or.inr ⟨new, hnew, ?_, hphys.symm, hva ▸ hpage⟩)
      rw [hkey, hk]
      exact List.mem_cons_self
    · rcases hm u space₀ v f h₀ hf₀ with h | ⟨hE, hpage, h⟩ | ⟨shp', hshp', hheld, hphys, hpage⟩
      · exact Or.inl (hin h)
      · exact Or.inr (Or.inl ⟨hE, hpage, h.trans hbehind.symm⟩)
      · obtain ⟨new, hnew, hkey, hva, hphys'⟩ := mem_setRefcount_of key (shp.refcount + 1) hshp'
        refine Or.inr (Or.inr ⟨new, hnew, List.mem_cons_of_mem _ (hkey ▸ hheld),
          hphys.trans hphys'.symm, hva ▸ hpage⟩)
  | @released t key inPage shp space space' zombie hlive hs hshp hk hheld hmore hz hr =>
    intro u space₁ v f h₁ hf
    rcases hr.cases hs h₁ hf with ⟨_, _, htarget⟩ | ⟨space₀, h₀, hf₀, hin, hbehind, hother⟩
    · cases htarget
    · rcases hm u space₀ v f h₀ hf₀ with h | ⟨hE, hpage, h⟩ | ⟨shp', hshp', hheld', hphys, hpage⟩
      · exact Or.inl (hin h)
      · exact Or.inr (Or.inl ⟨hE, hpage, h.trans hbehind.symm⟩)
      · obtain ⟨new, hnew, hkey, hva, hphys'⟩ := mem_setRefcount_of key (shp.refcount - 1) hshp'
        have hstill := hb.still_held hshp hk hshp' hheld' fun hu => hpage ▸ hother hu
        exact Or.inr (Or.inr ⟨new, hnew, hkey ▸ hstill, hphys.trans hphys'.symm, hva ▸ hpage⟩)
  | @returned t key shp space space' s i hlive hs hshp hk hheld hone hslot hr hfree =>
    intro u space₁ v f h₁ hf
    rcases hr.cases hs h₁ hf with ⟨_, _, htarget⟩ | ⟨space₀, h₀, hf₀, hin, hbehind, hother⟩
    · cases htarget
    · rcases hm u space₀ v f h₀ hf₀ with h | ⟨hE, hpage, h⟩ | ⟨shp', hshp', hheld', hphys, hpage⟩
      · exact Or.inl (hin h)
      · exact Or.inr (Or.inl ⟨hE, hpage, h.trans hbehind.symm⟩)
      · have hkey : shp'.key ≠ key := by
          intro hkey
          have hrefs : m.refs key = 1 := by
            rw [← hk, ← hb.counts shp hshp, hone]
          have hu := sole_holder hrefs hheld (hkey ▸ hheld')
          have hsame := hb.unique hshp' hshp (hkey.trans hk.symm)
          exact hother hu (hsame ▸ hpage)
        have hstill := hb.still_held hshp hk hshp' hheld' fun hu => hpage ▸ hother hu
        exact Or.inr (Or.inr ⟨shp', mem_filter.mpr ⟨hshp', hkey⟩, hstill, hphys, hpage⟩)

section Isolation

/-- Every page of user code is in a frame of its code, of its stack, or of an entry that it
holds. -/
def Isolated (m : Mem) : Prop :=
  ∀ t space v f, m.Live t → m.spaces t = some space → space.userFrame v = some f →
    space.Inside f ∨ ∃ shp ∈ m.shpTable, (t, shp.key) ∈ m.held ∧ f = shp.physicalAddress

/-- Holders release, and no stack is mapped beyond its frames. -/
def Fenced (m : Mem) (e : Event) : Prop := Counted m e ∧ Fits False e

theorem Maps.reached (h : Maps False m) : Isolated m := by
  intro t space v f _ hs hf
  rcases h t space v f hs hf with hin | ⟨hE, _⟩ | ⟨shp, hshp, hheld, hphys, _⟩
  · exact Or.inl hin
  · exact hE.elim
  · exact Or.inr ⟨shp, hshp, hheld, hphys⟩

/-- In every run of fenced steps user code reaches its own frames and the shared pages that it
holds. -/
theorem isolated (h : Run Fenced m) : Isolated m := by
  have main : (∃ lost, Books m lost) ∧ Maps False m := by
    refine h.invariant (I := fun m => (∃ lost, Books m lost) ∧ Maps False m) ?_
      fun m m' ⟨⟨lost, hb⟩, hm⟩ ⟨e, he, hstep⟩ => ?_
    · rintro _ ⟨early, rfl⟩
      exact ⟨⟨[], boot_books⟩, nofun⟩
    · have hchange := step_change hb he.1 hstep
      exact ⟨hchange.books hb, hchange.maps hb he.2 hm⟩
  exact main.2.reached

section Decide

instance holdLawful : LawfulBEq (TaskPtr × String) := inferInstance

instance : Decidable (Counted m e) := by
  unfold Counted
  split <;> infer_instance

instance [Decidable E] : Decidable (Fits E e) := by
  unfold Fits
  split <;> infer_instance

instance : Decidable (space.Inside f) := inferInstanceAs (Decidable (_ ∨ _))

instance : Decidable (Fenced m e) := inferInstanceAs (Decidable (_ ∧ _))

end Decide

theorem Run.replayed {P : Mem → Event → Prop} [∀ m e, Decidable (P m e)] {es : List Event}
    {early : EarlyMem} (h : exec (allowing P .disabled Mem.step) es (Mem.boot early) = .ok m) : Run P m := by
  have hboot : Run P (Mem.boot early) := Reachable.start ⟨early, rfl⟩
  exact Reachable.exec hboot (fun e _ _ ht => ⟨e, (allowing_ok ht).1, (allowing_ok ht).2⟩) h

def anEarlyMem : EarlyMem := ⟨0x100000, fun _ => true⟩

def startIdle : Event :=
  .start 9000 1024 ⟨0x4000000, 0x4004000, [0x4001000], 0x4002000, [0x4007000]⟩

/-- Two tasks whose stacks fill their pages, and a page that they share. -/
theorem isolated_two : ∃ m, m.userFrame 1 0xfff00000 = some 0x4014000 ∧
    m.userFrame 2 0xfff00000 = some 0x4014000 ∧ Isolated m := by
  have hrun : Ends (exec (allowing Fenced .disabled Mem.step) [startIdle,
      .start 100 1022 ⟨0x4008000, 0x4009000, [0x400a000], 0x400c000, [0x400b000]⟩,
      .start 100 1022 ⟨0x400e000, 0x400f000, [0x4010000], 0x4012000, [0x4011000]⟩,
      .shmCreate 1 (some "k") [0x4014000], .shmAcquire 2 (some "k") []] (Mem.boot anEarlyMem))
      fun m => m.userFrame 1 0xfff00000 = some 0x4014000 ∧ m.userFrame 2 0xfff00000 = some 0x4014000 := by
    decide +kernel
  obtain ⟨m, hm, h₁, h₂⟩ := hrun.elim
  exact ⟨m, h₁, h₂, isolated (Run.replayed hm)⟩

/-- With a stack of 1000 words the page behind it is mapped too. Here it is the page table of the
stack, which user code can then write. -/
theorem frame_behind_stack : ∃ m space, exec Mem.step [startIdle,
      .start 100 1000 ⟨0x4008000, 0x4009000, [0x400a000], 0x400b000, [0x400c000]⟩]
      (Mem.boot anEarlyMem) = .ok m ∧ m.Live 1 ∧ m.spaces 1 = some space ∧
    space.userFrame 0xfff00000 = some 0x400c000 ∧
    (space.dir (pdIndex 0xfff00000)).map Table.addr = some 0x400c000 ∧ ¬ Isolated m := by
  have hrun : Ends (exec Mem.step [startIdle,
      .start 100 1000 ⟨0x4008000, 0x4009000, [0x400a000], 0x400b000, [0x400c000]⟩]
      (Mem.boot anEarlyMem)) fun m => m.Live 1 ∧ m.shpTable.length = 0 ∧
        ∀ space, m.spaces 1 = some space → space.userFrame 0xfff00000 = some 0x400c000 ∧
          (space.dir (pdIndex 0xfff00000)).map Table.addr = some 0x400c000 ∧
          ¬ space.Inside 0x400c000 := by
    decide +kernel
  obtain ⟨m, hm, hl, htable, hspace⟩ := hrun.elim
  obtain ⟨space, hs⟩ := Option.isSome_iff_exists.mp hl.1
  obtain ⟨hframe, haddr, houtside⟩ := hspace space hs
  refine ⟨m, space, hm, hl, hs, hframe, haddr, fun h => ?_⟩
  rcases h 1 space _ _ hl hs hframe with hin | ⟨shp, hshp, _⟩
  · exact houtside hin
  · rw [List.length_eq_zero_iff.mp htable] at hshp
    cases hshp

end Isolation

end DominOS.AddressSpaces
