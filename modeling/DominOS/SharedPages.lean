import DominOS.AddressSpacesRuns

/-! The pages that processes share: nobody else maps them, and they live as long as they are
referred to. -/
namespace DominOS.AddressSpaces
open Paging Fallible Runs
open Process (TaskPtr)

variable {m m' : Mem} {t u : TaskPtr} {space space' : Space} {shp : Shp} {key : String} {v f : Nat}
  {e : Event} {lost : List (Nat × Nat)}

def Exclusive (m : Mem) : Prop :=
  ∀ t space v, m.spaces t = some space → m.zombie t = false → ∀ shp ∈ m.shpTable,
    space.userFrame v = some shp.physicalAddress →
      (t, shp.key) ∈ m.held ∧ v / 0x1000 = shp.virtualAddress / 0x1000

/-- The frame behind a stack is no shared page, neither when the stack is mapped nor when the
page is created; and a key that is released is not NULL. -/
def Unshared (m : Mem) (e : Event) : Prop :=
  match e with
  | .start _ ssize o => realSize ssize % 0x1000 ≠ 0 → ∀ shp ∈ m.shpTable,
      shp.physicalAddress ≠ o.stack + nbStackPages ssize * 0x1000
  | .shmCreate t (some key) offers => ¬ (m.hashGet key).isSome →
      ∀ a, offers.head? = some a → ∀ i, m.allocateMemory = some i →
        ∀ u < m.fresh, m.Live u → (u = t → i ≠ 0) → m.userFrame u 0xfff00000 ≠ some a
  | .shmRelease _ none _ => False
  | _ => True

theorem userFrame_page {w : Nat} (h : v / 0x1000 = w / 0x1000) :
    space.userFrame v = space.userFrame w := by
  obtain ⟨hd, ht⟩ := same_page.mpr h
  unfold Space.userFrame Dir.entry
  rw [hd, ht]

theorem not_inside {s : Frames} {a : Nat} {rest : List (Nat × Nat)} (hv : s.Valid)
    (hp : s.live.Perm (space.blocks ++ rest)) (ha : (a, 1) ∈ rest) : ¬ space.Inside a := by
  have hap := (List.pairwise_append.mp ((hp.pairwise_iff Apart.symm).mp hv.apart)).2.2
  have hcode := hap (space.codePages, space.nbCodePages) (by simp [Space.blocks]) (a, 1) ha
  have hstack := hap (space.stackPages, space.nbStackPages) (by simp [Space.blocks]) (a, 1) ha
  unfold Apart at hcode hstack
  unfold Space.Inside
  simp only at hcode hstack
  omega

theorem Books.space_perm (hb : Books m lost) (hs : m.spaces t = some space) :
    ∃ rest, m.frames.live.Perm (space.blocks ++ rest) ∧ ∀ a ∈ m.shared, a ∈ rest := by
  refine ⟨_, (hb.live.trans ((ofTasks_freed (hb.lt hs) hs).append_right _)).trans
    (.of_eq (List.append_assoc ..)), fun a ha => ?_⟩
  exact List.mem_append_right _ (List.mem_append_left _ ha)

theorem Books.one_frame {shp' : Shp} (hb : Books m lost) (hm : shp ∈ m.shpTable)
    (hm' : shp' ∈ m.shpTable) (h : shp'.physicalAddress = shp.physicalAddress) : shp' = shp := by
  have hnd : m.shared.Nodup :=
    (List.nodup_append.mp (List.nodup_append.mp (hb.live.nodup_iff.mp hb.valid.nodup)).2.1).1
  exact List.inj_on_of_nodup_map hnd hm' hm (by rw [h])

theorem Change.exclusive (hb : Books m lost) (hmaps : Maps True m) (hun : Unshared m e)
    (hx : Exclusive m) (h : Change m e m') : Exclusive m' := by
  cases h with
  | @started code ssize o space s hstarted hv hp =>
    intro u space₁ v h₁ hz shp hshp hf
    by_cases hu : u = m.fresh
    · rw [hu] at h₁
      cases (Function.update_self ..).symm.trans h₁
      rcases hstarted.maps v _ hf with hin | ⟨_, hbehind, hmod⟩
      · exact absurd hin (not_inside hv hp (hb.frame_live hshp))
      · refine absurd ?_ (hun hmod shp hshp)
        rw [hbehind]
        unfold Space.behind
        rw [hstarted.stackPages, hstarted.nbStack]
    · exact hx u space₁ v ((Function.update_of_ne hu ..).symm.trans h₁) hz shp hshp hf
  | @terminated e t offers hl =>
    intro u space₁ v h₁ hz shp hshp hf
    have hu : u ≠ t := by
      rintro rfl
      cases (Function.update_self ..).symm.trans hz
    exact hx u space₁ v h₁ ((Function.update_of_ne hu ..).symm.trans hz) shp hshp hf
  | @freed t space s heap hs hz hp hq =>
    intro u space₁ v h₁ hz₁ shp hshp hf
    have hu : u ≠ t := by
      rintro rfl
      cases (Function.update_self ..).symm.trans h₁
    exact hx u space₁ v ((Function.update_of_ne hu ..).symm.trans h₁) hz₁ shp hshp hf
  | same offers => exact hx
  | lost hv hl => exact hx
  | @created t key offers a i space space' s₁ s hlive hs hkey hslot hhead hv hl hr =>
    have hfresh : ∀ shp ∈ m.shpTable, shp.physicalAddress ≠ a := by
      intro shp hshp ha
      have hnd := hv.nodup
      rw [hl] at hnd
      exact (List.nodup_cons.mp hnd).1 (ha ▸ hb.frame_live hshp)
    intro u space₁ v h₁ hz shp' hshp' hf
    rcases hr.cases hs h₁ hf with ⟨rfl, hpage, htarget⟩ | ⟨space₀, h₀, hf₀, hin, hbehind, hother⟩
    · rcases List.mem_cons.mp hshp' with rfl | hshp'
      · exact ⟨List.mem_cons_self, hpage⟩
      · exact absurd (Option.some.inj htarget).symm (hfresh shp' hshp')
    · rcases List.mem_cons.mp hshp' with rfl | hshp'
      · obtain ⟨rest, hp, _⟩ := hb.space_perm h₀
        have hp₁ : s₁.live.Perm (space₀.blocks ++ (a, 1) :: rest) := by
          rw [hl]
          exact (hp.cons _).trans List.perm_middle.symm
        rcases hmaps u space₀ v a h₀ hf₀ with h | ⟨_, hpage, _⟩ | ⟨shp', hshp', _, hphys, _⟩
        · exact absurd h (not_inside hv hp₁ List.mem_cons_self)
        · refine absurd ?_ (hun hkey a hhead i hslot u (hb.lt h₀) ⟨Option.isSome_of_eq_some h₀, hz⟩
            fun hu hi => hother hu ?_)
          · unfold Mem.userFrame
            rw [h₀, Option.bind_some, userFrame_page (w := v) hpage.symm]
            exact hf₀
          · rw [hpage, slot_page.1, hi]
        · exact absurd hphys.symm (hfresh shp' hshp')
      · obtain ⟨hheld, hpage⟩ := hx u space₀ v h₀ hz shp' hshp' hf₀
        exact ⟨List.mem_cons_of_mem _ hheld, hpage⟩
  | @acquired t key offers shp space space' s hlive hs hshp hk hr =>
    intro u space₁ v h₁ hz shp' hshp' hf
    obtain ⟨old, hold, hkey, hva, hphys, _⟩ := mem_setRefcount hshp'
    rw [hphys] at hf
    rw [hkey, hva]
    rcases hr.cases hs h₁ hf with ⟨rfl, hpage, htarget⟩ | ⟨space₀, h₀, hf₀, _, _, _⟩
    · have hsame := hb.one_frame hshp hold (Option.some.inj htarget).symm
      rw [hsame, hk]
      exact ⟨List.mem_cons_self, hpage⟩
    · obtain ⟨hheld, hpage⟩ := hx u space₀ v h₀ hz old hold hf₀
      exact ⟨List.mem_cons_of_mem _ hheld, hpage⟩
  | @released t key inPage shp space space' zombie hlive hs hshp hk hheld hmore hzombie hr =>
    intro u space₁ v h₁ hz shp' hshp' hf
    have hz := hzombie u hz
    obtain ⟨old, hold, hkey, hva, hphys, _⟩ := mem_setRefcount hshp'
    rw [hphys] at hf
    rw [hkey, hva]
    rcases hr.cases hs h₁ hf with ⟨_, _, htarget⟩ | ⟨space₀, h₀, hf₀, _, _, hother⟩
    · cases htarget
    · obtain ⟨hheld', hpage⟩ := hx u space₀ v h₀ hz old hold hf₀
      exact ⟨hb.still_held hshp hk hold hheld' fun hu => hpage ▸ hother hu, hpage⟩
  | @returned t key shp space space' s i hlive hs hshp hk hheld hone hslot hr hfree =>
    intro u space₁ v h₁ hz shp' hshp' hf
    obtain ⟨hold, _⟩ := mem_filter.mp hshp'
    rcases hr.cases hs h₁ hf with ⟨_, _, htarget⟩ | ⟨space₀, h₀, hf₀, _, _, hother⟩
    · cases htarget
    · obtain ⟨hheld', hpage⟩ := hx u space₀ v h₀ hz shp' hold hf₀
      exact ⟨hb.still_held hshp hk hold hheld' fun hu => hpage ▸ hother hu, hpage⟩

section Freed

structure FreedUnused (m : Mem) (e : Event) (m' : Mem) : Prop where
  noReference : ∀ t key inPage, e = .shmRelease t key inPage →
    (∀ k, key = some k → (t, k) ∉ m.held) → m' = m
  frame : ∀ shp ∈ m.shpTable, (shp.physicalAddress, 1) ∉ m'.frames.live →
    ∀ t v, m'.Live t → m'.userFrame t v ≠ some shp.physicalAddress
  slot : ∀ shp ∈ m.shpTable, ∀ i, shp.virtualAddress = slotAddress i → m'.virtualMap i = false →
    ∀ t v, m'.Live t → m'.userFrame t v ≠ some shp.physicalAddress

/-- Keys are released by holders and are not NULL, and the frame behind a stack is not shared. -/
def Guarded (m : Mem) (e : Event) : Prop := Counted m e ∧ Unshared m e

/-- An entry stays, or it has been released by its last holder and no task maps its frame. -/
theorem Change.entry (hb : Books m lost) (hx : Exclusive m) (h : Change m e m')
    (hshp : shp ∈ m.shpTable) :
    (∃ new ∈ m'.shpTable, new.physicalAddress = shp.physicalAddress ∧
      new.virtualAddress = shp.virtualAddress) ∨
    ∀ t v, m'.Live t → m'.userFrame t v ≠ some shp.physicalAddress := by
  cases h with
  | started _ _ _ => exact Or.inl ⟨shp, hshp, rfl, rfl⟩
  | terminated offers _ => exact Or.inl ⟨shp, hshp, rfl, rfl⟩
  | freed _ _ _ _ => exact Or.inl ⟨shp, hshp, rfl, rfl⟩
  | same offers => exact Or.inl ⟨shp, hshp, rfl, rfl⟩
  | lost _ _ => exact Or.inl ⟨shp, hshp, rfl, rfl⟩
  | created _ _ _ _ _ _ _ _ => exact Or.inl ⟨shp, List.mem_cons_of_mem _ hshp, rfl, rfl⟩
  | @acquired t key offers shp' space space' s _ _ _ _ _ =>
    obtain ⟨new, hnew, _, hva, hphys⟩ := mem_setRefcount_of key (shp'.refcount + 1) hshp
    exact Or.inl ⟨new, hnew, hphys, hva⟩
  | @released t key inPage shp' space space' zombie _ _ _ _ _ _ _ _ =>
    obtain ⟨new, hnew, _, hva, hphys⟩ := mem_setRefcount_of key (shp'.refcount - 1) hshp
    exact Or.inl ⟨new, hnew, hphys, hva⟩
  | @returned t key shp' space space' s i hlive hs hshp' hk hheld hone hslot hr hfree =>
    by_cases hkey : shp.key = key
    · right
      obtain rfl := hb.unique hshp hshp' (hkey.trans hk.symm)
      have hrefs : m.refs key = 1 := by
        rw [← hk, ← hb.counts shp hshp, hone]
      rintro u v ⟨hsome, hz⟩ hf
      obtain ⟨space₁, h₁⟩ := Option.isSome_iff_exists.mp hsome
      unfold Mem.userFrame at hf
      rw [h₁, Option.bind_some] at hf
      rcases hr.cases hs h₁ hf with ⟨_, _, htarget⟩ | ⟨space₀, h₀, hf₀, _, _, hother⟩
      · cases htarget
      · obtain ⟨hheld', hpage⟩ := hx u space₀ v h₀ hz shp hshp hf₀
        exact hother (sole_holder hrefs hheld (hk ▸ hheld')) hpage
    · exact Or.inl ⟨shp, mem_filter.mpr ⟨hshp, hkey⟩, rfl, rfl⟩

theorem shmRelease_unregistered {inPage : Bool} (hl : m.Live t) (hg : ¬ (m.hashGet key).isSome)
    (h : m.step (.shmRelease t (some key) inPage) = .ok m') : m' = m := by
  simp only [Mem.step, if_pos hl, Mem.shmRelease, Option.not_isSome_iff_eq_none.mp hg] at h
  exact (Except.ok.inj h).symm

/-- In a run of guarded steps a release without a reference does nothing, and what is given back
is mapped by nobody. -/
theorem freed_unused (h : Run Guarded m) (he : Guarded m e) (hstep : m.step e = .ok m') :
    FreedUnused m e m' := by
  have main : (∃ lost, Books m lost) ∧ Maps True m ∧ Exclusive m := by
    refine h.invariant (I := fun m => (∃ lost, Books m lost) ∧ Maps True m ∧ Exclusive m) ?_
      fun m m' ⟨⟨lost, hb⟩, hm, hx⟩ ⟨e, he, hstep⟩ => ?_
    · rintro _ ⟨early, rfl⟩
      exact ⟨⟨[], boot_books⟩, nofun, nofun⟩
    · have hchange := step_change hb he.1 hstep
      have hfits : Fits True e := by
        unfold Fits
        split
        · exact Or.inl trivial
        · trivial
      exact ⟨hchange.books hb, hchange.maps hb hfits hm, hchange.exclusive hb hm he.2 hx⟩
  obtain ⟨⟨lost, hb⟩, hm, hx⟩ := main
  have hchange := step_change hb he.1 hstep
  obtain ⟨lost', hb'⟩ := hchange.books hb
  refine ⟨?_, fun shp hshp hgone => ?_, fun shp hshp i hva hfree => ?_⟩
  · rintro t key inPage rfl hno
    cases key with
    | none => exact he.2.elim
    | some key =>
      have hl : m.Live t := by
        by_contra hl
        simp only [Mem.step, if_neg hl] at hstep
        cases hstep
      exact shmRelease_unregistered hl (fun hg => hno key rfl (he.1 hg)) hstep
  · rcases hchange.entry hb hx hshp with ⟨new, hnew, hphys, _⟩ | hnone
    · exact absurd (hphys ▸ hb'.frame_live hnew) hgone
    · exact hnone
  · rcases hchange.entry hb hx hshp with ⟨new, hnew, _, hva'⟩ | hnone
    · have htaken := (hb'.slots i).mpr ⟨new, hnew, hva'.trans hva⟩
      rw [hfree] at htaken
      cases htaken
    · exact hnone

section Decide

theorem unshared_iff : Unshared m e ↔
    (match e with
      | .start _ ssize o => decide (realSize ssize % 0x1000 ≠ 0 → ∀ shp ∈ m.shpTable,
          shp.physicalAddress ≠ o.stack + nbStackPages ssize * 0x1000)
      | .shmCreate t (some key) offers => decide (¬ (m.hashGet key).isSome →
          ∀ a, offers.head? = some a → ∀ i, m.allocateMemory = some i →
            ∀ u < m.fresh, m.Live u → (u = t → i ≠ 0) → m.userFrame u 0xfff00000 ≠ some a)
      | .shmRelease _ none _ => false
      | _ => true) = true := by
  unfold Unshared
  split
  · exact decide_eq_true_iff.symm
  · exact decide_eq_true_iff.symm
  · simp
  · simp

instance : Decidable (Unshared m e) := decidable_of_iff _ unshared_iff.symm

instance : Decidable (Guarded m e) := inferInstanceAs (Decidable (_ ∧ _))

end Decide

def threeTasks : List Event :=
  [startIdle,
    .start 100 1022 ⟨0x4008000, 0x4009000, [0x400a000], 0x400c000, [0x400b000]⟩,
    .start 100 1022 ⟨0x400e000, 0x400f000, [0x4010000], 0x4012000, [0x4011000]⟩]

/-- The creator releases the page that another has acquired and released. -/
theorem freed_unused_two : ∃ m m', (m.shpTable.map Shp.physicalAddress) = [0x4014000] ∧
    m'.shpTable.length = 0 ∧ FreedUnused m (.shmRelease 1 (some "k") false) m' := by
  have hrun : Ends (exec (allowing Guarded .disabled Mem.step) (threeTasks ++
      [.shmCreate 1 (some "k") [0x4014000], .shmAcquire 2 (some "k") [], .shmRelease 2 (some "k") true])
      (Mem.boot anEarlyMem)) fun m => (m.shpTable.map Shp.physicalAddress) = [0x4014000] ∧
        Guarded m (.shmRelease 1 (some "k") false) ∧
        Ends (m.step (.shmRelease 1 (some "k") false)) fun m' => m'.shpTable.length = 0 := by
    decide +kernel
  obtain ⟨m, hm, htable, hg, hend⟩ := hrun.elim
  obtain ⟨m', hm', htable'⟩ := hend.elim
  exact ⟨m, m', htable, htable', freed_unused (Run.replayed hm) hg hm'⟩

/-- A page is freed by one who has never acquired it, and its creator maps it still. -/
theorem released_by_stranger : ∃ m m', exec Mem.step (threeTasks ++
      [.shmCreate 1 (some "k") [0x4014000]]) (Mem.boot anEarlyMem) = .ok m ∧
    m.step (.shmRelease 2 (some "k") false) = .ok m' ∧ (2, "k") ∉ m.held ∧ m'.Live 1 ∧
    (0x4014000, 1) ∉ m'.frames.live ∧ m'.userFrame 1 0xfff00000 = some 0x4014000 ∧
    ¬ FreedUnused m (.shmRelease 2 (some "k") false) m' := by
  have hrun : Ends (exec Mem.step (threeTasks ++ [.shmCreate 1 (some "k") [0x4014000]])
      (Mem.boot anEarlyMem)) fun m => (2, "k") ∉ m.held ∧
        m.shpTable.map Shp.physicalAddress = [0x4014000] ∧
        Ends (m.step (.shmRelease 2 (some "k") false)) fun m' => m'.Live 1 ∧
          (0x4014000, 1) ∉ m'.frames.live ∧ m'.userFrame 1 0xfff00000 = some 0x4014000 := by
    decide +kernel
  obtain ⟨m, hm, hheld, htable, hend⟩ := hrun.elim
  obtain ⟨m', hm', hl, hgone, hmap⟩ := hend.elim
  refine ⟨m, m', hm, hm', hheld, hl, hgone, hmap, fun h => ?_⟩
  obtain ⟨shp, hshp, hphys⟩ : ∃ shp ∈ m.shpTable, shp.physicalAddress = 0x4014000 := by
    refine List.mem_map.mp ?_
    rw [htable]
    exact List.mem_singleton_self _
  exact h.frame shp hshp (hphys ▸ hgone) 1 _ hl (hphys ▸ hmap)

end Freed

section References

/-- The last reference to an entry is not released by a key whose string is in its page. -/
def KeyOutside (m : Mem) (e : Event) : Prop :=
  match e with
  | .shmRelease _ (some key) true => ∀ shp, m.hashGet key = some shp → shp.refcount ≠ 1
  | _ => True

/-- The entries follow the references that have been taken and not released. -/
structure Follows (m : Mem) : Prop where
  count : ∀ shp ∈ m.shpTable, shp.refcount = m.refs shp.key
  one : (m.shpTable.map Shp.key).Nodup
  entry : ∀ key, (m.hashGet key).isSome ↔ 0 < m.refs key
  frame : ∀ shp ∈ m.shpTable, (shp.physicalAddress, 1) ∈ m.frames.live
  slot : ∀ shp ∈ m.shpTable, ∃ i < pageMax, shp.virtualAddress = slotAddress i
  slots : ∀ i, m.virtualMap i = true ↔ ∃ shp ∈ m.shpTable, shp.virtualAddress = slotAddress i
  given : ∀ e m', Counted m e → KeyOutside m e → m.step e = .ok m' → ∀ shp ∈ m.shpTable,
    m'.refs shp.key = 0 → (shp.physicalAddress, 1) ∉ m'.frames.live

def HoldersRelease (m : Mem) (e : Event) : Prop :=
  match e with
  | .shmRelease t key _ => ∃ k, key = some k ∧ (t, k) ∈ m.held
  | _ => True

def Countable (m : Mem) (e : Event) : Prop :=
  match e with
  | .shmAcquire _ (some key) _ => m.refs key + 1 < 2 ^ 64
  | _ => True

theorem HoldersRelease.counted (hb : Books m lost) (h : HoldersRelease m e) (hc : Countable m e) :
    Counted m e := by
  unfold Counted
  split
  · intro shp hget
    obtain ⟨hm, hk⟩ := hashGet_some hget
    rw [hb.counts shp hm, hk]
    exact hc
  · intro _
    obtain ⟨k, hk, hheld⟩ := h
    cases hk
    exact hheld
  · trivial

def Alive (m : Mem) : Prop := ∀ shp ∈ m.shpTable, 0 < shp.refcount

theorem Change.alive (hb : Books m lost) (ha : Alive m) (ho : KeyOutside m e) (h : Change m e m') :
    Alive m' := by
  cases h with
  | started _ _ _ => exact ha
  | terminated offers _ => exact ha
  | freed _ _ _ _ => exact ha
  | same offers => exact ha
  | lost _ _ => exact ha
  | created _ _ _ _ _ _ _ _ => exact List.forall_mem_cons.mpr ⟨Nat.one_pos, ha⟩
  | @acquired t key offers shp space space' s _ _ _ _ _ =>
    intro new hnew
    obtain ⟨old, hold, _, _, _, hcount⟩ := mem_setRefcount hnew
    rw [hcount]
    split
    · exact Nat.succ_pos _
    · exact ha old hold
  | @released t key inPage shp space space' zombie _ _ hshp hk _ hmore _ _ =>
    intro new hnew
    obtain ⟨old, hold, _, _, _, hcount⟩ := mem_setRefcount hnew
    rw [hcount]
    split
    · rcases hmore with hmore | ⟨hone, rfl⟩
      · omega
      · obtain ⟨shp', hget⟩ := Option.isSome_iff_exists.mp (hashGet_of_mem hshp hk)
        obtain ⟨hm', hk'⟩ := hashGet_some hget
        have hsame := hb.unique hm' hshp (hk'.trans hk.symm)
        exact absurd hone (hsame ▸ ho shp' hget)
    · exact ha old hold
  | returned _ _ _ _ _ _ _ _ _ => exact fun shp hshp => ha shp (mem_filter.mp hshp).1

theorem Books.entry (hb : Books m lost) (ha : Alive m) :
    (m.hashGet key).isSome ↔ 0 < m.refs key := by
  constructor
  · intro h
    obtain ⟨shp, hget⟩ := Option.isSome_iff_exists.mp h
    obtain ⟨hm, hk⟩ := hashGet_some hget
    rw [← hk, ← hb.counts shp hm]
    exact ha shp hm
  · intro h
    obtain ⟨r, hr, hkey⟩ := List.countP_pos_iff.mp h
    obtain ⟨shp, hm, hk⟩ := hb.registered r hr
    exact hashGet_of_mem hm (hk.trans (of_decide_eq_true hkey))

theorem Change.given (hb : Books m lost) (ha : Alive m) (ho : KeyOutside m e) (h : Change m e m')
    (hshp : shp ∈ m.shpTable) (hnone : m'.refs shp.key = 0) :
    (shp.physicalAddress, 1) ∉ m'.frames.live := by
  obtain ⟨lost', hb'⟩ := h.books hb
  have ha' := h.alive hb ha ho
  have hkept (hm : ∃ new ∈ m'.shpTable, new.key = shp.key) : False := by
    obtain ⟨new, hnew, hk⟩ := hm
    have hcount := hb'.counts new hnew
    rw [hk, hnone] at hcount
    exact (ha' new hnew).ne' hcount
  cases h with
  | started _ _ _ => exact (hkept ⟨shp, hshp, rfl⟩).elim
  | terminated offers _ => exact (hkept ⟨shp, hshp, rfl⟩).elim
  | freed _ _ _ _ => exact (hkept ⟨shp, hshp, rfl⟩).elim
  | same offers => exact (hkept ⟨shp, hshp, rfl⟩).elim
  | lost _ _ => exact (hkept ⟨shp, hshp, rfl⟩).elim
  | created _ _ _ _ _ _ _ _ => exact (hkept ⟨shp, List.mem_cons_of_mem _ hshp, rfl⟩).elim
  | @acquired t key offers shp' space space' s _ _ _ _ _ =>
    obtain ⟨new, hnew, hk, _⟩ := mem_setRefcount_of key (shp'.refcount + 1) hshp
    exact (hkept ⟨new, hnew, hk⟩).elim
  | @released t key inPage shp' space space' zombie _ _ _ _ _ _ _ _ =>
    obtain ⟨new, hnew, hk, _⟩ := mem_setRefcount_of key (shp'.refcount - 1) hshp
    exact (hkept ⟨new, hnew, hk⟩).elim
  | @returned t key shp' space space' s i hlive hs hshp' hk hheld hone hslot hr hfree =>
    by_cases hkey : shp.key = key
    · obtain rfl := hb.unique hshp hshp' (hkey.trans hk.symm)
      rw [hfree]
      exact hb.valid.nodup.not_mem_erase
    · exact (hkept ⟨shp, mem_filter.mpr ⟨hshp, hkey⟩, rfl⟩).elim

theorem Books.follows (hb : Books m lost) (ha : Alive m) : Follows m where
  count := hb.counts
  one := hb.keys
  entry _ := hb.entry ha
  frame _ hshp := hb.frame_live hshp
  slot := hb.slot
  slots := hb.slots
  given _ _ hc ho hstep _ hshp hnone := (step_change hb hc hstep).given hb ha ho hshp hnone

/-- Holders release, the last of them not by a key in the page, and the references to a key can be
counted. -/
def Released (m : Mem) (e : Event) : Prop := HoldersRelease m e ∧ KeyOutside m e ∧ Countable m e

section Decide

theorem holdersRelease_iff : HoldersRelease m e ↔
    (match e with
      | .shmRelease t (some key) _ => decide ((t, key) ∈ m.held)
      | .shmRelease _ none _ => false
      | _ => true) = true := by
  cases e with
  | shmRelease t key inPage => cases key <;> simp [HoldersRelease]
  | _ => simp [HoldersRelease]

instance : Decidable (HoldersRelease m e) := decidable_of_iff _ holdersRelease_iff.symm

theorem countable_iff : Countable m e ↔
    (match e with
      | .shmAcquire _ (some key) _ => decide (m.refs key + 1 < 2 ^ 64)
      | _ => true) = true := by
  cases e with
  | shmAcquire t key offers => cases key <;> simp [Countable]
  | _ => simp [Countable]

instance : Decidable (Countable m e) := decidable_of_iff _ countable_iff.symm

instance : Decidable (KeyOutside m e) := by
  unfold KeyOutside
  split <;> infer_instance

instance : Decidable (Released m e) := inferInstanceAs (Decidable (_ ∧ _))

end Decide

section Overflow

theorem mapShp_mapped (m : Mem) (shp : Shp) {table : Table} {i : Nat} (hi : i < pageMax) (hs : m.spaces t = some space)
    (hslot : shp.virtualAddress = slotAddress i)
    (hd : space.dir (pdIndex (slotAddress i)) = some table) : ∃ dir table',
    m.mapShp t shp = .ok (m.setSpace t { space with dir := dir }) ∧
      dir (pdIndex (slotAddress i)) = some table' := by
  have halign : align (slotAddress i) = slotAddress i := by
    unfold align slotAddress sharedStart pageSize
    omega
  have hturns : turns (align (slotAddress i)) (alignUp (slotAddress i + pageSize - 1)) = 1 := by
    rw [turns_pages slot_page.2.ge, slot_page.2, Nat.sub_self]
  have hsize (a : Nat) : ((a + pageSize - 1 : Nat) : Int) - a = 0xfff := by
    unfold pageSize
    omega
  have hmod : slotAddress i % 2 ^ 32 = slotAddress i := by
    unfold pageMax at hi
    unfold slotAddress sharedStart pageSize
    omega
  refine ⟨Function.update space.dir (pdIndex (slotAddress i))
    (some (table.set (ptIndex (slotAddress i))
      (some ⟨align shp.physicalAddress % 2 ^ 32, ⟨true, true⟩⟩))), _, ?_,
    Function.update_self ..⟩
  unfold Mem.mapShp mapZone
  rw [hs, hslot, hturns, hsize, hsize, halign]
  simp only [mapPages, hmod, mapPage, hd, ok_bind]
  rfl

structure Taken (m : Mem) (n : Nat) : Prop where
  live : m.Live 1
  mapped : ∃ space table, m.spaces 1 = some space ∧ space.dir (pdIndex (slotAddress 0)) = some table
  entry : ∃ a, m.shpTable = [⟨a, slotAddress 0, n % 2 ^ 64, "k"⟩]
  refs : m.refs "k" = n

theorem Taken.again {n : Nat} (h : Taken m n) :
    ∃ m', m.step (.shmAcquire 1 (some "k") []) = .ok m' ∧ Taken m' (n + 1) := by
  obtain ⟨space, table, hs, hd⟩ := h.mapped
  obtain ⟨a, htable⟩ := h.entry
  have hget : (m.withFrames (m.frames.offer [])).hashGet "k" =
      some ⟨a, slotAddress 0, n % 2 ^ 64, "k"⟩ := by
    unfold Mem.hashGet Mem.withFrames
    rw [htable]
    rfl
  obtain ⟨dir, table', hmap, hd'⟩ := mapShp_mapped (t := 1)
    ((m.withFrames (m.frames.offer [])).setRefcount "k" ((n % 2 ^ 64 + 1) % 2 ^ 64))
    ⟨a, slotAddress 0, n % 2 ^ 64, "k"⟩ (by decide) hs rfl hd
  have hspace : Function.update m.spaces 1 (some { space with dir := dir }) 1 =
      some { space with dir := dir } := Function.update_self ..
  refine ⟨{ ((m.withFrames (m.frames.offer [])).setRefcount "k" ((n % 2 ^ 64 + 1) % 2 ^ 64)).setSpace 1
    { space with dir := dir } with held := (1, "k") :: m.held }, ?_, ⟨Option.isSome_of_eq_some hspace, h.live.2⟩, ⟨_, table', hspace, hd'⟩, ⟨a, ?_⟩, ?_⟩
  · simp only [Mem.step, if_pos h.live, Mem.shmAcquire, hget, hmap, ok_bind]
    rfl
  · have hn : (n % 2 ^ 64 + 1) % 2 ^ 64 = (n + 1) % 2 ^ 64 := by omega
    change (m.shpTable.map fun shp =>
      if shp.key = "k" then { shp with refcount := (n % 2 ^ 64 + 1) % 2 ^ 64 } else shp) = _
    rw [htable, hn]
    rfl
  · rw [refs_cons "k" (show _ = (1, "k") :: m.held from rfl), if_pos rfl, h.refs]

end Overflow

end References

end DominOS.AddressSpaces
