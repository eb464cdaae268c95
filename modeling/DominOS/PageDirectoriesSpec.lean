import DominOS.PageDirectories

/-! Each directory is charged for its frame and its tables, whatever happens to the others, and they
are what its end gives back. -/
namespace DominOS.PageDirectories
open Paging Fallible Runs

variable {early : EarlyMem} {w w' v : World} {s s' r : Frames} {dir dir' : Dir} {flags : Flags}
  {d n a virt phys virtEnd phyEnd i : Nat} {e : Event} {o o' : Owner}

section Zones

theorem zone_own (hs : UserAddr virt) (he : UserAddr virtEnd) {u : Nat}
    (hu : Within (align virt) (turns (align virt) (alignUp virtEnd)) u) : Own u := by
  have hstart : align virt / 0x1000 = virt / 0x1000 := by
    rw [align_page]
    omega
  unfold UserAddr at hs he
  unfold Within at hu
  rw [hstart] at hu
  apply own_iff.mpr
  by_cases hle : virt / 0x1000 ≤ virtEnd / 0x1000
  · rw [turns_pages hle] at hu
    omega
  · have hnone : turns (align virt) (alignUp virtEnd) = 0 := by
      unfold turns
      rw [align_page, alignUp_page, if_neg (by omega)]
    omega

theorem mapZone_pages (h : mapZone virt virtEnd phys phyEnd flags dir s = .ok (dir', s')) :
    mapPages flags (turns (align virt) (alignUp virtEnd)) (align virt) (align phys) dir s = .ok (dir', s') := by
  unfold mapZone at h
  split at h
  · cases h
  · exact h

theorem mapPage_low (hi : i ≠ pdIndex virt) (h : mapPage virt phys flags dir s = .ok (dir', s')) :
    dir' i = dir i := by
  unfold mapPage at h
  split at h
  · cases h
    exact Function.update_of_ne hi ..
  · obtain ⟨_, _, hrest⟩ := bind_ok.mp h
    cases hrest
    exact Function.update_of_ne hi ..

theorem mapPages_low (hv : ∀ u, Within virt n u → Own u) (hi : i < 64)
    (h : mapPages flags n virt phys dir s = .ok (dir', s')) : dir' i = dir i := by
  induction n generalizing virt phys dir s with
  | zero =>
    cases h
    rfl
  | succ n ih =>
    obtain ⟨⟨dir₁, s₁⟩, hpage, hrest⟩ := bind_ok.mp h
    have hown := hv virt (by unfold Within; omega)
    have hlt := (own_iff.mp hown).2
    rw [Nat.mod_eq_of_lt (show virt < 2 ^ 32 from hlt)] at hpage
    have hne : i ≠ pdIndex virt := by
      have := hown.1
      omega
    rw [ih (fun u hu => hv u ?_) hrest, mapPage_low hne hpage]
    unfold Within pageSize at hu
    unfold Within
    omega

theorem unmapPages_low (hv : ∀ u, Within virt n u → Own u) (hi : i < 64) :
    unmapPages n virt dir i = dir i := by
  induction n generalizing virt dir with
  | zero => rfl
  | succ n ih =>
    have hown := hv virt (by unfold Within; omega)
    have hne : i ≠ pdIndex virt := by
      have := hown.1
      omega
    have hpage : unmapPage virt dir i = dir i := by
      unfold unmapPage
      cases dir (pdIndex virt) with
      | none => rfl
      | some table => exact Function.update_of_ne hne ..
    change unmapPages n (virt + pageSize) (unmapPage virt dir) i = dir i
    rw [ih fun u hu => hv u ?_, hpage]
    unfold Within pageSize at hu
    unfold Within
    omega

theorem alloc_part {x : Nat} (h : s.alloc n = .ok (x, s')) (hr : ∀ b ∈ r.live, b ∈ s.live)
    (ho : r.offers = s.offers) :
    r.alloc n = .ok (x, ⟨(x, n) :: r.live, s'.offers⟩) ∧ s'.live = (x, n) :: s.live := by
  unfold Frames.alloc at h
  split at h
  · cases h
  rename_i hn
  split at h
  · cases h
  rename_i a offers hoffers
  split at h
  · rename_i hadm
    cases h
    refine ⟨?_, rfl⟩
    unfold Frames.alloc
    rw [if_neg hn, ho, hoffers]
    exact if_pos ⟨hadm.1, hadm.2.1, hadm.2.2.1, fun b hb => hadm.2.2.2 b (hr b hb)⟩
  · cases h

theorem mapPages_part (h : mapPages flags n virt phys dir s = .ok (dir', s'))
    (hr : ∀ b ∈ r.live, b ∈ s.live) (ho : r.offers = s.offers) :
    ∃ new, mapPages flags n virt phys dir r = .ok (dir', ⟨new ++ r.live, s'.offers⟩) ∧
      s'.live = new ++ s.live := by
  induction n generalizing virt phys dir s r with
  | zero =>
    cases h
    refine ⟨[], ?_, rfl⟩
    obtain ⟨live, offers⟩ := r
    cases ho
    rfl
  | succ n ih =>
    obtain ⟨⟨dir₁, s₁⟩, hpage, hrest⟩ := bind_ok.mp h
    unfold mapPage at hpage
    split at hpage
    · rename_i table hd
      cases hpage
      obtain ⟨new, hnew, hlive⟩ := ih hrest hr ho
      refine ⟨new, ?_, hlive⟩
      unfold mapPages mapPage
      rw [hd]
      exact hnew
    · rename_i hd
      obtain ⟨⟨pt, s₂⟩, halloc, heq⟩ := bind_ok.mp hpage
      cases heq
      obtain ⟨halloc', hlive₁⟩ := alloc_part halloc hr ho
      have hr₁ : ∀ b ∈ (⟨(pt, 1) :: r.live, s₁.offers⟩ : Frames).live, b ∈ s₁.live := by
        rw [hlive₁]
        intro b hb
        rcases List.mem_cons.mp hb with rfl | hb
        · exact List.mem_cons_self
        · exact List.mem_cons_of_mem _ (hr b hb)
      obtain ⟨new, hnew, hlive⟩ := ih hrest hr₁ rfl
      refine ⟨new ++ [(pt, 1)], ?_, ?_⟩
      · unfold mapPages mapPage
        rw [hd]
        simp only [halloc', ok_bind]
        rw [hnew, List.append_assoc, List.singleton_append]
      · rw [hlive, hlive₁, List.append_assoc, List.singleton_append]

theorem mapZone_part (h : mapZone virt virtEnd phys phyEnd flags dir s = .ok (dir', s'))
    (hr : ∀ b ∈ r.live, b ∈ s.live) (ho : r.offers = s.offers) :
    ∃ new, mapZone virt virtEnd phys phyEnd flags dir r = .ok (dir', ⟨new ++ r.live, s'.offers⟩) ∧
      s'.live = new ++ s.live := by
  unfold mapZone at h ⊢
  split at h
  · cases h
  · rename_i hsize
    rw [if_neg hsize]
    exact mapPages_part h hr ho

end Zones

section Accounts

def World.others (d : Nat) (w : World) : List (Nat × Nat) :=
  w.frames.live.filter fun b => w.owner b ≠ .dir d

theorem owned_others (d : Nat) (w : World) : (w.owned (.dir d) ++ w.others d).Perm w.frames.live := by
  unfold World.owned World.others
  simp only [ne_eq, decide_not]
  exact List.filter_append_perm _ _

theorem mem_owned {b : Nat × Nat} : b ∈ w.owned o ↔ b ∈ w.frames.live ∧ w.owner b = o := by
  simp [World.owned]

theorem mem_others {b : Nat × Nat} : b ∈ w.others d ↔ b ∈ w.frames.live ∧ w.owner b ≠ .dir d := by
  simp [World.others]

theorem charge_owner_new {b : Nat × Nat} (hb : b ∈ s.live) (hnew : b ∉ w.frames.live) :
    (w.charge o s).owner b = o := if_pos ⟨hb, hnew⟩

theorem charge_owner_old {b : Nat × Nat} (hb : b ∈ w.frames.live) : (w.charge o s).owner b = w.owner b :=
  if_neg fun h => h.2 hb

/-- What has been allocated is charged to its owner, and nothing else changes hands. -/
theorem filter_charge {new : List (Nat × Nat)} (hv : s.Valid) (hl : s.live.Perm (new ++ w.frames.live))
    (p : Owner → Bool) : (s.live.filter fun b => p ((w.charge o s).owner b)).Perm
      ((if p o then new else []) ++ w.frames.live.filter fun b => p (w.owner b)) := by
  have hnd := List.nodup_append.mp (hl.nodup_iff.mp hv.nodup)
  have hnew (b : Nat × Nat) (hb : b ∈ new) : (w.charge o s).owner b = o :=
    charge_owner_new (hl.mem_iff.mpr (List.mem_append_left _ hb)) fun hold => hnd.2.2 b hb b hold rfl
  have hfilter : new.filter (fun b => p ((w.charge o s).owner b)) = if p o then new else [] := by
    by_cases hp : p o
    · rw [if_pos hp]
      exact List.filter_eq_self.mpr fun b hb => by rw [hnew b hb, hp]
    · rw [if_neg hp]
      exact List.filter_eq_nil_iff.mpr fun b hb => by rw [hnew b hb]; exact hp
  have hold : w.frames.live.filter (fun b => p ((w.charge o s).owner b)) =
      w.frames.live.filter fun b => p (w.owner b) :=
    List.filter_congr fun b hb => by rw [charge_owner_old hb]
  refine (hl.filter _).trans ?_
  rw [List.filter_append, hfilter, hold]

theorem filter_freed (hsub : ∀ b ∈ s.live, b ∈ w.frames.live) (p : Owner → Bool) :
    (s.live.filter fun b => p ((w.charge o s).owner b)) = s.live.filter fun b => p (w.owner b) :=
  List.filter_congr fun b hb => by rw [charge_owner_old (hsub b hb)]

structure Accounted (early : EarlyMem) (w : World) : Prop where
  valid : w.frames.Valid
  owned : ∀ d a dir, w.dirs d = some (a, dir) → (w.owned (.dir d)).Perm ((a, 1) :: ownTables dir)
  gone : ∀ d, w.dirs d = none → w.owned (.dir d) = []
  kernel : ∀ d a dir, w.dirs d = some (a, dir) → ∀ i < 64, dir i = some (early.table i)

theorem booted_accounted (h : Booted w) : Accounted early w := by
  obtain ⟨hv, hnone, hdata⟩ := h
  refine ⟨hv, fun d a dir hd => ?_, fun d _ => ?_, fun d a dir hd => ?_⟩
  · cases (hnone d).symm.trans hd
  · apply List.filter_eq_nil_iff.mpr
    intro b hb
    rw [hdata b hb]
    simp
  · cases (hnone d).symm.trans hd

theorem setDir_self (d : Nat) (x : Option (Nat × Dir)) : (w.setDir d x).dirs d = x := Function.update_self ..

theorem setDir_of_ne {d' : Nat} (h : d' ≠ d) (x : Option (Nat × Dir)) :
    (w.setDir d x).dirs d' = w.dirs d' := Function.update_of_ne h ..

theorem Accounted.setDir {x : Option (Nat × Dir)} (h : Accounted early w) (hs : s.Valid)
    (hother : ∀ d' ≠ d, ((w.charge (.dir d) s).owned (.dir d')).Perm (w.owned (.dir d')))
    (hown : ∀ a dir, x = some (a, dir) →
      ((w.charge (.dir d) s).owned (.dir d)).Perm ((a, 1) :: ownTables dir) ∧
        ∀ i < 64, dir i = some (early.table i))
    (hgone : x = none → (w.charge (.dir d) s).owned (.dir d) = []) :
    Accounted early ((w.charge (.dir d) s).setDir d x) where
  valid := hs
  owned d' a dir hd' := by
    by_cases hdd : d' = d
    · subst hdd
      exact (hown a dir ((setDir_self d' x).symm.trans hd')).1
    · exact (hother d' hdd).trans (h.owned d' a dir ((setDir_of_ne hdd x).symm.trans hd'))
  gone d' hd' := by
    by_cases hdd : d' = d
    · subst hdd
      exact hgone ((setDir_self d' x).symm.trans hd')
    · have hnone := h.gone d' ((setDir_of_ne hdd x).symm.trans hd')
      have hperm := hother d' hdd
      rw [hnone] at hperm
      exact hperm.eq_nil
  kernel d' a dir hd' := by
    by_cases hdd : d' = d
    · subst hdd
      exact (hown a dir ((setDir_self d' x).symm.trans hd')).2
    · exact h.kernel d' a dir ((setDir_of_ne hdd x).symm.trans hd')

theorem charge_self {new : List (Nat × Nat)} (hv : s.Valid) (hl : s.live.Perm (new ++ w.frames.live)) :
    ((w.charge o s).owned o).Perm (new ++ w.owned o) := by
  have h := filter_charge (o := o) hv hl fun x => decide (x = o)
  rwa [if_pos (decide_eq_true rfl)] at h

theorem charge_other {new : List (Nat × Nat)} (hv : s.Valid) (hl : s.live.Perm (new ++ w.frames.live))
    (ho : o ≠ o') : ((w.charge o s).owned o').Perm (w.owned o') := by
  have h := filter_charge (o := o) hv hl fun x => decide (x = o')
  rwa [if_neg (by simpa using ho), List.nil_append] at h

theorem charge_freed (hsub : ∀ b ∈ s.live, b ∈ w.frames.live) (o o' : Owner) :
    (w.charge o s).owned o' = s.live.filter fun b => w.owner b = o' :=
  filter_freed hsub fun x => decide (x = o')

theorem others_owned {d' : Nat} (h : d' ≠ d) :
    (w.others d).filter (fun b => w.owner b = .dir d') = w.owned (.dir d') := by
  unfold World.others World.owned
  rw [List.filter_filter]
  apply List.filter_congr
  intro b _
  by_cases hb : w.owner b = .dir d'
  · simp [hb, h]
  · simp [hb]

theorem charge_same : w.charge o w.frames = w := by
  obtain ⟨frames, dirs, owner⟩ := w
  simp [World.charge]

theorem Accounted.offer (h : Accounted early w) (offers : List Nat) : (w.frames.offer offers).Valid :=
  ⟨h.valid.apart, h.valid.pos, h.valid.aligned⟩

theorem Accounted.data (h : Accounted early w) (hs : s.Valid)
    (hsame : ∀ d, ((w.charge .data s).owned (.dir d)).Perm (w.owned (.dir d))) :
    Accounted early (w.charge .data s) where
  valid := hs
  owned d a dir hd := (hsame d).trans (h.owned d a dir hd)
  gone d hd := by
    have hperm := hsame d
    rw [h.gone d hd] at hperm
    exact hperm.eq_nil
  kernel := h.kernel

theorem Accounted.destroy (h : Accounted early w) (hd : w.dirs d = some (a, dir)) (hr : r.live.Perm w.frames.live) :
    ∃ s, pageDirectoryDestroy a dir r = .ok s ∧ s.live.Perm (w.others d) := by
  have hperm := (owned_others d w).symm.trans ((h.owned d a dir hd).append_right _)
  obtain ⟨s, hs, hlive, _⟩ := pageDirectoryDestroy_eq (hr.trans hperm)
  exact ⟨s, hs, hlive⟩

inductive Stepped (early : EarlyMem) (w : World) : Event → World → Prop
  | created {d a : Nat} {offers : List Nat} {s : Frames} :
      w.dirs d = none → (w.frames.offer offers).alloc 1 = .ok (a, s) → s.Valid →
      Stepped early w (.create d offers) ((w.charge (.dir d) s).setDir d (some (a, early.dir)))
  | mapped {d a virtStart virtEnd phyStart phyEnd : Nat} {flags : Flags} {offers : List Nat}
      {dir dir' : Dir} {s : Frames} {new : List (Nat × Nat)} :
      w.dirs d = some (a, dir) → UserAddr virtStart ∧ UserAddr virtEnd →
      mapZone virtStart virtEnd phyStart phyEnd flags dir (w.frames.offer offers) = .ok (dir', s) →
      s.Valid → Grown w.frames s dir dir' new → (∀ i < 64, dir' i = dir i) →
      Stepped early w (.map d virtStart virtEnd phyStart phyEnd flags offers)
        ((w.charge (.dir d) s).setDir d (some (a, dir')))
  | unmapped {d a virtStart virtEnd : Nat} {dir : Dir} :
      w.dirs d = some (a, dir) → UserAddr virtStart ∧ UserAddr virtEnd →
      Stepped early w (.unmap d virtStart virtEnd)
        (w.setDir d (some (a, unmapZone virtStart virtEnd dir)))
  | destroyed {d a : Nat} {dir : Dir} {s : Frames} :
      w.dirs d = some (a, dir) → s.live.Perm (w.others d) →
      Stepped early w (.destroy d) ((w.charge (.dir d) s).setDir d none)
  | allocated {n x : Nat} {offers : List Nat} {s : Frames} :
      (w.frames.offer offers).alloc n = .ok (x, s) → s.Valid →
      Stepped early w (.alloc n offers) (w.charge .data s)
  | freed {b : Nat × Nat} {s : Frames} :
      w.owner b = .data → b ∈ w.frames.live → s.live = w.frames.live.erase b →
      Stepped early w (.free b) (w.charge .data s)

theorem step_stepped (h : Accounted early w) (hs : w.step early e = .ok w') : Stepped early w e w' := by
  cases e with
  | create d offers =>
    simp only [World.step] at hs
    split at hs
    · cases hs
    rename_i hnone
    obtain ⟨⟨a, dir, s⟩, hcreate, heq⟩ := bind_ok.mp hs
    cases heq
    obtain ⟨⟨a', s'⟩, halloc, hrest⟩ := bind_ok.mp hcreate
    cases hrest
    exact .created hnone halloc ((h.offer offers).alloc halloc)
  | map d virtStart virtEnd phyStart phyEnd flags offers =>
    simp only [World.step] at hs
    split at hs
    · cases hs
    rename_i a dir hd
    split at hs
    · rename_i haddr
      obtain ⟨⟨dir', s⟩, hmap, heq⟩ := bind_ok.mp hs
      cases heq
      have hpages := mapZone_pages hmap
      obtain ⟨⟨new, hg⟩, _⟩ := mapPages_spec (fun u hu => zone_own haddr.1 haddr.2 hu) hpages
      exact .mapped hd haddr hmap (hg.valid (h.offer offers)) ⟨hg.live, hg.tables, fun _ => hg.valid (h.offer offers)⟩
        fun i hi => mapPages_low (fun u hu => zone_own haddr.1 haddr.2 hu) hi hpages
    · cases hs
  | unmap d virtStart virtEnd =>
    simp only [World.step] at hs
    split at hs
    · cases hs
    rename_i a dir hd
    split at hs
    · rename_i haddr
      cases hs
      exact .unmapped hd haddr
    · cases hs
  | destroy d =>
    simp only [World.step] at hs
    split at hs
    · cases hs
    rename_i a dir hd
    obtain ⟨s, hdestroy, heq⟩ := bind_ok.mp hs
    cases heq
    obtain ⟨s', hs', hlive⟩ := h.destroy hd (.refl _)
    cases hdestroy.symm.trans hs'
    exact .destroyed hd hlive
  | alloc n offers =>
    obtain ⟨⟨x, s⟩, halloc, heq⟩ := bind_ok.mp hs
    cases heq
    exact .allocated halloc ((h.offer offers).alloc halloc)
  | free b =>
    simp only [World.step] at hs
    split at hs
    · rename_i hdata
      obtain ⟨s, hfree, heq⟩ := bind_ok.mp hs
      cases heq
      obtain ⟨hmem, hlive⟩ := free_ok hfree
      exact .freed hdata hmem hlive
    · cases hs

theorem others_sub (hlive : s.live.Perm (w.others d)) : ∀ b ∈ s.live, b ∈ w.frames.live :=
  fun _ hb => (mem_others.mp (hlive.mem_iff.mp hb)).1

theorem step_accounted (h : Accounted early w) (hs : w.step early e = .ok w') : Accounted early w' := by
  cases step_stepped h hs with
  | @created d a offers s hnone halloc hv =>
    have hl : s.live.Perm ([(a, 1)] ++ w.frames.live) := .of_eq (alloc_ok halloc).1
    apply h.setDir hv
    · exact fun d' hdd => charge_other hv hl fun he => hdd (Owner.dir.inj he).symm
    · rintro _ _ ⟨⟩
      have hown := charge_self (o := .dir d) hv hl
      rw [h.gone d hnone] at hown
      refine ⟨?_, fun i hi => if_pos hi⟩
      rw [early_tables]
      exact hown
    · exact nofun
  | @mapped d a virtStart virtEnd phyStart phyEnd flags offers dir dir' s new hd _ _ hv hg hlow =>
    apply h.setDir hv
    · exact fun d' hdd => charge_other hv hg.live fun he => hdd (Owner.dir.inj he).symm
    · rintro _ _ ⟨⟩
      constructor
      · have hmiddle : (new ++ (a, 1) :: ownTables dir).Perm ((a, 1) :: (new ++ ownTables dir)) :=
          List.perm_middle
        exact (charge_self hv hg.live).trans ((((h.owned d a dir hd).append_left new).trans hmiddle).trans
          (hg.tables.symm.cons _))
      · intro i hi
        exact (hlow i hi).trans (h.kernel d a dir hd i hi)
    · exact nofun
  | @unmapped d a virtStart virtEnd dir hd haddr =>
    have hset := h.setDir (d := d) (x := some (a, unmapZone virtStart virtEnd dir)) h.valid ?_ ?_ nofun
    · rwa [charge_same] at hset
    · intro d' _
      rw [charge_same]
    · rintro _ _ ⟨⟩
      rw [charge_same]
      unfold unmapZone
      refine ⟨?_, fun i hi => ?_⟩
      · rw [unmapPages_spec.1]
        exact h.owned d a dir hd
      · rw [unmapPages_low (fun u hu => zone_own haddr.1 haddr.2 hu) hi]
        exact h.kernel d a dir hd i hi
  | @destroyed d a dir s hd hlive =>
    have hv : s.Valid := h.valid.part ((owned_others d w).symm.trans (hlive.symm.append_left _))
    have howned (d' : Nat) : ((w.charge (.dir d) s).owned (.dir d')).Perm
        ((w.others d).filter fun b => w.owner b = .dir d') := by
      rw [charge_freed (others_sub hlive)]
      exact hlive.filter _
    apply h.setDir hv
    · intro d' hdd
      exact (howned d').trans (.of_eq (others_owned hdd))
    · exact nofun
    · intro _
      have hnone : (w.others d).filter (fun b => w.owner b = .dir d) = [] := by
        apply List.filter_eq_nil_iff.mpr
        intro b hb
        simpa using (mem_others.mp hb).2
      have hperm := howned d
      rw [hnone] at hperm
      exact hperm.eq_nil
  | @allocated n x offers s halloc hv =>
    have hl : s.live.Perm ([(x, n)] ++ w.frames.live) := .of_eq (alloc_ok halloc).1
    exact h.data hv fun d => charge_other hv hl nofun
  | @freed b s hdata hmem hlive =>
    have hperm : w.frames.live.Perm ([b] ++ s.live) := by
      rw [hlive]
      exact List.perm_cons_erase hmem
    have hsub : ∀ b ∈ s.live, b ∈ w.frames.live := fun _ hb => hperm.mem_iff.mpr (List.mem_append_right _ hb)
    apply h.data (h.valid.part hperm)
    intro d
    rw [charge_freed hsub]
    have hfilter := hperm.filter fun b => decide (w.owner b = .dir d)
    rw [List.filter_append, List.filter_singleton, hdata] at hfilter
    exact hfilter.symm

end Accounts

section Traces

/-- `v` is what `w` would be, had nothing been done to directory `d`. -/
structure Without (d : Nat) (w v : World) : Prop where
  live : v.frames.live.Perm (w.others d)
  dirs : ∀ d' ≠ d, v.dirs d' = w.dirs d'
  none : v.dirs d = none
  owner : ∀ b ∈ v.frames.live, v.owner b = w.owner b

theorem Without.sub (h : Without d w v) : ∀ b ∈ v.frames.live, b ∈ w.frames.live :=
  fun _ hb => (mem_others.mp (h.live.mem_iff.mp hb)).1

theorem Without.grow (h : Without d w v) (new : List (Nat × Nat)) (ho : o ≠ .dir d) (hv : s.Valid)
    (hs : s.live.Perm (new ++ w.frames.live)) (hr : r.live = new ++ v.frames.live) :
    Without d (w.charge o s) (v.charge o r) where
  live := by
    have hothers := filter_charge (o := o) hv hs fun x => decide (x ≠ .dir d)
    rw [if_pos (decide_eq_true ho)] at hothers
    change r.live.Perm _
    rw [hr]
    exact (h.live.append_left new).trans hothers.symm
  dirs := h.dirs
  none := h.none
  owner b hb := by
    change b ∈ r.live at hb
    by_cases hold : b ∈ v.frames.live
    · rw [charge_owner_old hold, charge_owner_old (h.sub b hold)]
      exact h.owner b hold
    · have hnew : b ∈ new := (List.mem_append.mp (hr ▸ hb)).resolve_right hold
      have hnd := List.nodup_append.mp (hs.nodup_iff.mp hv.nodup)
      rw [charge_owner_new hb hold, charge_owner_new (hs.mem_iff.mpr (List.mem_append_left _ hnew))]
      exact fun hw => hnd.2.2 b hnew b hw rfl

theorem Without.shrink (h : Without d w v) (hs : ∀ b ∈ s.live, b ∈ w.frames.live)
    (hr : ∀ b ∈ r.live, b ∈ v.frames.live) (hl : r.live.Perm (s.live.filter fun b => w.owner b ≠ .dir d)) :
    Without d (w.charge o s) (v.charge o r) where
  live := by
    unfold World.others
    have hfreed := filter_freed (o := o) hs fun x => decide (x ≠ .dir d)
    exact hl.trans (.of_eq hfreed.symm)
  dirs := h.dirs
  none := h.none
  owner b hb := by
    have hold := hr b hb
    rw [charge_owner_old hold, charge_owner_old (h.sub b hold)]
    exact h.owner b hold

theorem Without.setDir {d' : Nat} (h : Without d w v) (hd : d' ≠ d) (x : Option (Nat × Dir)) :
    Without d (w.setDir d' x) (v.setDir d' x) where
  live := h.live
  dirs d'' hd'' := by
    by_cases he : d'' = d'
    · subst he
      rw [setDir_self, setDir_self]
    · rw [setDir_of_ne he, setDir_of_ne he]
      exact h.dirs d'' hd''
  none := by
    rw [setDir_of_ne (Ne.symm hd)]
    exact h.none
  owner := h.owner

theorem Without.own (h : Without d w v) (x : Option (Nat × Dir))
    (hl : (s.live.filter fun b => (w.charge (.dir d) s).owner b ≠ .dir d).Perm (w.others d)) :
    Without d ((w.charge (.dir d) s).setDir d x) v where
  live := h.live.trans hl.symm
  dirs d' hd' := by
    rw [setDir_of_ne hd']
    exact h.dirs d' hd'
  none := h.none
  owner b hb := (h.owner b hb).trans (charge_owner_old (h.sub b hb)).symm

theorem own_step (ha : Accounted early w) (h : Without d w v) (he : e.owner = .dir d)
    (hs : w.step early e = .ok w') : Without d w' v := by
  have hgrow {s : Frames} (new : List (Nat × Nat)) (hv : s.Valid) (hl : s.live.Perm (new ++ w.frames.live)) :
      (s.live.filter fun b => (w.charge (.dir d) s).owner b ≠ .dir d).Perm (w.others d) := by
    have hothers := filter_charge (o := .dir d) hv hl fun x => decide (x ≠ .dir d)
    rwa [if_neg (by simp), List.nil_append] at hothers
  cases step_stepped ha hs with
  | @created d' a offers s _ halloc hv =>
    cases he
    exact h.own _ (hgrow [(a, 1)] hv (.of_eq (alloc_ok halloc).1))
  | mapped _ _ _ hv hg _ =>
    cases he
    exact h.own _ (hgrow _ hv hg.live)
  | @unmapped d' a virtStart virtEnd dir _ _ =>
    cases he
    have hown := h.own (some (a, unmapZone virtStart virtEnd dir)) (hgrow [] ha.valid (.refl _))
    rwa [charge_same] at hown
  | @destroyed d' a dir s _ hlive =>
    cases he
    apply h.own
    rw [filter_freed (o := .dir d) (others_sub hlive) fun x => decide (x ≠ .dir d)]
    refine (hlive.filter _).trans (.of_eq (List.filter_eq_self.mpr fun b hb => ?_))
    exact decide_eq_true (mem_others.mp hb).2
  | allocated _ _ => cases he
  | freed _ _ _ => cases he

theorem other_step (ha : Accounted early w) (h : Without d w v) (he : e.owner ≠ .dir d)
    (hs : w.step early e = .ok w') : ∃ v', v.step early e = .ok v' ∧ Without d w' v' := by
  cases step_stepped ha hs with
  | @created d' a offers s hnone halloc hv =>
    have hd : d' ≠ d := fun heq => he (congrArg _ heq)
    obtain ⟨halloc', hlive⟩ := alloc_part (r := v.frames.offer offers) halloc h.sub rfl
    let frames : Frames := ⟨(a, 1) :: v.frames.live, s.offers⟩
    refine ⟨_, ?_, (h.grow (r := frames) [(a, 1)] he hv (.of_eq hlive) rfl).setDir hd _⟩
    simp only [World.step, h.dirs d' hd, hnone, pageDirectoryCreate, halloc', ok_bind]
    rfl
  | @mapped d' a virtStart virtEnd phyStart phyEnd flags offers dir dir' s _ hdir haddr hmap hv _ _ =>
    have hd : d' ≠ d := fun heq => he (congrArg _ heq)
    obtain ⟨new, hmap', hlive⟩ := mapZone_part (r := v.frames.offer offers) hmap h.sub rfl
    let frames : Frames := ⟨new ++ v.frames.live, s.offers⟩
    refine ⟨_, ?_, (h.grow (r := frames) new he hv (.of_eq hlive) rfl).setDir hd _⟩
    simp only [World.step, h.dirs d' hd, hdir, if_pos haddr, hmap', ok_bind]
    rfl
  | @unmapped d' a virtStart virtEnd dir hdir haddr =>
    have hd : d' ≠ d := fun heq => he (congrArg _ heq)
    refine ⟨_, ?_, h.setDir hd _⟩
    simp only [World.step, h.dirs d' hd, hdir, if_pos haddr]
  | @destroyed d' a dir s hdir hlive =>
    have hd : d' ≠ d := fun heq => he (congrArg _ heq)
    have hparts : v.frames.live.Perm (((a, 1) :: ownTables dir) ++
        (w.others d).filter fun b => !decide (w.owner b = .dir d')) := by
      refine h.live.trans ((List.filter_append_perm (fun b => decide (w.owner b = .dir d')) _).symm.trans ?_)
      rw [others_owned hd]
      exact (ha.owned d' a dir hdir).append_right _
    obtain ⟨r, hr, hrlive, _⟩ := pageDirectoryDestroy_eq hparts
    refine ⟨(v.charge (.dir d') r).setDir d' none, ?_,
      (h.shrink (others_sub hlive) ?_ ?_).setDir hd _⟩
    · simp only [World.step, h.dirs d' hd, hdir, hr, ok_bind]
      rfl
    · exact fun b hb => hparts.mem_iff.mpr (List.mem_append_right _ (hrlive.mem_iff.mp hb))
    · refine hrlive.trans ((hlive.filter _).trans (.of_eq ?_)).symm
      unfold World.others
      rw [List.filter_filter, List.filter_filter]
      apply List.filter_congr
      intro b _
      simp [Bool.and_comm]
  | @allocated n x offers s halloc hv =>
    obtain ⟨halloc', hlive⟩ := alloc_part (r := v.frames.offer offers) halloc h.sub rfl
    refine ⟨v.charge .data ⟨(x, n) :: v.frames.live, s.offers⟩, ?_,
      h.grow [(x, n)] nofun hv (.of_eq hlive) rfl⟩
    simp only [World.step, halloc', ok_bind]
    rfl
  | @freed b s hdata hmem hlive =>
    have hother : b ∈ v.frames.live := h.live.mem_iff.mpr (mem_others.mpr ⟨hmem, by rw [hdata]; exact nofun⟩)
    have howner : v.owner b = .data := (h.owner b hother).trans hdata
    let frames : Frames := { v.frames with live := v.frames.live.erase b }
    refine ⟨_, ?_, h.shrink (r := frames) ?_ (fun _ hb => List.mem_of_mem_erase hb) ?_⟩
    · simp only [World.step, if_pos howner, Frames.free, if_pos hother, ok_bind]
      rfl
    · rw [hlive]
      exact fun _ hb => List.mem_of_mem_erase hb
    · have hfilter := (List.perm_cons_erase hmem).filter fun b => decide (w.owner b ≠ .dir d)
      rw [List.filter_cons_of_pos (by simp [hdata]), ← hlive] at hfilter
      exact (((List.perm_cons_erase hother).symm.trans h.live).trans hfilter).cons_inv

theorem run_without {es : List Event} (ha : Accounted early w) (h : Without d w v)
    (hs : exec (World.step early) es w = .ok w') :
    ∃ v', exec (World.step early) (es.filter fun e => e.owner ≠ .dir d) v = .ok v' ∧ Without d w' v' ∧
      Accounted early w' := by
  induction es generalizing w v with
  | nil =>
    cases hs
    exact ⟨v, rfl, h, ha⟩
  | cons e es ih =>
    simp only [exec] at hs
    split at hs
    · rename_i w₁ hstep
      have ha₁ := step_accounted ha hstep
      by_cases he : e.owner = .dir d
      · obtain ⟨v', hv', hrest⟩ := ih ha₁ (own_step ha h he hstep) hs
        refine ⟨v', ?_, hrest⟩
        rw [List.filter_cons_of_neg (by simp [he])]
        exact hv'
      · obtain ⟨v₁, hv₁, h₁⟩ := other_step ha h he hstep
        obtain ⟨v', hv', hrest⟩ := ih ha₁ h₁ hs
        refine ⟨v', ?_, hrest⟩
        rw [List.filter_cons_of_pos (by simp [he])]
        simp only [exec, hv₁]
        exact hv'
    · cases hs

end Traces

section LifeCycle

structure LifeCycle (early : EarlyMem) (w : World) : Prop where
  destroyed : ∀ d a dir, w.dirs d = some (a, dir) → ∃ s, pageDirectoryDestroy a dir w.frames = .ok s ∧
    w.frames.live.Perm (w.owned (.dir d) ++ s.live)
  charged : ∀ d a dir, w.dirs d = some (a, dir) → (w.owned (.dir d)).Perm ((a, 1) :: ownTables dir)
  kernel : ∀ d a dir, w.dirs d = some (a, dir) → ∀ i < 64, dir i = some (early.table i)
  traceless : ∀ d es w', w.dirs d = none → exec (World.step early) es w = .ok w' → w'.dirs d = none →
    ∃ v, exec (World.step early) (es.filter fun e => e.owner ≠ .dir d) w = .ok v ∧
      v.frames.live.Perm w'.frames.live ∧ v.dirs = w'.dirs

theorem Accounted.others_all (h : Accounted early w) (hd : w.dirs d = none) : w.others d = w.frames.live := by
  refine List.filter_eq_self.mpr fun b hb => decide_eq_true fun ho => ?_
  have hmem := mem_owned.mpr ⟨hb, ho⟩
  rw [h.gone d hd] at hmem
  cases hmem

/-- In every state that is reached, with directories and data interleaved in any way, a directory that is
destroyed frees exactly what was allocated in its events; and a run in which it has been created, changed
and destroyed leaves what the run leaves without it. -/
theorem directory_life_cycle (h : Reachable Booted (fun w w' => ∃ e, w.step early e = .ok w') w) :
    LifeCycle early w := by
  have ha : Accounted early w := h.invariant (fun _ => booted_accounted) fun _ _ hw ⟨_, hs⟩ => step_accounted hw hs
  constructor
  · intro d a dir hd
    obtain ⟨s, hs, hlive⟩ := ha.destroy hd (.refl _)
    exact ⟨s, hs, (owned_others d w).symm.trans (hlive.symm.append_left _)⟩
  · exact ha.owned
  · exact ha.kernel
  · intro d es w' hd hs hd'
    have hself : Without d w w := ⟨.of_eq (ha.others_all hd).symm, fun _ _ => rfl, hd, fun _ _ => rfl⟩
    obtain ⟨v, hv, hwithout, ha'⟩ := run_without ha hself hs
    refine ⟨v, hv, ?_, ?_⟩
    · rw [← ha'.others_all hd']
      exact hwithout.live
    · funext d'
      by_cases hdd : d' = d
      · rw [hdd, hwithout.none, hd']
      · exact hwithout.dirs d' hdd

def twoDirectories : List Event :=
  [.create 1 [0x4000000], .create 2 [0x4001000], .alloc 1 [0x4002000],
    .map 1 0x40000000 0x40000fff 0x4002000 0x4002fff ⟨true, true⟩ [0x4003000],
    .map 2 0xfff00000 0xfff00fff 0x4002000 0x4002fff ⟨true, true⟩ [0x4004000],
    .unmap 1 0x40000000 0x40000fff, .destroy 2]

theorem directory_life_cycle_two : ∃ w : World,
    w.frames.live = [(0x4003000, 1), (0x4002000, 1), (0x4000000, 1)] ∧ (w.dirs 1).isSome ∧
      LifeCycle ⟨0x20000, fun _ => true⟩ w := by
  have hrun : Ends (exec (World.step ⟨0x20000, fun _ => true⟩) twoDirectories
      ⟨⟨[], []⟩, fun _ => none, fun _ => .data⟩) fun w =>
        w.frames.live = [(0x4003000, 1), (0x4002000, 1), (0x4000000, 1)] ∧ (w.dirs 1).isSome := by
    decide +kernel
  obtain ⟨w, hw, hlive, hdir⟩ := hrun.elim
  have hbooted : Booted ⟨⟨[], []⟩, fun _ => none, fun _ => .data⟩ :=
    ⟨⟨.nil, nofun, nofun⟩, fun _ => rfl, nofun⟩
  refine ⟨w, hlive, hdir, directory_life_cycle ((Reachable.start hbooted).exec ?_ hw)⟩
  exact fun e _ _ hs => ⟨e, hs⟩

end LifeCycle

end DominOS.PageDirectories
