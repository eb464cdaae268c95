import DominOS.PageAllocatorRuns

/-! When calls of the allocator return: every free does, and an allocation does or finds memory
exhausted, as long as the scan has a whole region to end at. -/
namespace DominOS.PageAllocator
open BlockTiling Fallible Runs

variable {s t : FreeArea} {free : Nat → List Nat} {held : List Block} {P Q : Pool}
  {i n p turns : Nat} {a : Nat × Nat}

def scanned : Nat → Nat → FreeArea → List Nat
  | 0, _, _ => []
  | turns + 1, i, s =>
    let s := s.touch i
    if s.map i ≠ 0 then [i]
    else if i + 1 = mapSize - 1 ∧ s.map (i + 1) = 0 then
      match (do let u ← allocBlock s; u.store (u.map (i + 1)) 0 : Except Fault FreeArea) with
      | .ok u => i :: (i + 1) :: scanned turns (i + 1) u
      | .error _ => [i, i + 1]
    else i :: scanned turns (i + 1) s

theorem scanned_stop (h : s.map i ≠ 0) : scanned (turns + 1) i s = [i] := if_pos h

theorem scanned_skip (h : s.map i = 0) (hi : i + 1 ≠ mapSize - 1) :
    scanned (turns + 1) i s = i :: scanned turns (i + 1) (s.touch i) := by
  have hz : ¬ (s.touch i).map i ≠ 0 := not_not_intro h
  have hlast : ¬ (i + 1 = mapSize - 1 ∧ (s.touch i).map (i + 1) = 0) := fun h => hi h.1
  simp only [scanned, if_neg hz, if_neg hlast]

def Bare (s : FreeArea) (i : Nat) : Prop := ∀ j, i ≤ j → j < mapSize → s.map j = 0

section Scan

theorem setMap_map (s : FreeArea) (i v j : Nat) :
    (s.setMap i v).map j = if j = i then v else s.map j := Function.update_apply ..

theorem activate_total (s : FreeArea) {x : Nat} (hx : ¬ x < 0x1000) :
    ∃ u, (do
        let u ← (s.setMap (mapSize - 1) x).store x 0
        .ok (u.setMap mapSize (u.nbAlloc + 1)) : Except Fault FreeArea) = .ok u ∧
      u.map (mapSize - 1) = x ∧ u.nbAlloc = s.nbAlloc + 1 := by
  have hstore : (s.setMap (mapSize - 1) x).store x 0 =
      .ok { s.setMap (mapSize - 1) x with
        mem := Function.update (s.setMap (mapSize - 1) x).mem x 0 } := if_neg hx
  rw [hstore, ok_bind]
  refine ⟨_, rfl, ?_, ?_⟩
  · rw [setMap_map, if_neg (by decide)]
    change (s.setMap (mapSize - 1) x).map (mapSize - 1) = x
    rw [setMap_map, if_pos rfl]
  · unfold FreeArea.nbAlloc
    rw [setMap_map, if_pos rfl]
    change (s.setMap (mapSize - 1) x).map mapSize + 1 = s.map mapSize + 1
    rw [setMap_map, if_neg (by decide)]

theorem initAlloc_total (s : FreeArea) : ∃ t, initAlloc s = .ok t ∧
    (s.nbAlloc = 0 → t.nbAlloc = 1 ∧ t.map (mapSize - 1) ≠ 0) ∧ (s.nbAlloc ≠ 0 → t = s) := by
  unfold initAlloc
  by_cases hz : s.nbAlloc = 0
  · obtain ⟨u, hu, hmap, hnb⟩ := activate_total s (show ¬ firstAddress < 0x1000 by decide)
    rw [if_pos hz, hu]
    refine ⟨u, rfl, fun _ => ⟨by omega, ?_⟩, fun h => absurd hz h⟩
    rw [hmap]
    decide
  · rw [if_neg hz]
    exact ⟨s, rfl, fun h => absurd h hz, fun _ => rfl⟩

/-- `alloc_block` puts a region at the last level, or panics when all three are active. -/
theorem allocBlock_total (h0 : 0 < s.nbAlloc) (h3 : s.nbAlloc ≤ 3) :
    (∃ u v, allocBlock s = .ok u ∧ u.store (u.map (mapSize - 1)) 0 = .ok v ∧
      v.map (mapSize - 1) ≠ 0 ∧ v.nbAlloc = s.nbAlloc + 1 ∧ s.nbAlloc < 3) ∨
    allocBlock s = .error .panic ∧ s.nbAlloc = 3 := by
  have fit (x : Nat) (hx : ¬ x < 0x1000) (hlt : s.nbAlloc < 3) :
      ∃ u v, (do
          let u ← (s.setMap (mapSize - 1) x).store x 0
          .ok (u.setMap mapSize (u.nbAlloc + 1)) : Except Fault FreeArea) = .ok u ∧
        u.store (u.map (mapSize - 1)) 0 = .ok v ∧ v.map (mapSize - 1) ≠ 0 ∧
        v.nbAlloc = s.nbAlloc + 1 ∧ s.nbAlloc < 3 := by
    obtain ⟨u, hu, hmap, hnb⟩ := activate_total s hx
    refine ⟨u, { u with mem := Function.update u.mem x 0 }, hu, ?_, ?_, hnb, hlt⟩
    · rw [hmap]
      exact if_neg hx
    · change u.map (mapSize - 1) ≠ 0
      omega
  unfold allocBlock
  by_cases h1 : s.nbAlloc = 1
  · rw [if_pos h1]
    exact Or.inl (fit _ (by decide) (by omega))
  · rw [if_neg h1]
    by_cases h2 : s.nbAlloc = 2
    · rw [if_pos h2]
      exact Or.inl (fit _ (by decide) (by omega))
    · rw [if_neg h2]
      exact Or.inr ⟨rfl, by omega⟩

theorem Bare.cons (hz : s.map i = 0) (h : Bare s (i + 1)) : Bare s i := by
  intro j hj hlt
  rcases Nat.eq_or_lt_of_le hj with rfl | hj
  · exact hz
  · exact h j hj hlt

/-- The scan finds a block at one of the levels, or panics when there is none and no region to
activate. It needs the last level only where that has a block. -/
theorem scan_total (h0 : 0 < s.nbAlloc) (h3 : s.nbAlloc ≤ 3) (hi : i < mapSize)
    (hroom : i = mapSize - 1 → s.map i ≠ 0) (hturns : mapSize ≤ turns + i) :
    (∀ k ∈ scanned turns i s, k < mapSize) ∧
      ((∃ j t, scan turns i s = .ok (j, t) ∧ j < mapSize) ∨
        scan turns i s = .error .panic ∧ s.nbAlloc = 3 ∧ Bare s i) := by
  induction turns generalizing i s with
  | zero => omega
  | succ turns ih =>
    have htouch : (s.touch i).map = s.map := rfl
    unfold scan scanned
    simp only [htouch]
    by_cases hm : s.map i ≠ 0
    · simp only [if_pos hm]
      refine ⟨fun k hk => ?_, Or.inl ⟨_, _, rfl, hi⟩⟩
      obtain rfl := List.mem_singleton.mp hk
      exact hi
    have hz : s.map i = 0 := not_not.mp hm
    have hnext : i + 1 < mapSize := by
      have hne : i ≠ mapSize - 1 := fun h => hm (hroom h)
      omega
    have hinside {l : List Nat} (hl : ∀ k ∈ l, k < mapSize) : ∀ k ∈ i :: l, k < mapSize :=
      List.forall_mem_cons.mpr ⟨hi, hl⟩
    simp only [if_neg hm]
    by_cases hlast : i + 1 = mapSize - 1 ∧ s.map (i + 1) = 0
    · simp only [if_pos hlast]
      rcases allocBlock_total (s := s.touch i) h0 h3 with
        ⟨u, v, hu, hv, hv0, hnb, hlt⟩ | ⟨hu, h3'⟩
      · rw [← hlast.1] at hv hv0
        have hactive : (s.touch i).nbAlloc = s.nbAlloc := rfl
        obtain ⟨hins, hend⟩ := ih (s := v) (by omega) (by omega) hnext (fun _ => hv0) (by omega)
        simp only [hu, hv, ok_bind]
        refine ⟨hinside (List.forall_mem_cons.mpr ⟨hnext, hins⟩), hend.imp_right fun h => ?_⟩
        exact absurd (h.2.2 (i + 1) le_rfl hnext) hv0
      · simp only [hu, error_bind]
        refine ⟨hinside (List.forall_mem_singleton.mpr hnext), Or.inr ⟨trivial, h3', ?_⟩⟩
        refine Bare.cons hz fun j hj hlt => ?_
        obtain rfl : j = i + 1 := by omega
        exact hlast.2
    · simp only [if_neg hlast]
      have hroom' : i + 1 = mapSize - 1 → s.map (i + 1) ≠ 0 := fun h hz => hlast ⟨h, hz⟩
      obtain ⟨hins, hend⟩ := ih (s := s.touch i) h0 h3 hnext hroom' (by omega)
      exact ⟨hinside hins, hend.imp_right fun h => ⟨h.1, h.2.1, Bare.cons hz h.2.2⟩⟩

end Scan

section Calls

/-- What a request for `n` pages needs of the last level: nothing, up to 32MB; otherwise a whole
region there, which the first request of all brings along. -/
def Roomy (s : FreeArea) (n : Nat) : Prop :=
  n ≤ 0x2000 ∨ s.nbAlloc = 0 ∨ s.map (mapSize - 1) ≠ 0

instance (s : FreeArea) (n : Nat) : Decidable (Roomy s n) := inferInstanceAs (Decidable (_ ∨ _ ∨ _))

/-- No block of the size for `n` pages is free, and no region is left. -/
def Exhausted (s : FreeArea) (n : Nat) : Prop := s.nbAlloc = 3 ∧ Bare s (Nat.clog 2 n)

/-- The index of `map` at which the scan for `n` pages begins. -/
def firstIndex (n : Nat) : Nat := puiss2 (n <<< shift) - shift

theorem firstIndex_eq (h0 : 0 < n) (h : n < nbPagesAlloc) :
    firstIndex n = Nat.clog 2 n ∧ Nat.clog 2 n < mapSize := by
  obtain ⟨hp, hc⟩ := puiss2_pages h0 h
  refine ⟨?_, hc⟩
  unfold firstIndex
  rw [hp, Nat.add_sub_cancel]

/-- `alloc_physical_page(n)` returns, or panics for want of memory, and looks at nothing outside
`map` on the way. -/
structure Allocates (s : FreeArea) (n : Nat) : Prop where
  inside : ∀ u, initAlloc s = .ok u → ∀ k ∈ scanned (mapSize + 1) (firstIndex n) u, k < mapSize
  ends : (∃ p t, allocPhysicalPage n s = .ok (p, t) ∧ t.outside = s.outside) ∨
    allocPhysicalPage n s = .error .panic ∧ Exhausted s n

/-- `free_physical_page` returns, and touches nothing outside `map`. -/
def Frees (s : FreeArea) (p n : Nat) : Prop :=
  ∃ t, freePhysicalPage p n s = .ok t ∧ t.outside = s.outside

theorem clog_last (h0 : 0 < n) (h : n < nbPagesAlloc) :
    Nat.clog 2 n = mapSize - 1 ↔ 0x2000 < n := by
  have hiff : Nat.clog 2 n ≤ 13 ↔ n ≤ 0x2000 := Nat.clog_le_iff_le_pow (by decide)
  obtain ⟨_, hlt⟩ := firstIndex_eq h0 h
  simp only [mapSize] at hlt ⊢
  omega

theorem allocates (h : Inv s free held) (h0 : 0 < n) (h1 : n < nbPagesAlloc) (hr : Roomy s n) :
    Allocates s n := by
  obtain ⟨u, hu, hfirst, hsame⟩ := initAlloc_total s
  obtain ⟨ho, hnb, free₁, hi₁⟩ := initAlloc_spec h hu
  obtain ⟨hidx, hc⟩ := firstIndex_eq h0 h1
  have hroom : Nat.clog 2 n = mapSize - 1 → u.map (Nat.clog 2 n) ≠ 0 := by
    intro hlast
    have hbig := (clog_last h0 h1).mp hlast
    rw [hlast]
    by_cases hz : s.nbAlloc = 0
    · exact (hfirst hz).2
    · rw [hsame hz]
      rcases hr with h | h | h
      · omega
      · exact absurd h hz
      · exact h
  obtain ⟨hins, hend⟩ := scan_total hnb hi₁.shape.regions hc hroom
    (show mapSize ≤ mapSize + 1 + Nat.clog 2 n by omega)
  have hn : ¬ (n = 0 ∨ nbPagesAlloc ≤ n) := by omega
  constructor
  · intro u' hu'
    cases hu.symm.trans hu'
    rw [hidx]
    exact hins
  · unfold firstIndex at hidx
    rcases hend with ⟨j, v, hv, hj⟩ | ⟨he, h3, hbare⟩
    · refine Or.inl ?_
      rcases scan_spec (mapSize + 1) hi₁ hnb (Nat.le_of_lt hc) hv with
        ⟨hend, _⟩ | ⟨hvo, hij, _, hcurr, free₂, hi₂, hsame, hempty⟩
      · omega
      have hbelow : ∀ m, Nat.clog 2 n ≤ m → m < j → free₂ m = [] := by
        intro m h1 h2
        rw [hsame m (by omega)]
        exact hempty m h1 h2
      obtain ⟨w, next, hw, hnext, _⟩ := split_take hi₂ hij hj hcurr hbelow
      refine ⟨w.map (Nat.clog 2 n), w.setMap (Nat.clog 2 n) next, ?_, ?_⟩
      · unfold allocPhysicalPage
        rw [hu, ok_bind, if_neg hn]
        simp only [hidx, hv, hw, hnext, ok_bind]
      · exact ((splitDown_outside j hw).trans hvo).trans ho
    · have hz : s.nbAlloc ≠ 0 := by
        intro hz
        have := (hfirst hz).1
        omega
      cases hsame hz
      refine Or.inr ⟨?_, h3, hbare⟩
      unfold allocPhysicalPage
      rw [hu, ok_bind, if_neg hn]
      simp only [hidx, he, error_bind]

theorem roomy_of_allocates (h0 : 0 < n) (h1 : n < nbPagesAlloc) (h : Allocates s n) :
    Roomy s n := by
  by_contra hr
  unfold Roomy at hr
  push Not at hr
  obtain ⟨hbig, hnb, hbare⟩ := hr
  obtain ⟨u, hu, _, hsame⟩ := initAlloc_total s
  cases hsame hnb
  obtain ⟨hidx, _⟩ := firstIndex_eq h0 h1
  have hlast : firstIndex n = 14 := hidx.trans ((clog_last h0 h1).mpr hbig)
  have hskip : scanned (mapSize + 1) 14 s = 14 :: scanned mapSize 15 (s.touch 14) :=
    scanned_skip hbare (by decide)
  have hstop : scanned mapSize 15 (s.touch 14) = [15] := scanned_stop hnb
  have hend := h.inside s hu 15
  rw [hlast, hskip, hstop] at hend
  exact absurd (hend (by simp)) (by decide)

/-- The two upper regions are buddies: with all three active one of their blocks is held. -/
theorem upper_held (h : Shape free held 3) : ∃ b ∈ held, secondAddress ≤ b.base := by
  by_contra hnone
  push Not at hnone
  obtain ⟨w, hw⟩ : ∃ w : Block, w = ⟨0x8000000, 27⟩ := ⟨_, rfl⟩
  have hwal : w.Aligned := by
    rw [hw]
    exact ⟨1, rfl⟩
  have hwcov (x : Nat) : w.Covers x ↔ 0x8000000 ≤ x ∧ x < 0x10000000 := by
    rw [hw]
    rfl
  have hfree : ∀ b ∈ freeBlocks mapSize free, b.order ≤ 26 := by
    intro b hb
    obtain ⟨i, hi, a, _, rfl⟩ := mem_freeBlocks.mp hb
    simp only [mapSize, shift] at hi ⊢
    omega
  have hmeet : ∀ b ∈ freeBlocks mapSize free ++ held, ∀ x, b.Covers x → w.Covers x →
      b ∈ freeBlocks mapSize free ∧ ∀ y, b.Covers y → w.Covers y := by
    intro b hb x hbx hwx
    have hal := h.tiling.aligned b hb
    rcases List.mem_append.mp hb with hf | hh
    · refine ⟨hf, fun y hy => ?_⟩
      have horder : b.order ≤ w.order := by
        rw [hw]
        exact (hfree b hf).trans (by decide)
      exact Block.covers_of_meet hal hwal horder hbx hwx y hy
    · exfalso
      have hlow := hnone b hh
      have hreg := h.base_region hb
      have hworder : w.order = 27 := by rw [hw]
      simp only [region, firstAddress, secondAddress] at hreg hlow
      rcases Nat.le_total b.order 27 with ho | ho
      · have hin := (hwcov _).mp (Block.covers_of_meet hal hwal (hworder ▸ ho) hbx hwx _ b.covers_base)
        omega
      · have hdvd : 2 ^ 27 ∣ b.base := (pow_dvd_pow 2 ho).trans hal
        have := Nat.le_of_dvd (by omega) hdvd
        omega
  have htiling : Tiling ((freeBlocks mapSize free).filter fun b => 0x8000000 ≤ b.base) w.Covers := by
    refine ⟨fun b hb => ?_, ?_, fun x => ⟨fun hx => ?_, ?_⟩⟩
    · exact h.tiling.aligned b (List.mem_append_left _ (List.mem_of_mem_filter hb))
    · exact (List.pairwise_append.mp h.tiling.apart).1.filter _
    · have hr : region 3 x := by
        rw [hwcov] at hx
        simp only [region, firstAddress]
        omega
      obtain ⟨b, hb, hbx⟩ := (h.tiling.cover x).mp hr
      obtain ⟨hf, hin⟩ := hmeet b hb x hbx hx
      have hbase := (hwcov _).mp (hin _ b.covers_base)
      exact ⟨b, List.mem_filter.mpr ⟨hf, decide_eq_true hbase.1⟩, hbx⟩
    · rintro ⟨b, hb, hbx⟩
      obtain ⟨hf, hge⟩ := List.mem_filter.mp hb
      have hmem := List.mem_append_left held hf
      have hr := h.base_region hmem
      simp only [region, firstAddress] at hr
      have hbase : w.Covers b.base := (hwcov _).mpr ⟨of_decide_eq_true hge, by omega⟩
      exact (hmeet b hmem _ b.covers_base hbase).2 x hbx
  have horder := htiling.order_eq_top 27
    (fun b hb => (hfree b (List.mem_of_mem_filter hb)).trans (by decide))
    (fun c hc ho x y hx hy hr => Block.covers_of_meet hc hwal (by rw [hw]; exact ho) hx hr y hy)
    fun b hb _ hbb =>
      h.buddy_not_free (List.mem_of_mem_filter hb) (List.mem_of_mem_filter hbb)
  obtain ⟨b, hb, _⟩ := (htiling.cover 0x8000000).mp ((hwcov _).mpr ⟨le_rfl, by decide⟩)
  have := hfree b (List.mem_of_mem_filter hb)
  have := horder b hb
  omega

theorem frees_iff (hv : P.Valid) (hP : P.frames.outside = false) (ha : (p, n) ∈ P.live) :
    Frees P.frames p n ↔ KeepsUpper P (.free p n) := by
  obtain ⟨s, live⟩ := P
  obtain ⟨hn0, hn1⟩ := hv.pages _ ha
  obtain ⟨free, hi⟩ := hv.tiled
  obtain ⟨t, ht, hend⟩ := freePhysicalPage_spec hn0 hn1 (hi.perm_held (held_erase ha))
  constructor
  · rintro ⟨t', ht', hout⟩ h3 hge
    cases ht.symm.trans ht'
    rcases hend with ⟨_, hnb, free', hi'⟩ | ⟨htrue, _⟩
    · have hs := hi'.shape
      rw [hnb, h3] at hs
      obtain ⟨b, hb, hbase⟩ := upper_held hs
      obtain ⟨a, ha', rfl⟩ := List.mem_map.mp hb
      exact ⟨a, ha', hbase⟩
    · rw [htrue] at hout
      cases hout.trans hP
  · intro hk
    refine ⟨t, ht, ?_⟩
    rcases hend with ⟨ho, _⟩ | ⟨_, free', page, hle, hs⟩
    · exact ho
    · obtain ⟨hnb, hp, hlow⟩ := upper_pair hs
      obtain ⟨a, ha', hge⟩ := hk hnb (hp.trans hle)
      exact absurd hge (Nat.not_le.mpr (hlow _ (List.mem_map_of_mem ha')))

end Calls

/-- In every run whose frees keep an upper block, an allocation that has a region to end at
returns or finds memory exhausted, and a free that keeps an upper block returns, both inside
`map`; and no other call does. -/
theorem fails_only_exhausted (h : Reachable Pool.Start KeepingStep P) :
    (∀ n, 0 < n → n < nbPagesAlloc → (Allocates P.frames n ↔ Roomy P.frames n)) ∧
    ∀ a ∈ P.live, Frees P.frames a.1 a.2 ↔ KeepsUpper P (.free a.1 a.2) := by
  obtain ⟨hv, hout⟩ := h.invariant (fun _ hs => ⟨start_valid hs, hs.2.1⟩)
    (fun _ _ => KeepingStep.valid)
  obtain ⟨free, hi⟩ := hv.tiled
  refine ⟨fun n h0 h1 => ⟨roomy_of_allocates h0 h1, allocates hi h0 h1⟩, fun a ha => ?_⟩
  exact frees_iff hv hout ha

theorem fails_only_exhausted_several : ∃ P : Pool,
    P.live = [(0xc000000, 0x2000), (0xa000000, 0x2000)] ∧ P.frames.nbAlloc = 3 ∧
    Allocates P.frames 0x2000 ∧ Frees P.frames 0xa000000 0x2000 := by
  obtain ⟨P, hrun, hlive, hnb⟩ := severalCalls_run
  obtain ⟨halloc, hfree⟩ := fails_only_exhausted hrun
  refine ⟨P, hlive, hnb, (halloc 0x2000 (by decide) (by decide)).mpr (Or.inl le_rfl), ?_⟩
  have hmem : (0xa000000, 0x2000) ∈ P.live := hlive ▸ by decide
  refine (hfree (0xa000000, 0x2000) hmem).mpr fun _ _ => ⟨(0xc000000, 0x2000), ?_, by decide⟩
  rw [hlive]
  decide

/-- The second request for a whole region is a page fault, though two regions are left. -/
theorem second_region_faults : ∃ P : Pool, Reachable Pool.Start (fun P Q => ∃ c, Step P c Q) P ∧
    P.frames.nbAlloc = 1 ∧ allocPhysicalPage 0x3fff P.frames = .error .pageFault ∧
    ¬ Allocates P.frames 0x3fff := by
  have h : (exec perform [.alloc 0x3fff] Pool.boot).map (fun P => (P.frames.nbAlloc,
      (allocPhysicalPage 0x3fff P.frames).map fun _ => ())) = .ok (1, .error .pageFault) := by rfl
  obtain ⟨P, hP, h⟩ := map_ok.mp h
  obtain ⟨hnb, hfault⟩ := Prod.mk.inj h
  have hfault : allocPhysicalPage 0x3fff P.frames = .error .pageFault := by
    cases hr : allocPhysicalPage 0x3fff P.frames with
    | error e =>
      rw [hr] at hfault
      exact congrArg _ (Except.error.inj hfault)
    | ok r =>
      rw [hr] at hfault
      cases hfault
  refine ⟨P, (Reachable.start boot_start).exec (fun _ _ _ h => ⟨_, perform_step h⟩) hP, hnb,
    hfault, fun ha => ?_⟩
  rcases ha.ends with ⟨p, t, hok, _⟩ | ⟨hpanic, _⟩
  · cases hfault.symm.trans hok
  · cases hfault.symm.trans hpanic

end DominOS.PageAllocator
