import DominOS.PageAllocatorChain

/-! What each call of the allocator does to the tiling. -/
namespace DominOS.PageAllocator
open BlockTiling Fallible

theorem puiss2Loop_spec (turns size p : Nat) (h : size < 2 ^ turns) :
    ∃ k, puiss2Loop turns size p = (0, p + k) ∧ ∀ m, k ≤ m ↔ size < 2 ^ m := by
  induction turns generalizing size p with
  | zero => exact ⟨0, by simp only [puiss2Loop]; congr 1; omega, fun m => by have := Nat.two_pow_pos m; omega⟩
  | succ turns ih =>
    by_cases hz : size = 0
    · subst hz
      exact ⟨0, by simp [puiss2Loop], fun m => by simp⟩
    · have hhalf : size >>> 1 < 2 ^ turns := by
        rw [Nat.shiftRight_eq_div_pow, pow_one]
        rw [pow_succ] at h
        omega
      obtain ⟨k, hk, hm⟩ := ih (size >>> 1) (p + 1) hhalf
      refine ⟨k + 1, by simp only [puiss2Loop, hz, if_false, hk]; congr 1; omega, fun m => ?_⟩
      cases m with
      | zero => simp only [pow_zero]; omega
      | succ m =>
        have := hm m
        rw [Nat.shiftRight_eq_div_pow, pow_one] at this
        rw [pow_succ]
        omega

theorem puiss2_eq_clog {size : Nat} (h0 : 0 < size) (h : size ≤ 2 ^ 32) :
    puiss2 size = Nat.clog 2 size := by
  obtain ⟨k, hk, hm⟩ := puiss2Loop_spec 32 (size - 1) 0 (by omega)
  have hp : puiss2 size = k := by simp [puiss2, hk]
  rw [hp]
  refine Nat.le_antisymm ?_ ?_
  · have := Nat.clog_le_iff_le_pow (b := 2) (by omega) (x := size) (y := Nat.clog 2 size)
    rw [hm]
    have := this.mp (Nat.le_refl _)
    omega
  · rw [Nat.clog_le_iff_le_pow (by omega)]
    have := (hm k).mp (Nat.le_refl _)
    omega

theorem puiss2_pages {n : Nat} (h0 : 0 < n) (h : n < nbPagesAlloc) :
    puiss2 (n <<< shift) = Nat.clog 2 n + shift ∧ Nat.clog 2 n < mapSize := by
  have hn : n <<< shift = n * 2 ^ shift := Nat.shiftLeft_eq n shift
  have hlt : n < 0x4000 := h
  have hs : shift = 12 := rfl
  have hm : mapSize = 15 := rfl
  rw [hn, puiss2_eq_clog (by positivity) (by rw [hs]; omega)]
  have hle (m : Nat) : Nat.clog 2 n ≤ m ↔ n ≤ 2 ^ m := Nat.clog_le_iff_le_pow (by omega)
  have hge (m : Nat) : Nat.clog 2 (n * 2 ^ shift) ≤ m ↔ n * 2 ^ shift ≤ 2 ^ m :=
    Nat.clog_le_iff_le_pow (by omega)
  refine ⟨Nat.le_antisymm ?_ ?_, ?_⟩
  · rw [hge, pow_add]
    exact Nat.mul_le_mul_right _ ((hle _).mp (Nat.le_refl _))
  · have h1 := (hge _).mp (Nat.le_refl (Nat.clog 2 (n * 2 ^ shift)))
    have h2 : shift ≤ Nat.clog 2 (n * 2 ^ shift) := by
      by_contra hc
      have h3 : 2 ^ Nat.clog 2 (n * 2 ^ shift) < 2 ^ shift :=
        Nat.pow_lt_pow_right (by omega) (by omega)
      have h4 : 2 ^ shift ≤ n * 2 ^ shift := Nat.le_mul_of_pos_left _ h0
      omega
    obtain ⟨d, hd⟩ := Nat.exists_eq_add_of_le h2
    rw [hd, Nat.add_comm shift d, pow_add] at h1
    rw [hd, Nat.add_comm shift d]
    exact Nat.add_le_add_right ((hle d).mpr (Nat.le_of_mul_le_mul_right h1 (Nat.two_pow_pos _))) _
  · have : Nat.clog 2 n ≤ 14 := (hle 14).mpr (by omega)
    omega

/-- The allocator's invariant: memory spells out lists that tile the regions with
the blocks `held` outside them. -/
structure Inv (s : FreeArea) (free : Nat → List Nat) (held : List Block) : Prop where
  linked : Linked s free
  shape : Shape free held s.nbAlloc

theorem region_zero (x : Nat) : ¬ region 0 x := by
  simp only [region, firstAddress]
  omega

theorem Shape.activate {free : Nat → List Nat} {held : List Block} {nb : Nat}
    (h : Shape free held nb) (hnb : nb < 3) (htop : free (mapSize - 1) = []) :
    Shape (Function.update free (mapSize - 1) [(nb + 1) * firstAddress]) held (nb + 1) := by
  have hsize : (⟨(nb + 1) * firstAddress, mapSize - 1 + shift⟩ : Block).size = firstAddress := rfl
  have hal : (⟨(nb + 1) * firstAddress, mapSize - 1 + shift⟩ : Block).Aligned :=
    ⟨nb + 1, by rw [Nat.mul_comm]; rfl⟩
  have hcov (x : Nat) : region (nb + 1) x ↔
      region nb x ∨ (⟨(nb + 1) * firstAddress, mapSize - 1 + shift⟩ : Block).Covers x := by
    simp only [region, Block.Covers, hsize]
    simp only [firstAddress]
    omega
  have hout (x : Nat) (hx : (⟨(nb + 1) * firstAddress, mapSize - 1 + shift⟩ : Block).Covers x) :
      ¬ region nb x := by
    simp only [region, Block.Covers, hsize] at hx ⊢
    simp only [firstAddress] at hx ⊢
    omega
  have hp : (⟨(nb + 1) * firstAddress, mapSize - 1 + shift⟩ ::
      (freeBlocks mapSize free ++ held)).Perm
      (freeBlocks mapSize free ++ ⟨(nb + 1) * firstAddress, mapSize - 1 + shift⟩ :: held) :=
    List.perm_middle.symm
  have hbig : Shape free (⟨(nb + 1) * firstAddress, mapSize - 1 + shift⟩ :: held) (nb + 1) := by
    refine ⟨?_, ?_, by omega, h.buddies⟩
    · have ht := (h.tiling.extend hal hout).perm hp
      exact ⟨ht.aligned, ht.apart, fun x => (hcov x).trans (ht.cover x)⟩
    · rw [← total_perm hp, total_cons, h.bytes, hsize]
      ring
  have := hbig.put (by decide) (by simp [htop])
  rwa [htop] at this

theorem Inv.activate {s t : FreeArea} {free : Nat → List Nat} {held : List Block}
    (h : Inv s free held) (hnb : s.nbAlloc < 3) (htop : free (mapSize - 1) = [])
    (ht : (do
      let u ← (s.setMap (mapSize - 1) ((s.nbAlloc + 1) * firstAddress)).store
        ((s.nbAlloc + 1) * firstAddress) 0
      .ok (u.setMap mapSize (u.nbAlloc + 1)) : Except Fault FreeArea) = .ok t) :
    Inv t (Function.update free (mapSize - 1) [(s.nbAlloc + 1) * firstAddress]) held ∧
      t.nbAlloc = s.nbAlloc + 1 ∧ t.outside = s.outside ∧
      t.map (mapSize - 1) = (s.nbAlloc + 1) * firstAddress := by
  obtain ⟨u, hu, ht⟩ := bind_ok.mp ht
  have hu := store_ok hu
  have ht : u.setMap mapSize (u.nbAlloc + 1) = t := Except.ok.inj ht
  subst hu ht
  have hs := h.shape.activate hnb htop
  have hne : (mapSize : Nat) ≠ mapSize - 1 := by decide
  have hnbt : ∀ v : Nat, (Function.update s.map (mapSize - 1) v) mapSize = s.nbAlloc := by
    intro v
    rw [Function.update_of_ne hne]
    rfl
  simp only [FreeArea.setMap, FreeArea.nbAlloc, hnbt] at *
  refine ⟨⟨?_, ?_⟩, by simp, trivial, ?_⟩
  · intro i hi
    have hi' : i ≠ mapSize := Nat.ne_of_lt hi
    by_cases he : i = mapSize - 1
    · subst he
      simp only [Function.update_self, Function.update_of_ne hi']
      exact Chain.single (by simp only [firstAddress]; omega) (by simp)
    · simp only [Function.update_of_ne he, Function.update_of_ne hi']
      refine (h.linked i hi).update ?_
      intro hm
      have hr := h.shape.base_region (Shape.mem_free hi hm)
      simp only [region, firstAddress, FreeArea.nbAlloc] at hr
      omega
  · simpa [FreeArea.nbAlloc] using hs
  · rw [Function.update_of_ne hne.symm, Function.update_self]

theorem Inv.touch {s : FreeArea} {free : Nat → List Nat} {held : List Block} (i : Nat)
    (h : Inv s free held) : Inv (s.touch i) free held := ⟨h.linked, h.shape⟩

theorem initAlloc_spec {s t : FreeArea} {free : Nat → List Nat} {held : List Block}
    (h : Inv s free held) (ht : initAlloc s = .ok t) :
    t.outside = s.outside ∧ 0 < t.nbAlloc ∧ ∃ free', Inv t free' held := by
  unfold initAlloc at ht
  split at ht
  · rename_i hz
    have htop : free (mapSize - 1) = [] := by
      rw [List.eq_nil_iff_forall_not_mem]
      intro a ha
      have hr := h.shape.base_region (Shape.mem_free (by decide) ha)
      rw [hz] at hr
      exact region_zero _ hr
    have ha : (s.nbAlloc + 1) * firstAddress = firstAddress := by rw [hz]; rfl
    obtain ⟨hi, hn, ho, _⟩ := h.activate (t := t) (by omega) htop (by rw [ha]; exact ht)
    exact ⟨ho, by omega, _, hi⟩
  · cases ht
    exact ⟨rfl, by omega, free, h⟩

theorem allocBlock_spec {s t : FreeArea} {free : Nat → List Nat} {held : List Block}
    (h : Inv s free held) (htop : free (mapSize - 1) = []) (ht : allocBlock s = .ok t) :
    Inv t (Function.update free (mapSize - 1) [t.map (mapSize - 1)]) held ∧
      t.outside = s.outside ∧ t.map (mapSize - 1) ≠ 0 ∧ 0 < t.nbAlloc := by
  have fit : ∀ a, a = (s.nbAlloc + 1) * firstAddress → s.nbAlloc < 3 →
      (do
        let u ← (s.setMap (mapSize - 1) a).store a 0
        .ok (u.setMap mapSize (u.nbAlloc + 1)) : Except Fault FreeArea) = .ok t →
      Inv t (Function.update free (mapSize - 1) [t.map (mapSize - 1)]) held ∧
        t.outside = s.outside ∧ t.map (mapSize - 1) ≠ 0 ∧ 0 < t.nbAlloc := by
    intro a ha hnb he
    subst ha
    obtain ⟨hi, hn, ho, hm⟩ := h.activate hnb htop he
    rw [hm]
    exact ⟨hi, ho, by simp only [firstAddress]; omega, by omega⟩
  unfold allocBlock at ht
  split at ht
  · rename_i h1
    exact fit _ (by rw [h1]; rfl) (by omega) ht
  · split at ht
    · rename_i h2
      exact fit _ (by rw [h2]; rfl) (by omega) ht
    · cases ht

/-- The second store of NULL in `alloc_physical_page` repeats the one of `alloc_block`. -/
theorem allocBlock_store_spec {s u t : FreeArea} {free : Nat → List Nat} {held : List Block}
    (h : Inv s free held) (htop : free (mapSize - 1) = []) (hu : allocBlock s = .ok u)
    (ht : u.store (u.map (mapSize - 1)) 0 = .ok t) :
    Inv t (Function.update free (mapSize - 1) [u.map (mapSize - 1)]) held ∧
      t.outside = s.outside ∧ 0 < t.nbAlloc := by
  obtain ⟨hi, ho, _, hnb⟩ := allocBlock_spec h htop hu
  have ht := store_ok ht
  subst ht
  refine ⟨⟨?_, hi.shape⟩, ho, hnb⟩
  intro m hm
  have hc := hi.linked m hm
  by_cases he : m = mapSize - 1
  · subst he
    rw [Function.update_self] at hc ⊢
    exact Chain.single hc.2.1 (by simp)
  · refine hc.update ?_
    intro hmem
    exact he (hi.shape.free_inj hm (by decide) hmem (by simp))

/-- The scan stops at the first level that has a block, with the levels it passed
empty, or else behind the array at the word that holds `nb_alloc`. -/
theorem scan_spec (turns : Nat) {i j : Nat} {s t : FreeArea} {free : Nat → List Nat}
    {held : List Block} (h : Inv s free held) (hnb : 0 < s.nbAlloc) (hle : i ≤ mapSize)
    (ht : scan turns i s = .ok (j, t)) :
    j = mapSize ∧ t.map mapSize ≤ 3 ∨
      t.outside = s.outside ∧ i ≤ j ∧ j < mapSize ∧ t.map j ≠ 0 ∧
        ∃ free', Inv t free' held ∧ (∀ m, m ≠ mapSize - 1 → free' m = free m) ∧
          ∀ m, i ≤ m → m < j → free m = [] := by
  induction turns generalizing i s free with
  | zero => cases ht
  | succ turns ih =>
    unfold scan at ht
    simp only at ht
    split at ht
    · rename_i hm
      cases ht
      rcases Nat.lt_or_eq_of_le hle with hlt | rfl
      · refine Or.inr ⟨?_, Nat.le_refl _, hlt, hm, free, h.touch _, fun _ _ => rfl,
          fun m h1 h2 => by omega⟩
        simp [FreeArea.touch, Nat.not_le.mpr hlt]
      · exact Or.inl ⟨rfl, h.shape.regions⟩
    · rename_i hm
      have hz : s.map i = 0 := by simpa [FreeArea.touch] using hm
      have hi : i < mapSize := by
        refine Nat.lt_of_le_of_ne hle ?_
        rintro rfl
        exact absurd hz (Nat.ne_of_gt hnb)
      have hempty : free i = [] := by
        have hc := h.linked i hi
        rw [hz] at hc
        exact hc.eq_nil
      have hout : (s.touch i).outside = s.outside := by
        simp [FreeArea.touch, Nat.not_le.mpr hi]
      have finish {u : FreeArea} {free₁ : Nat → List Nat} (hu : Inv u free₁ held)
          (hpos : 0 < u.nbAlloc) (hsame : ∀ m, m ≠ mapSize - 1 → free₁ m = free m)
          (hs : u.outside = (s.touch i).outside) (hr : scan turns (i + 1) u = .ok (j, t)) :
          j = mapSize ∧ t.map mapSize ≤ 3 ∨
            t.outside = s.outside ∧ i ≤ j ∧ j < mapSize ∧ t.map j ≠ 0 ∧
              ∃ free', Inv t free' held ∧ (∀ m, m ≠ mapSize - 1 → free' m = free m) ∧
                ∀ m, i ≤ m → m < j → free m = [] := by
        rcases ih hu hpos hi hr with hend | ⟨h1, h2, h3, h4, free', h5, h6, h7⟩
        · exact Or.inl hend
        refine Or.inr ⟨(h1.trans hs).trans hout, by omega, h3, h4, free', h5,
          fun m hm => (h6 m hm).trans (hsame m hm), ?_⟩
        intro m hm1 hm2
        by_cases he : m = i
        · subst he
          exact hempty
        · have hms : m ≠ mapSize - 1 := by omega
          rw [← hsame m hms]
          exact h7 m (by omega) hm2
      split at ht
      · rename_i hlast
        obtain ⟨u, hu, ht⟩ := bind_ok.mp ht
        obtain ⟨v, hv, ht⟩ := bind_ok.mp ht
        have htop : free (mapSize - 1) = [] := by
          have hc := h.linked (mapSize - 1) (by decide)
          rw [← hlast.1, show s.map (i + 1) = 0 from hlast.2] at hc
          rw [← hlast.1]
          exact hc.eq_nil
        rw [hlast.1] at hv
        obtain ⟨hiv, hov, hpos⟩ := allocBlock_store_spec (h.touch i) htop hu hv
        exact finish hiv hpos (fun m hm => by rw [Function.update_of_ne hm]) hov ht
      · exact finish (h.touch i) hnb (fun _ _ => rfl) rfl ht

theorem one_shiftLeft (k : Nat) : 1 <<< k = 2 ^ k := by rw [Nat.shiftLeft_eq, Nat.one_mul]

theorem buddy_base (a i : Nat) :
    a ^^^ 1 <<< (i + shift) = (⟨a, i + shift⟩ : Block).buddy.base := by
  rw [one_shiftLeft]
  rfl

theorem Linked.of_eq {s : FreeArea} {free free' : Nat → List Nat} (h : Linked s free)
    (he : ∀ i < mapSize, free' i = free i) : Linked s free' := by
  intro i hi
  rw [he i hi]
  exact h i hi

theorem splitDown_outside {index : Nat} (i : Nat) {s t : FreeArea}
    (ht : splitDown index i s = .ok t) : t.outside = s.outside := by
  induction i generalizing s with
  | zero =>
    cases ht
    rfl
  | succ i ih =>
    unfold splitDown at ht
    split at ht
    · cases ht
      rfl
    · obtain ⟨next, _, ht⟩ := bind_ok.mp ht
      obtain ⟨u, hu, ht⟩ := bind_ok.mp ht
      obtain ⟨v, hv, ht⟩ := bind_ok.mp ht
      rw [ih ht, store_ok hv, store_ok hu]
      rfl

/-- The block at the head of a list is halved: its lower half heads the list below, the other
half is all that follows. -/
theorem splitDown_step {i c : Nat} {held : List Block} {s : FreeArea} {free : Nat → List Nat}
    (hi : i + 1 < mapSize) (hs : Shape free (⟨c, i + 1 + shift⟩ :: held) s.nbAlloc)
    (hl : Linked s (Function.update free (i + 1) (c :: free (i + 1)))) (hi0 : free i = []) :
    ∃ v b, (∀ index, i + 1 ≠ index → splitDown index (i + 1) s = splitDown index i v) ∧
      Shape (Function.update free i [b]) (⟨c, i + shift⟩ :: held) v.nbAlloc ∧
      Linked v (Function.update (Function.update free i [b]) i
        (c :: Function.update free i [b] i)) := by
  have hii : i < mapSize := Nat.lt_of_succ_lt hi
  have hhead := hl (i + 1) hi
  rw [Function.update_self] at hhead
  have hcurr : s.map (i + 1) = c := hhead.1
  have horder : i + 1 + shift = i + shift + 1 := by omega
  rw [horder] at hs
  have hhalf := hs.halve
  have hbb : (⟨c, i + shift⟩ : Block).buddy.buddy.base = c :=
    congrArg Block.base (buddy_buddy _)
  have hxor := buddy_base c i
  generalize hb : (⟨c, i + shift⟩ : Block).buddy.base = b at *
  have hbuddy : (⟨c, i + shift⟩ : Block).buddy = ⟨b, i + shift⟩ := by rw [← hb]; rfl
  rw [hbuddy] at hhalf hbb
  have hput := hhalf.put hii (by rw [hi0]; simp)
  rw [hi0] at hput
  have hcb : c ≠ b := by
    have hap := (List.pairwise_cons.mp
      ((List.pairwise_append.mp hhalf.tiling.apart).2.1)).1 ⟨c, i + shift⟩ (by simp)
    intro he
    subst he
    exact hap.not_covers (Block.covers_base _) (Block.covers_base _)
  have haddr {a : Nat} (ha : (⟨a, i + shift⟩ : Block) ∈ (⟨b, i + shift⟩ :: ⟨c, i + shift⟩ :: held)) :
      ¬ a < 0x1000 := by
    have hr := hhalf.held_region ha (Block.covers_base _)
    simp only [region, firstAddress] at hr
    omega
  have hc : ¬ c < 0x1000 := haddr (by simp)
  have hb : ¬ b < 0x1000 := haddr (by simp)
  refine ⟨{ s with
    map := Function.update (Function.update s.map (i + 1) (s.mem c)) i c
    mem := Function.update (Function.update s.mem c b) b 0 }, b, fun index hne => ?_, ?_, ?_⟩
  · simp only [splitDown, if_neg hne, hcurr, hxor, FreeArea.load, FreeArea.store, if_neg hc, if_neg hb,
      ok_bind, FreeArea.setMap, Function.update_self]
  · have hnb : FreeArea.nbAlloc { s with
        map := Function.update (Function.update s.map (i + 1) (s.mem c)) i c
        mem := Function.update (Function.update s.mem c b) b 0 } = s.nbAlloc := by
      simp only [FreeArea.nbAlloc]
      rw [Function.update_of_ne (by omega), Function.update_of_ne (by omega)]
    rw [hnb]
    exact hput
  · have clear (j : Nat) (hj : j < mapSize) (a : Nat) (hc : Chain s.mem a (free j)) :
        Chain (Function.update (Function.update s.mem c b) b 0) a (free j) := by
      refine (hc.update ?_).update ?_
      · intro hm
        exact hhalf.held_not_covers (b := ⟨c, i + shift⟩) (by simp) hj hm (Block.covers_base _)
      · intro hm
        exact hhalf.held_not_covers (b := ⟨b, i + shift⟩) (by simp) hj hm (Block.covers_base _)
    intro j hj
    have hlj := hl j hj
    by_cases hji : j = i
    · subst hji
      simp only [Function.update_self]
      refine ⟨rfl, hhead.2.1, ?_⟩
      rw [Function.update_of_ne hcb, Function.update_self]
      exact Chain.single (by omega) (by simp)
    · simp only [Function.update_of_ne hji]
      by_cases hj1 : j = i + 1
      · subst hj1
        rw [Function.update_self]
        exact clear _ hj _ hhead.2.2
      · rw [Function.update_of_ne hj1]
        rw [Function.update_of_ne hj1] at hlj
        exact clear j hj _ hlj

/-- A block at the head of its list goes down to level `index`, and each half cut
off it becomes the only block of its level. -/
theorem splitDown_spec {index c : Nat} {held : List Block} (i : Nat)
    {s : FreeArea} {free : Nat → List Nat} (hi : i < mapSize) (hle : index ≤ i)
    (hs : Shape free (⟨c, i + shift⟩ :: held) s.nbAlloc)
    (hl : Linked s (Function.update free i (c :: free i)))
    (hempty : ∀ m, index ≤ m → m < i → free m = []) : ∃ t, splitDown index i s = .ok t ∧
    ∃ free', Shape free' (⟨c, index + shift⟩ :: held) t.nbAlloc ∧
      Linked t (Function.update free' index (c :: free' index)) := by
  induction i generalizing s free with
  | zero =>
    obtain rfl : index = 0 := Nat.le_zero.mp hle
    exact ⟨s, rfl, free, hs, hl⟩
  | succ i ih =>
    by_cases he : i + 1 = index
    · subst he
      refine ⟨s, ?_, free, hs, hl⟩
      unfold splitDown
      exact if_pos rfl
    · have hi0 : free i = [] := hempty i (by omega) (Nat.lt_succ_self i)
      obtain ⟨v, b, hstep, hs', hl'⟩ := splitDown_step hi hs hl hi0
      have hrest : ∀ m, index ≤ m → m < i → Function.update free i [b] m = [] := by
        intro m h1 h2
        rw [Function.update_of_ne (by omega)]
        exact hempty m h1 (by omega)
      rw [hstep index he]
      exact ih (Nat.lt_of_succ_lt hi) (by omega) hs' hl' hrest

/-- There is nothing to halve behind the array: the walk starts at an unmapped page. -/
theorem splitDown_end {index : Nat} {s t : FreeArea} (hi : index < mapSize)
    (hs : s.map mapSize ≤ 3) : splitDown index mapSize s ≠ .ok t := by
  intro ht
  have hne : 14 + 1 ≠ index := Nat.ne_of_gt hi
  have hload : s.load (s.map (14 + 1)) = .error .pageFault :=
    if_pos (Nat.lt_of_le_of_lt hs (by decide))
  simp only [mapSize, splitDown, hne, if_false, hload, error_bind] at ht
  cases ht

/-- From the first level that has a block, one of the wanted size is cut off and taken. -/
theorem split_take {index j : Nat} {v : FreeArea} {free : Nat → List Nat} {held : List Block}
    (h : Inv v free held) (hij : index ≤ j) (hj : j < mapSize) (hcurr : v.map j ≠ 0)
    (hempty : ∀ m, index ≤ m → m < j → free m = []) :
    ∃ w next, splitDown index j v = .ok w ∧ w.load (w.map index) = .ok next ∧
      ∃ free', Inv (w.setMap index next) free' (⟨w.map index, index + shift⟩ :: held) := by
  obtain ⟨r, hfree, _⟩ := (h.linked j hj).eq_cons hcurr
  have htake := h.shape.take hj (l := r) (by rw [hfree])
  have hlink : Linked v (Function.update (Function.update free j r) j
      (v.map j :: Function.update free j r j)) := by
    refine h.linked.of_eq fun i _ => ?_
    by_cases he : i = j
    · subst he
      simp [hfree]
    · simp [he]
  have hbelow : ∀ m, index ≤ m → m < j → Function.update free j r m = [] := by
    intro m h1 h2
    rw [Function.update_of_ne (by omega)]
    exact hempty m h1 h2
  obtain ⟨w, hw, free', hs', hl'⟩ := splitDown_spec j hj hij htake hlink hbelow
  have hindex : index < mapSize := by omega
  have hhead := hl' index hindex
  rw [Function.update_self] at hhead
  have hcur : w.map index = v.map j := hhead.1
  have haddr : ¬ w.map index < 0x1000 := by
    have hr := hs'.held_region (b := ⟨v.map j, index + shift⟩) (by simp) (Block.covers_base _)
    simp only [region, firstAddress] at hr
    omega
  refine ⟨w, w.mem (w.map index), hw, if_neg haddr, free', fun i hi => ?_, ?_⟩
  · have hli := hl' i hi
    simp only [FreeArea.setMap]
    by_cases he : i = index
    · subst he
      rw [Function.update_self, hcur]
      exact hhead.2.2
    · rw [Function.update_of_ne he]
      rwa [Function.update_of_ne he] at hli
  · have hnb : (w.setMap index (w.mem (w.map index))).nbAlloc = w.nbAlloc := by
      simp only [FreeArea.setMap, FreeArea.nbAlloc]
      rw [Function.update_of_ne (by omega)]
    rw [hnb, hcur]
    exact hs'

/-- A successful allocation takes one block of the rounded-up size out of the
free lists; the rest of the tiling stays as it is. -/
theorem allocPhysicalPage_spec {n p : Nat} {s t : FreeArea} {free : Nat → List Nat}
    {held : List Block} (h : Inv s free held) (ht : allocPhysicalPage n s = .ok (p, t)) :
    t.outside = s.outside ∧ 0 < n ∧ n < nbPagesAlloc ∧
      ∃ free', Inv t free' (⟨p, Nat.clog 2 n + shift⟩ :: held) := by
  unfold allocPhysicalPage at ht
  obtain ⟨u, hu, ht⟩ := bind_ok.mp ht
  obtain ⟨ho, hnb, free₁, h₁⟩ := initAlloc_spec h hu
  split at ht
  · cases ht
  · rename_i hn
    have hn0 : 0 < n := by omega
    have hn1 : n < nbPagesAlloc := by omega
    obtain ⟨hp, hc⟩ := puiss2_pages hn0 hn1
    simp only [hp, Nat.add_sub_cancel] at ht
    obtain ⟨⟨j, v⟩, hv, ht⟩ := bind_ok.mp ht
    obtain ⟨w, hw, ht⟩ := bind_ok.mp ht
    obtain ⟨next, hnext, ht⟩ := bind_ok.mp ht
    cases ht
    have hwo := splitDown_outside j hw
    rcases scan_spec (mapSize + 1) h₁ hnb (Nat.le_of_lt hc) hv with
      ⟨rfl, hend⟩ | ⟨hvo, hij, hj, hcurr, free₂, h₂, hsame, hempty⟩
    · exact absurd hw (splitDown_end hc hend)
    refine ⟨(hwo.trans hvo).trans ho, hn0, hn1, ?_⟩
    have hbelow : ∀ m, Nat.clog 2 n ≤ m → m < j → free₂ m = [] := by
      intro m h1 h2
      rw [hsame m (by omega)]
      exact hempty m h1 h2
    obtain ⟨w', next', hw', hnext', hinv⟩ := split_take h₂ hij hj hcurr hbelow
    cases hw.symm.trans hw'
    cases hnext.symm.trans hnext'
    exact hinv

end DominOS.PageAllocator
