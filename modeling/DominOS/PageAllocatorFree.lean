import DominOS.PageAllocatorSpec

/-! What `free_physical_page` does to the tiling: buddies are unlinked from the
middle of their lists and merged until the buddy is not free, or until two whole
regions have been merged beyond the last level. -/
namespace DominOS.PageAllocator
open BlockTiling Fallible
variable {free : Nat → List Nat} {held : List Block} {s t : FreeArea}

/-- The part of the list already walked, and the pointer to its last element. -/
def Walked (front : List Nat) (previous : Nat) : Prop :=
  front = [] ∧ previous = 0 ∨ ∃ f, front = f ++ [previous] ∧ previous ≠ 0

theorem unlink_spec {index previous c : Nat} {front rest : List Nat} (hi : index < mapSize)
    (hs : Shape free held s.nbAlloc) (hl : Linked s free) (hf : free index = front ++ c :: rest)
    (hw : Walked front previous) : ∃ t, unlink s index previous c = .ok t ∧
      Linked t (Function.update free index (front ++ rest)) ∧ t.nbAlloc = s.nbAlloc ∧
      t.outside = s.outside := by
  have hchain := hl index hi
  rw [hf] at hchain
  have haddr {a : Nat} (ha : a ∈ front ++ c :: rest) : ¬ a < 0x1000 := by
    have hr := hs.base_region (Shape.mem_free hi (hf ▸ ha))
    simp only [region, firstAddress] at hr
    omega
  have hload : s.load c = .ok (s.mem c) := if_neg (haddr (by simp))
  unfold unlink
  rw [hload, ok_bind]
  rcases hw with ⟨rfl, rfl⟩ | ⟨f, rfl, hp⟩
  · refine ⟨_, rfl, ?_, ?_, rfl⟩
    · intro i hii
      simp only [FreeArea.setMap]
      by_cases he : i = index
      · subst he
        rw [Function.update_self, Function.update_self]
        exact hchain.2.2
      · rw [Function.update_of_ne he, Function.update_of_ne he]
        exact hl i hii
    · simp only [FreeArea.setMap, FreeArea.nbAlloc]
      rw [Function.update_of_ne (Nat.ne_of_gt hi)]
  · have hstore : s.store previous (s.mem c) =
        .ok { s with mem := Function.update s.mem previous (s.mem c) } :=
      if_neg (haddr (by simp))
    rw [if_pos hp, hstore]
    refine ⟨_, rfl, ?_, rfl, rfl⟩
    have hn := hs.free_nodup hi
    rw [hf, List.append_assoc, List.singleton_append] at hn
    rw [List.append_assoc, List.singleton_append] at hchain
    intro i hii
    by_cases he : i = index
    · subst he
      rw [Function.update_self, List.append_assoc, List.singleton_append]
      exact hchain.unlink hn
    · rw [Function.update_of_ne he]
      refine (hl i hii).update ?_
      intro hm
      exact he (hs.free_inj hii hi hm (by rw [hf]; simp))

def above (free : Nat → List Nat) (index : Nat) : Nat :=
  ((List.range' (index + 1) (mapSize - (index + 1))).map fun i => (free i).length).sum

theorem above_succ {index : Nat} (h : index + 1 < mapSize) :
    above free index = (free (index + 1)).length + above free (index + 1) := by
  have hn : mapSize - (index + 1) = mapSize - (index + 1 + 1) + 1 := by omega
  unfold above
  rw [hn, List.range'_succ, List.map_cons, List.sum_cons]

theorem above_update {index : Nat} {l : List Nat} :
    above (Function.update free index l) index = above free index := by
  unfold above
  refine congrArg List.sum (List.map_congr_left fun i hi => ?_)
  have hlow := (List.mem_range'_1.mp hi).1
  rw [Function.update_of_ne (by omega)]

theorem few_blocks {nb index : Nat} (h : Shape free held nb) (hi : index < mapSize) :
    (free index).length + above free index < mergeTurns := by
  have hlevels : (free index).length + above free index ≤ (freeBlocks mapSize free).length := by
    have hlen : (freeBlocks mapSize free).length =
        ((List.range' 0 mapSize).map fun i => (free i).length).sum := by
      unfold freeBlocks
      rw [List.length_flatMap, List.range_eq_range']
      simp only [List.length_map]
    have hsplit : List.range' 0 mapSize =
        List.range' 0 index ++ index :: List.range' (index + 1) (mapSize - (index + 1)) := by
      have hn : mapSize = index + (mapSize - (index + 1) + 1) := by omega
      conv_lhs => rw [hn]
      rw [← List.range'_append_1, List.range'_succ, Nat.zero_add]
    rw [hlen, hsplit, List.map_append, List.sum_append, List.map_cons, List.sum_cons]
    exact Nat.le_add_left _ _
  have hbytes : (freeBlocks mapSize free).length * 2 ^ 12 ≤ total (freeBlocks mapSize free) := by
    refine le_total fun b hb => ?_
    obtain ⟨i, _, a, _, rfl⟩ := mem_freeBlocks.mp hb
    exact Nat.pow_le_pow_right (Nat.succ_pos 1) (Nat.le_add_left shift i)
  have htotal := h.bytes
  have hnb := h.regions
  unfold total at htotal hbytes
  rw [List.map_append, List.sum_append] at htotal
  unfold firstAddress at htotal
  unfold mergeTurns
  omega

/-- The freed block merged as far as it goes. At the last level there is no list
to put it in: then it and its buddy are two whole regions. -/
def Merged (free : Nat → List Nat) (held : List Block) (nb page index : Nat) : Prop :=
  index < mapSize ∧ Shape free (⟨page, index + shift⟩ :: held) nb ∧
      (⟨page, index + shift⟩ : Block).buddy.base ∉ free index ∨
    index = mapSize ∧ Shape free ((⟨page, mapSize - 1 + shift⟩ : Block).buddy ::
      ⟨page, mapSize - 1 + shift⟩ :: held) nb

/-- The buddy is free: it is unlinked, and both are held. -/
theorem merge_step {page index previous : Nat} {front rest : List Nat} (hi : index < mapSize)
    (hs : Shape free (⟨page, index + shift⟩ :: held) s.nbAlloc) (hl : Linked s free)
    (hf : free index = front ++ (⟨page, index + shift⟩ : Block).buddy.base :: rest)
    (hw : Walked front previous) :
    ∃ u, unlink s index previous (⟨page, index + shift⟩ : Block).buddy.base = .ok u ∧
      u.nbAlloc = s.nbAlloc ∧ u.outside = s.outside ∧
      Linked u (Function.update free index (front ++ rest)) ∧
      Shape (Function.update free index (front ++ rest))
        ((⟨page, index + shift⟩ : Block).buddy :: ⟨page, index + shift⟩ :: held) u.nbAlloc := by
  obtain ⟨u, hu, hlu, hnb, hou⟩ := unlink_spec hi hs hl hf hw
  refine ⟨u, hu, hnb, hou, hlu, ?_⟩
  rw [hnb]
  exact hs.take hi (by rw [hf]; exact List.perm_middle)

theorem join_eq (page index : Nat) : (⟨page, index + shift⟩ : Block).join =
    ⟨if page < (⟨page, index + shift⟩ : Block).buddy.base then page
      else (⟨page, index + shift⟩ : Block).buddy.base, index + 1 + shift⟩ := by
  have horder : index + shift + 1 = index + 1 + shift := by omega
  unfold Block.join
  rw [horder]
  congr 1
  simp only
  split <;> omega

theorem mergeLoop_spec (turns : Nat) {page index scan previous : Nat} {front rest : List Nat}
    (hi : index < mapSize) (hs : Shape free (⟨page, index + shift⟩ :: held) s.nbAlloc)
    (hl : Linked s free) (hf : free index = front ++ rest) (hc : Chain s.mem scan rest)
    (hw : Walked front previous) (hb : (⟨page, index + shift⟩ : Block).buddy.base ∉ front)
    (hturns : rest.length + above free index < turns) :
    ∃ page' index' t, mergeLoop turns page index scan previous s = .ok (page', index', t) ∧
      t.outside = s.outside ∧ t.nbAlloc = s.nbAlloc ∧
      (∀ x, (⟨page, index + shift⟩ : Block).Covers x →
        (⟨page', min index' (mapSize - 1) + shift⟩ : Block).Covers x) ∧
      ∃ free', Linked t free' ∧ Merged free' held t.nbAlloc page' index' := by
  induction turns generalizing page index scan previous front rest s free with
  | zero => omega
  | succ turns ih =>
    unfold mergeLoop
    simp only [buddy_base]
    by_cases hz : scan = 0
    · subst hz
      obtain rfl := hc.eq_nil
      rw [List.append_nil] at hf
      refine ⟨page, index, s, if_pos rfl, rfl, rfl, fun x hx => ?_, free, hl,
        Or.inl ⟨hi, hs, hf ▸ hb⟩⟩
      rw [show min index (mapSize - 1) = index by omega]
      exact hx
    rw [if_neg hz]
    obtain ⟨r, rfl, hr⟩ := hc.eq_cons hz
    by_cases he : scan = (⟨page, index + shift⟩ : Block).buddy.base
    · subst he
      obtain ⟨u, hu, hnb, hou, hlu, hpair⟩ := merge_step hi hs hl hf hw
      rw [if_pos rfl, hu, ok_bind]
      by_cases htop : index + 1 = mapSize
      · obtain rfl : index = mapSize - 1 := by omega
        exact ⟨page, _, u, if_pos htop, hou, hnb, fun _ hx => hx, _, hlu, Or.inr ⟨htop, hpair⟩⟩
      · have hi' : index + 1 < mapSize := by omega
        have hjoin := hpair.rejoin
        rw [join_eq] at hjoin
        have hf' := (List.nil_append (Function.update free index (front ++ r) (index + 1))).symm
        have hleft : (Function.update free index (front ++ r) (index + 1)).length +
            above (Function.update free index (front ++ r)) (index + 1) < turns := by
          rw [← above_succ hi', above_update]
          rw [List.length_cons] at hturns
          omega
        obtain ⟨page', index', t, hrun, h1, h2, h3, h4⟩ := ih hi' hjoin hlu hf'
          (hlu (index + 1) hi') (Or.inl ⟨rfl, rfl⟩) (by simp) hleft
        rw [if_neg htop]
        refine ⟨page', index', t, hrun, h1.trans hou, h2.trans hnb, fun x hx => h3 x ?_, h4⟩
        rw [← join_eq]
        exact (join_covers (hs.held_aligned (by simp)) x).mpr (Or.inl hx)
    · have hregion := hs.base_region (Shape.mem_free hi (a := scan) (by rw [hf]; simp))
      have hload : s.load scan = .ok (s.mem scan) := by
        refine if_neg ?_
        simp only [region, firstAddress] at hregion
        omega
      have hf' : free index = (front ++ [scan]) ++ r := by
        rw [hf, List.append_assoc, List.singleton_append]
      have hb' : (⟨page, index + shift⟩ : Block).buddy.base ∉ front ++ [scan] := by
        simp only [List.mem_append, List.mem_singleton, not_or]
        exact ⟨hb, fun h => he h.symm⟩
      rw [if_neg he, hload, ok_bind]
      rw [List.length_cons] at hturns
      exact ih hi hs hl hf' hr (Or.inr ⟨front, rfl, hz⟩) hb' (by omega)

/-- A free either returns the block to the tiling, or has merged two whole
regions and written beyond the array. -/
theorem freePhysicalPage_spec {page n : Nat} (hn0 : 0 < n) (hn1 : n < nbPagesAlloc)
    (h : Inv s free (⟨page, Nat.clog 2 n + shift⟩ :: held)) :
    ∃ t, freePhysicalPage page n s = .ok t ∧
    ((t.outside = s.outside ∧ t.nbAlloc = s.nbAlloc ∧ ∃ free', Inv t free' held) ∨
      t.outside = true ∧ ∃ free' page', page' ≤ page ∧ Shape free'
        ((⟨page', mapSize - 1 + shift⟩ : Block).buddy :: ⟨page', mapSize - 1 + shift⟩ :: held)
        s.nbAlloc) := by
  obtain ⟨hp, hc⟩ := puiss2_pages hn0 hn1
  have hf := (List.nil_append (free (Nat.clog 2 n))).symm
  obtain ⟨page', index', u, hu, ho, hnb, hcov, free', hl, hm⟩ := mergeLoop_spec mergeTurns hc
    h.shape h.linked hf (h.linked _ hc) (Or.inl ⟨rfl, rfl⟩) (by simp) (few_blocks h.shape hc)
  have hpage : ¬ page' < 0x1000 := by
    have hr : region u.nbAlloc page' := by
      rcases hm with ⟨_, hs, _⟩ | ⟨_, hs⟩
      · exact hs.held_region (b := ⟨page', index' + shift⟩) (by simp) (Block.covers_base _)
      · exact hs.held_region (b := ⟨page', mapSize - 1 + shift⟩) (by simp) (Block.covers_base _)
    simp only [region, firstAddress] at hr
    omega
  have hstore (v : FreeArea) (next : Nat) : v.store page' next =
      .ok { v with mem := Function.update v.mem page' next } := if_neg hpage
  unfold freePhysicalPage
  simp only [hp, Nat.add_sub_cancel, hu, ok_bind, hstore]
  refine ⟨_, rfl, ?_⟩
  rcases hm with ⟨hi, hs, hb⟩ | ⟨hi, hs⟩
  · refine Or.inl ⟨?_, ?_, Function.update free' index' (page' :: free' index'), ?_, ?_⟩
    · simp only [FreeArea.touch, FreeArea.setMap, ho]
      simp [Nat.not_le.mpr hi]
    · simp only [FreeArea.touch, FreeArea.setMap, FreeArea.nbAlloc]
      rw [Function.update_of_ne (Nat.ne_of_gt hi)]
      exact hnb
    · have hout (i : Nat) (hii : i < mapSize) : page' ∉ free' i := fun hm =>
        hs.held_not_covers (b := ⟨page', index' + shift⟩) (by simp) hii hm (Block.covers_base _)
      intro i hii
      simp only [FreeArea.touch, FreeArea.setMap]
      by_cases he : i = index'
      · subst he
        rw [Function.update_self, Function.update_self]
        have hr := hs.held_region (b := ⟨page', i + shift⟩) (by simp) (Block.covers_base _)
        simp only [region, firstAddress] at hr
        refine ⟨rfl, by omega, ?_⟩
        rw [Function.update_self]
        exact (hl i hii).update (hout i hii)
      · rw [Function.update_of_ne he, Function.update_of_ne he]
        exact (hl i hii).update (hout i hii)
    · have hsame : (FreeArea.nbAlloc { (u.touch index').setMap index' page' with
          mem := Function.update ((u.touch index').setMap index' page').mem page'
            ((u.touch index').map index') }) = u.nbAlloc := by
        simp only [FreeArea.touch, FreeArea.setMap, FreeArea.nbAlloc]
        rw [Function.update_of_ne (Nat.ne_of_gt hi)]
      rw [hsame]
      exact hs.put hi hb
  · refine Or.inr ⟨?_, free', page', (hcov page (Block.covers_base _)).1, ?_⟩
    · simp [FreeArea.touch, FreeArea.setMap, hi]
    · rw [← hnb]
      exact hs

end DominOS.PageAllocator
