import DominOS.PageAllocatorFree
import DominOS.Runs

/-! Runs of the allocator: its callers allocate, free what they were given and
write into the blocks they hold. -/
namespace DominOS.PageAllocator
open BlockTiling Fallible Runs

/-- The allocator with the allocations that are live: address and page count. -/
structure Pool where
  frames : FreeArea
  live : List (Nat × Nat)

inductive Call where
  | alloc (n : Nat)
  | free (p n : Nat)
  | write (x v : Nat)

/-- The block that an allocation takes. -/
def blockOf (a : Nat × Nat) : Block := ⟨a.1, Nat.clog 2 a.2 + shift⟩

def Pool.held (P : Pool) : List Block := P.live.map blockOf

def Pool.Start (P : Pool) : Prop :=
  P.frames.map = (fun _ => 0) ∧ P.frames.outside = false ∧ P.live = []

/-- A call that returns; `write` stands for the owner of a block using it. -/
inductive Step : Pool → Call → Pool → Prop where
  | alloc {s t : FreeArea} {live : List (Nat × Nat)} {p n : Nat} :
      0 < n → n < nbPagesAlloc → allocPhysicalPage n s = .ok (p, t) →
      Step ⟨s, live⟩ (.alloc n) ⟨t, (p, n) :: live⟩
  | free {s t : FreeArea} {live : List (Nat × Nat)} {p n : Nat} :
      (p, n) ∈ live → freePhysicalPage p n s = .ok t →
      Step ⟨s, live⟩ (.free p n) ⟨t, live.erase (p, n)⟩
  | write {s : FreeArea} {live : List (Nat × Nat)} {a : Nat × Nat} {x v : Nat} :
      a ∈ live → (blockOf a).Covers x →
      Step ⟨s, live⟩ (.write x v) ⟨{ s with mem := Function.update s.mem x v }, live⟩

def Pool.boot : Pool := ⟨⟨fun _ => 0, fun _ => 0, false⟩, []⟩

theorem boot_start : Pool.boot.Start := ⟨rfl, rfl, rfl⟩

instance blockLawful : LawfulBEq (Nat × Nat) := inferInstance

def perform (c : Call) (P : Pool) : Except Fault Pool :=
  match c with
  | .alloc n =>
    if 0 < n ∧ n < nbPagesAlloc then do
      let (p, t) ← allocPhysicalPage n P.frames
      .ok ⟨t, (p, n) :: P.live⟩
    else .error .assertion
  | .free p n =>
    if (p, n) ∈ P.live then do
      .ok ⟨← freePhysicalPage p n P.frames, P.live.erase (p, n)⟩
    else .error .assertion
  | .write _ _ => .error .assertion

theorem perform_step {c : Call} {P Q : Pool} (h : perform c P = .ok Q) : Step P c Q := by
  cases c with
  | alloc n =>
    simp only [perform] at h
    split at h
    · rename_i hn
      obtain ⟨⟨p, t⟩, ht, h⟩ := bind_ok.mp h
      cases h
      exact Step.alloc hn.1 hn.2 ht
    · cases h
  | free p n =>
    simp only [perform] at h
    split at h
    · rename_i hm
      obtain ⟨t, ht, h⟩ := bind_ok.mp h
      cases h
      exact Step.free hm ht
    · cases h
  | write x v => cases h

/-- Blocks of all three regions are taken. The first region is freed, and a block that was split off. -/
def severalCalls : List Call :=
  [.alloc 0x3fff, .alloc 3, .alloc 0x2000, .alloc 0x2000, .free 0x8000000 3, .free 0x4000000 0x3fff]

structure Pool.Valid (P : Pool) : Prop where
  pages : ∀ a ∈ P.live, 0 < a.2 ∧ a.2 < nbPagesAlloc
  tiled : ∃ free, Inv P.frames free P.held

theorem start_valid {P : Pool} (h : P.Start) : P.Valid := by
  obtain ⟨hmap, _, hlive⟩ := h
  refine ⟨by simp [hlive], fun _ => [], ?_, ?_⟩
  · intro i _
    exact congrFun hmap i
  · have hnil : freeBlocks mapSize (fun _ => []) ++ P.held = [] := by
      simp [freeBlocks, Pool.held, hlive]
    have hnb : P.frames.nbAlloc = 0 := congrFun hmap mapSize
    refine ⟨?_, ?_, by omega, by simp⟩
    · rw [hnil, hnb]
      refine ⟨by simp, List.Pairwise.nil, fun x => ?_⟩
      simp [region_zero]
    · rw [hnil, hnb]
      rfl

theorem Inv.perm_held {s : FreeArea} {free : Nat → List Nat} {held held' : List Block}
    (h : Inv s free held) (hp : held.Perm held') : Inv s free held' :=
  ⟨h.linked, h.shape.perm_held hp⟩

theorem Inv.write {s : FreeArea} {free : Nat → List Nat} {held : List Block} {b : Block}
    {x v : Nat} (h : Inv s free held) (hb : b ∈ held) (hx : b.Covers x) :
    Inv { s with mem := Function.update s.mem x v } free held := by
  refine ⟨fun i hi => (h.linked i hi).update ?_, h.shape⟩
  intro hm
  exact h.shape.held_not_covers hb hi hm hx

theorem held_erase {live : List (Nat × Nat)} {a : Nat × Nat} (h : a ∈ live) :
    (live.map blockOf).Perm (blockOf a :: (live.erase a).map blockOf) :=
  (List.perm_cons_erase h).map blockOf

/-- What a free does to a pool: it stays valid, or the free has merged two whole
regions that hold no other live block. -/
theorem free_valid {s t : FreeArea} {live : List (Nat × Nat)} {p n : Nat}
    (h : Pool.Valid ⟨s, live⟩) (hm : (p, n) ∈ live) (ht : freePhysicalPage p n s = .ok t) :
    (t.outside = s.outside ∧ Pool.Valid ⟨t, live.erase (p, n)⟩) ∨
      t.outside = true ∧ ∃ free page, page ≤ p ∧ Shape free
        ((⟨page, mapSize - 1 + shift⟩ : Block).buddy :: ⟨page, mapSize - 1 + shift⟩ ::
          (live.erase (p, n)).map blockOf) s.nbAlloc := by
  obtain ⟨hn0, hn1⟩ := h.pages _ hm
  obtain ⟨free, hi⟩ := h.tiled
  obtain ⟨t', ht', hend⟩ := freePhysicalPage_spec hn0 hn1 (hi.perm_held (held_erase hm))
  cases ht.symm.trans ht'
  rcases hend with ⟨ho, _, free', hi'⟩ | ⟨ho, free', page, hle, hs⟩
  · refine Or.inl ⟨ho, ?_, free', hi'⟩
    exact fun a ha => h.pages a (List.mem_of_mem_erase ha)
  · exact Or.inr ⟨ho, free', page, hle, hs⟩

theorem alloc_valid {s t : FreeArea} {live : List (Nat × Nat)} {p n : Nat}
    (h : Pool.Valid ⟨s, live⟩) (ht : allocPhysicalPage n s = .ok (p, t)) :
    t.outside = s.outside ∧ Pool.Valid ⟨t, (p, n) :: live⟩ := by
  obtain ⟨free, hi⟩ := h.tiled
  obtain ⟨ho, hn0, hn1, free', hi'⟩ := allocPhysicalPage_spec hi ht
  refine ⟨ho, ?_, free', hi'⟩
  intro a ha
  rcases List.mem_cons.mp ha with rfl | ha
  · exact ⟨hn0, hn1⟩
  · exact h.pages a ha

theorem write_valid {s : FreeArea} {live : List (Nat × Nat)} {a : Nat × Nat} {x v : Nat}
    (h : Pool.Valid ⟨s, live⟩) (ha : a ∈ live) (hx : (blockOf a).Covers x) :
    Pool.Valid ⟨{ s with mem := Function.update s.mem x v }, live⟩ := by
  obtain ⟨free, hi⟩ := h.tiled
  exact ⟨h.pages, free, hi.write (List.mem_map_of_mem ha) hx⟩

/-- A call that did not index `map` outside `0..14`. -/
def InsideStep (P Q : Pool) : Prop := ∃ c, Step P c Q ∧ Q.frames.outside = false

theorem InsideStep.valid {P Q : Pool} (h : P.Valid) (hs : InsideStep P Q) : Q.Valid := by
  obtain ⟨c, hs, hin⟩ := hs
  cases hs with
  | alloc _ _ ht => exact (alloc_valid h ht).2
  | free hm ht =>
    rcases free_valid h hm ht with ⟨_, hv⟩ | ⟨ho, _⟩
    · exact hv
    · rw [ho] at hin
      cases hin
  | write ha hx => exact write_valid h ha hx

/-- A live block starts at a multiple of its size, lies in the managed range, and
holds the pages that were asked for. -/
theorem Pool.Valid.live_block {P : Pool} (h : P.Valid) {a : Nat × Nat} (ha : a ∈ P.live) :
    (blockOf a).size ∣ a.1 ∧ 0x4000000 ≤ a.1 ∧ a.1 + (blockOf a).size ≤ 0x10000000 ∧
      a.2 * 0x1000 ≤ (blockOf a).size := by
  obtain ⟨free, hi⟩ := h.tiled
  have hb : blockOf a ∈ P.held := List.mem_map_of_mem ha
  have hpos := (blockOf a).size_pos
  have hfirst := hi.shape.held_region hb (blockOf a).covers_base
  have hlast := hi.shape.held_region hb (x := a.1 + ((blockOf a).size - 1))
    ⟨Nat.le_add_right _ _, Nat.add_lt_add_left (by omega) _⟩
  have hnb := hi.shape.regions
  have hbase : (blockOf a).base = a.1 := rfl
  simp only [region, firstAddress, hbase] at hfirst hlast
  refine ⟨hi.shape.held_aligned hb, hfirst.1, by omega, ?_⟩
  have hn : a.2 ≤ 2 ^ Nat.clog 2 a.2 := Nat.le_pow_clog (by omega) _
  have hsize : (blockOf a).size = 2 ^ Nat.clog 2 a.2 * 0x1000 := by
    simp only [blockOf, Block.size, pow_add]
    rfl
  rw [hsize]
  exact Nat.mul_le_mul_right _ hn

/-- As long as no call fails or leaves `map`, what is live and what is free never overlap. -/
theorem alloc_disjoint {P : Pool} (h : Reachable Pool.Start InsideStep P) :
    (∀ a ∈ P.live, (blockOf a).size ∣ a.1 ∧ 0x4000000 ≤ a.1 ∧
      a.1 + (blockOf a).size ≤ 0x10000000 ∧ a.2 * 0x1000 ≤ (blockOf a).size) ∧
    (P.live.map blockOf).Pairwise Block.Apart ∧
    ∃ free, Linked P.frames free ∧ (freeBlocks mapSize free).Pairwise Block.Apart ∧
      ∀ a ∈ P.live, ∀ i < mapSize, ∀ x ∈ free i, (blockOf a).Apart ⟨x, i + shift⟩ := by
  have hv := h.invariant (fun _ => start_valid) (fun _ _ => InsideStep.valid)
  obtain ⟨free, hi⟩ := hv.tiled
  obtain ⟨hfree, hlive, hcross⟩ := List.pairwise_append.mp hi.shape.tiling.apart
  refine ⟨fun a ha => hv.live_block ha, hlive, free, hi.linked, hfree, ?_⟩
  intro a ha i hii x hx
  exact (hcross _ (mem_freeBlocks.mpr ⟨i, hii, x, hx, rfl⟩) _ (List.mem_map_of_mem ha)).symm

def performInside (c : Call) (P : Pool) : Except Fault Pool := do
  let Q ← perform c P
  if Q.frames.outside then .error .assertion else .ok Q

theorem performInside_step {c : Call} {P Q : Pool} (h : performInside c P = .ok Q) :
    InsideStep P Q := by
  obtain ⟨R, hR, h⟩ := bind_ok.mp h
  split at h
  · cases h
  · rename_i hout
    cases h
    exact ⟨c, perform_step hR, Bool.eq_false_iff.mpr hout⟩

theorem alloc_disjoint_several : ∃ P : Pool, P.live = [(0xc000000, 0x2000), (0xa000000, 0x2000)] ∧
    (∀ a ∈ P.live, (blockOf a).size ∣ a.1 ∧ 0x4000000 ≤ a.1 ∧
      a.1 + (blockOf a).size ≤ 0x10000000 ∧ a.2 * 0x1000 ≤ (blockOf a).size) ∧
    (P.live.map blockOf).Pairwise Block.Apart ∧
    ∃ free, Linked P.frames free ∧ (freeBlocks mapSize free).Pairwise Block.Apart ∧
      ∀ a ∈ P.live, ∀ i < mapSize, ∀ x ∈ free i, (blockOf a).Apart ⟨x, i + shift⟩ := by
  have h : (exec performInside severalCalls Pool.boot).map Pool.live =
      .ok [(0xc000000, 0x2000), (0xa000000, 0x2000)] := by rfl
  obtain ⟨P, hP, hlive⟩ := map_ok.mp h
  exact ⟨P, hlive, alloc_disjoint ((Reachable.start boot_start).exec
    (fun _ _ _ => performInside_step) hP)⟩

/-- A free leaves some other block live in the upper two regions, once all three
are active and it frees there. -/
def KeepsUpper (P : Pool) : Call → Prop
  | .free p n => P.frames.nbAlloc = 3 → secondAddress ≤ p →
    ∃ a ∈ P.live.erase (p, n), secondAddress ≤ a.1
  | _ => True

def KeepingStep (P Q : Pool) : Prop := ∃ c, KeepsUpper P c ∧ Step P c Q

instance keepsUpperDecidable (P : Pool) : (c : Call) → Decidable (KeepsUpper P c)
  | .alloc _ => .isTrue trivial
  | .free p n => inferInstanceAs (Decidable (P.frames.nbAlloc = 3 → secondAddress ≤ p →
      ∃ a ∈ P.live.erase (p, n), secondAddress ≤ a.1))
  | .write _ _ => .isTrue trivial

def performKeeping : Call → Pool → Except Fault Pool := allowing KeepsUpper .assertion perform

theorem performKeeping_step {c : Call} {P Q : Pool} (h : performKeeping c P = .ok Q) :
    KeepingStep P Q := by
  obtain ⟨hk, hs⟩ := allowing_ok h
  exact ⟨c, hk, perform_step hs⟩

theorem severalCalls_run : ∃ P : Pool, Reachable Pool.Start KeepingStep P ∧
    P.live = [(0xc000000, 0x2000), (0xa000000, 0x2000)] ∧ P.frames.nbAlloc = 3 := by
  have h : (exec performKeeping severalCalls Pool.boot).map (fun P => (P.live, P.frames.nbAlloc)) =
      .ok ([(0xc000000, 0x2000), (0xa000000, 0x2000)], 3) := by rfl
  obtain ⟨P, hP, h⟩ := map_ok.mp h
  obtain ⟨hlive, hnb⟩ := Prod.mk.inj h
  exact ⟨P, (Reachable.start boot_start).exec (fun _ _ _ => performKeeping_step) hP, hlive, hnb⟩

theorem upper_pair {free : Nat → List Nat} {held : List Block} {nb page : Nat}
    (h : Shape free ((⟨page, mapSize - 1 + shift⟩ : Block).buddy ::
      ⟨page, mapSize - 1 + shift⟩ :: held) nb) :
    nb = 3 ∧ secondAddress ≤ page ∧ ∀ b ∈ held, b.base < secondAddress := by
  have hal := h.held_aligned (b := ⟨page, mapSize - 1 + shift⟩) (by simp)
  obtain ⟨⟨m, hm⟩, hhalf⟩ := halves hal
  generalize hc : (⟨page, mapSize - 1 + shift⟩ : Block) = c at *
  have hpage : c.base = page := by rw [← hc]
  have hsize : c.size = firstAddress := by rw [← hc]; rfl
  have hbsize : c.buddy.size = firstAddress := hsize
  have hm : c.join.base = 2 * firstAddress * m := by rw [hm, ← hc]; rfl
  have h1 := h.held_region (by simp) c.covers_base
  have h2 := h.held_region (by simp) c.buddy.covers_base
  have h3 := h.regions
  simp only [region, firstAddress] at h1 h2 hm hsize hbsize
  have hm1 : m = 1 := by omega
  subst hm1
  refine ⟨by omega, by simp only [secondAddress]; omega, ?_⟩
  intro b hb
  by_contra hge
  have hb1 := h.held_region (by simp [hb]) b.covers_base
  have hp := (List.pairwise_append.mp h.tiling.apart).2.1
  have hq := List.pairwise_cons.mp hp
  have n1 := ((hq.1 b (by simp [hb])).symm).not_covers b.covers_base
  have n2 := (((List.pairwise_cons.mp hq.2).1 b hb).symm).not_covers b.covers_base
  simp only [region, firstAddress, Block.Covers, secondAddress] at *
  omega

theorem KeepingStep.valid {P Q : Pool} (h : P.Valid ∧ P.frames.outside = false)
    (hs : KeepingStep P Q) : Q.Valid ∧ Q.frames.outside = false := by
  obtain ⟨hv, hout⟩ := h
  obtain ⟨c, hk, hs⟩ := hs
  cases hs with
  | alloc _ _ ht =>
    obtain ⟨ho, hv'⟩ := alloc_valid hv ht
    exact ⟨hv', ho.trans hout⟩
  | free hm ht =>
    rcases free_valid hv hm ht with ⟨ho, hv'⟩ | ⟨_, free, page, hle, hs⟩
    · exact ⟨hv', ho.trans hout⟩
    · obtain ⟨hnb, hp, hlow⟩ := upper_pair hs
      obtain ⟨a, ha, hge⟩ := hk hnb (hp.trans hle)
      have := hlow _ (List.mem_map_of_mem ha)
      exact absurd hge (Nat.not_le.mpr this)
  | write ha hx => exact ⟨write_valid hv ha hx, hout⟩

theorem region_whole {nb : Nat} {c : Block} (hc : c.Aligned) (ho : c.order ≤ mapSize - 1 + shift)
    {x y : Nat} (hx : c.Covers x) (hy : c.Covers y) (h : region nb x) : region nb y := by
  obtain ⟨w, hw⟩ : ∃ w : Block, w = ⟨firstAddress * (x / firstAddress), mapSize - 1 + shift⟩ :=
    ⟨_, rfl⟩
  have hal : w.Aligned := ⟨x / firstAddress, by rw [hw]; rfl⟩
  have hsize : w.size = firstAddress := by rw [hw]; rfl
  have hbase : w.base = firstAddress * (x / firstAddress) := by rw [hw]
  have hwx : w.Covers x := by
    simp only [Block.Covers, hsize, hbase, firstAddress]
    omega
  have hwy := Block.covers_of_meet hc hal (by rw [hw]; exact ho) hx hwx y hy
  simp only [Block.Covers, hsize, hbase, region, firstAddress] at *
  omega

theorem Shape.buddy_not_free {free : Nat → List Nat} {held : List Block} {nb : Nat} {b : Block}
    (h : Shape free held nb) (hb : b ∈ freeBlocks mapSize free) :
    b.buddy ∉ freeBlocks mapSize free := by
  intro hbb
  obtain ⟨i, hi, a, ha, rfl⟩ := mem_freeBlocks.mp hb
  obtain ⟨j, _, c, hc, he⟩ := mem_freeBlocks.mp hbb
  have hij : i + shift = j + shift := congrArg Block.order he
  have hij : i = j := by omega
  subst hij
  exact h.buddies i hi a ha (by rw [he]; exact hc)

theorem whole_regions {free : Nat → List Nat} {nb : Nat} (h : Shape free [] nb) :
    (∀ i < mapSize - 1, free i = []) ∧
      ∀ a, a ∈ free (mapSize - 1) ↔ ∃ k < nb, a = (k + 1) * firstAddress := by
  have ht := h.tiling
  rw [List.append_nil] at ht
  have hle : ∀ b ∈ freeBlocks mapSize free, b.order ≤ mapSize - 1 + shift := by
    intro b hb
    obtain ⟨i, hi, a, _, rfl⟩ := mem_freeBlocks.mp hb
    simp only [mapSize] at *
    omega
  have horder := ht.order_eq_top (mapSize - 1 + shift) hle
    (fun c hc ho x y hx hy hr => region_whole hc ho hx hy hr) fun b hb _ => h.buddy_not_free hb
  refine ⟨fun i hi => ?_, fun a => ⟨fun ha => ?_, ?_⟩⟩
  · rw [List.eq_nil_iff_forall_not_mem]
    intro a ha
    have := horder _ (mem_freeBlocks.mpr ⟨i, Nat.lt_of_lt_pred hi, a, ha, rfl⟩)
    simp only [mapSize, shift] at this hi
    omega
  · have hb : (⟨a, mapSize - 1 + shift⟩ : Block) ∈ freeBlocks mapSize free :=
      mem_freeBlocks.mpr ⟨_, by decide, a, ha, rfl⟩
    obtain ⟨m, hm⟩ := ht.aligned _ hb
    have hm : a = firstAddress * m := hm
    have hr := (ht.cover a).mpr ⟨_, hb, Block.covers_base _⟩
    simp only [region, firstAddress] at hr hm ⊢
    exact ⟨m - 1, by omega, by omega⟩
  · rintro ⟨k, hk, rfl⟩
    have hr : region nb ((k + 1) * firstAddress) := by
      simp only [region, firstAddress]
      omega
    obtain ⟨b, hb, hcov⟩ := (ht.cover _).mp hr
    have hal : (⟨(k + 1) * firstAddress, mapSize - 1 + shift⟩ : Block).Aligned :=
      ⟨k + 1, Nat.mul_comm _ _⟩
    have he := Block.eq_of_meet (ht.aligned b hb) hal (horder b hb) hcov (Block.covers_base _)
    obtain ⟨i, _, a, ha, hbi⟩ := mem_freeBlocks.mp hb
    obtain ⟨h1, h2⟩ := Block.mk.inj (he.symm.trans hbi)
    have hi : i = mapSize - 1 := by omega
    rw [h1, ← hi]
    exact ha

/-- Nothing of the activated regions is lost, and no buddies stay apart. -/
structure Pool.Conserved (P : Pool) (free : Nat → List Nat) : Prop where
  linked : Linked P.frames free
  regions : P.frames.nbAlloc ≤ 3
  bytes : total (freeBlocks mapSize free) + total P.held = P.frames.nbAlloc * 0x4000000
  buddies : ∀ i < mapSize, ∀ a ∈ free i, (⟨a, i + shift⟩ : Block).buddy.base ∉ free i
  coalesced : P.live = [] → (∀ i < mapSize - 1, free i = []) ∧
    ∀ a, a ∈ free (mapSize - 1) ↔ ∃ k < P.frames.nbAlloc, a = (k + 1) * 0x4000000

/-- Bytes are conserved and buddies coalesce in every run that keeps an upper block. -/
theorem alloc_conserves {P : Pool} (h : Reachable Pool.Start KeepingStep P) :
    P.frames.outside = false ∧ ∃ free, P.Conserved free := by
  obtain ⟨hv, hout⟩ := h.invariant (fun _ hs => ⟨start_valid hs, hs.2.1⟩)
    (fun _ _ => KeepingStep.valid)
  obtain ⟨free, hi⟩ := hv.tiled
  refine ⟨hout, free, hi.linked, hi.shape.regions, ?_, hi.shape.buddies, ?_⟩
  · have hb := hi.shape.bytes
    simp only [total, List.map_append, List.sum_append] at hb ⊢
    exact hb
  · intro hnil
    have hs := hi.shape
    rw [Pool.held, hnil, List.map_nil] at hs
    exact whole_regions hs

theorem alloc_conserves_several : ∃ P : Pool, P.live = [(0xc000000, 0x2000), (0xa000000, 0x2000)] ∧
    P.frames.nbAlloc = 3 ∧ P.frames.outside = false ∧ ∃ free, P.Conserved free := by
  obtain ⟨P, hrun, hlive, hnb⟩ := severalCalls_run
  exact ⟨P, hlive, hnb, alloc_conserves hrun⟩

def freeLastUpper : List Call :=
  [.alloc 0x3fff, .alloc 0x2000, .alloc 0x2000, .alloc 0x2000, .alloc 0x2000,
    .free 0x8000000 0x2000, .free 0xa000000 0x2000, .free 0xc000000 0x2000,
    .free 0xe000000 0x2000, .free 0x4000000 0x3fff]

/-- Two regions merge beyond `map[14]`: `nb_alloc` is overwritten and both are lost. -/
theorem upper_regions_lost :
    ∃ P, Reachable Pool.Start (fun P Q => ∃ c, Step P c Q) P ∧ P.live = [] ∧
      P.frames.nbAlloc = 0xc000000 ∧ P.frames.map 14 = 0x4000000 ∧
      P.frames.mem 0x4000000 = 0 ∧ ¬ ∃ free, P.Conserved free := by
  have h : (exec perform freeLastUpper Pool.boot).map (fun P => (P.live, P.frames.nbAlloc,
      P.frames.map 14, P.frames.mem 0x4000000)) = .ok ([], 0xc000000, 0x4000000, 0) := by rfl
  obtain ⟨P, hP, h⟩ := map_ok.mp h
  simp only [Prod.mk.injEq] at h
  obtain ⟨hlive, hnb, hmap, hmem⟩ := h
  refine ⟨P, (Reachable.start boot_start).exec (fun _ _ _ h => ⟨_, perform_step h⟩) hP, hlive,
    hnb, hmap, hmem, ?_⟩
  rintro ⟨free, hc⟩
  have := hc.regions
  omega

end DominOS.PageAllocator
