import DominOS.Paging
import Mathlib.Data.List.Perm.Basic

/-! What the loops of paging.c leave in a directory, and which frames they take. -/
namespace DominOS.Paging
open Fallible

variable {s s' : Frames} {a b : Nat × Nat} {dir dir' : Dir} {flags : Flags} {n v virt phys : Nat}

section Allocator

theorem Apart.symm (h : Apart a b) : Apart b a := h.elim Or.inr Or.inl

theorem Apart.ne (h : Apart a b) (ha : 0 < a.2) : a ≠ b := by
  rintro rfl
  unfold Apart at h
  omega

structure Frames.Valid (s : Frames) : Prop where
  apart : s.live.Pairwise Apart
  pos : ∀ a ∈ s.live, 0 < a.2
  aligned : ∀ a ∈ s.live, a.1 % 0x1000 = 0 ∧ a.1 < 0x10000000

theorem Frames.Valid.nodup (h : s.Valid) : s.live.Nodup := by
  refine h.apart.imp_of_mem fun {a b} ha _ hab => ?_
  exact hab.ne (h.pos a ha)

theorem Frames.Valid.perm (h : s.Valid) (hp : s'.live.Perm s.live) : s'.Valid where
  apart := (hp.pairwise_iff Apart.symm).mpr h.apart
  pos a ha := h.pos a (hp.mem_iff.mp ha)
  aligned a ha := h.aligned a (hp.mem_iff.mp ha)

theorem alloc_ok {x : Nat} (h : s.alloc n = .ok (x, s')) :
    s'.live = (x, n) :: s.live ∧ s.Admits x n ∧ 0 < n := by
  unfold Frames.alloc at h
  split at h
  · cases h
  rename_i hn
  split at h
  · cases h
  · split at h
    · rename_i hadm
      cases h
      exact ⟨rfl, hadm, by omega⟩
    · cases h

theorem alloc_head {x : Nat} (h : s.alloc n = .ok (x, s')) : s.offers.head? = some x := by
  unfold Frames.alloc at h
  split at h
  · cases h
  split at h
  · cases h
  · rename_i a offers ho
    split at h
    · cases h
      rw [ho, List.head?_cons]
    · cases h

theorem Frames.Valid.part (hv : s.Valid) {l : List (Nat × Nat)} (hp : s.live.Perm (l ++ s'.live)) :
    s'.Valid where
  apart := (List.pairwise_append.mp ((hp.pairwise_iff Apart.symm).mp hv.apart)).2.1
  pos a ha := hv.pos a (hp.mem_iff.mpr (List.mem_append_right _ ha))
  aligned a ha := hv.aligned a (hp.mem_iff.mpr (List.mem_append_right _ ha))

theorem Frames.Valid.alloc {x : Nat} (hv : s.Valid) (h : s.alloc n = .ok (x, s')) : s'.Valid := by
  obtain ⟨hl, ⟨hal, _, hhigh, hap⟩, hn⟩ := alloc_ok h
  refine ⟨?_, ?_, ?_⟩ <;> rw [hl]
  · exact List.pairwise_cons.mpr ⟨hap, hv.apart⟩
  · exact List.forall_mem_cons.mpr ⟨hn, hv.pos⟩
  · exact List.forall_mem_cons.mpr ⟨⟨hal, by omega⟩, hv.aligned⟩

theorem free_ok (h : s.free a = .ok s') : a ∈ s.live ∧ s'.live = s.live.erase a := by
  unfold Frames.free at h
  split at h
  · rename_i hm
    cases h
    exact ⟨hm, rfl⟩
  · cases h

theorem free_head {rest : List (Nat × Nat)} (h : s.live.Perm (a :: rest)) :
    ∃ s', s.free a = .ok s' ∧ s'.live.Perm rest ∧ s'.offers = s.offers := by
  have hm : a ∈ s.live := h.mem_iff.mpr List.mem_cons_self
  have h' := h.erase a
  rw [List.erase_cons_head] at h'
  exact ⟨{ s with live := s.live.erase a }, if_pos hm, h', rfl⟩

theorem admits_of_step {P Q : PageAllocator.Pool} (hP : P.Valid) (hl : s.live = P.live)
    (h : PageAllocator.Step P (.alloc n) Q) : ∃ x, Q.live = (x, n) :: P.live ∧ s.Admits x n := by
  cases h with
  | @alloc f f' live x _ hn hlt hrun =>
    obtain ⟨_, hQ⟩ := PageAllocator.alloc_valid hP hrun
    obtain ⟨hdvd, hlow, hhigh, hsize⟩ := hQ.live_block List.mem_cons_self
    obtain ⟨free, hi⟩ := hQ.tiled
    have hap := (List.pairwise_append.mp hi.shape.tiling.apart).2.1
    have hpage : (x, n).1 % 0x1000 = 0 := by
      have hblock : (PageAllocator.blockOf (x, n)).size = 2 ^ Nat.clog 2 n * 0x1000 := by
        simp only [PageAllocator.blockOf, BlockTiling.Block.size, pow_add]
        rfl
      rw [hblock] at hdvd
      exact Nat.mod_eq_zero_of_dvd ((Nat.dvd_mul_left _ _).trans hdvd)
    refine ⟨x, rfl, hpage, hlow, by omega, fun b hb => ?_⟩
    rw [hl] at hb
    have hb' := hQ.live_block (List.mem_cons_of_mem _ hb)
    have hxb : (PageAllocator.blockOf (x, n)).Apart (PageAllocator.blockOf b) :=
      (List.pairwise_cons.mp hap).1 _ (List.mem_map_of_mem hb)
    rcases hxb with h | h
    · exact Or.inl (le_trans (Nat.add_le_add_left hsize _) h)
    · exact Or.inr (le_trans (Nat.add_le_add_left hb'.2.2.2 _) h)

end Allocator

section Index

theorem pdIndex_eq : pdIndex v = v / 0x400000 := Nat.shiftRight_eq_div_pow v 22

theorem ptIndex_eq : ptIndex v = v / 0x1000 % 0x400 := by
  unfold ptIndex
  rw [Nat.shiftRight_eq_div_pow]
  exact Nat.and_two_pow_sub_one_eq_mod _ 10

theorem same_page {u : Nat} :
    (pdIndex v = pdIndex u ∧ ptIndex v = ptIndex u) ↔ v / 0x1000 = u / 0x1000 := by
  rw [pdIndex_eq, pdIndex_eq, ptIndex_eq, ptIndex_eq]
  omega

theorem align_page : align v = v / 0x1000 * 0x1000 := by
  unfold align
  omega

theorem alignUp_page : alignUp v = v / 0x1000 * 0x1000 := by
  unfold alignUp
  split
  · omega
  · exact align_page

theorem turns_pages {u : Nat} (h : v / 0x1000 ≤ u / 0x1000) :
    turns (align v) (alignUp u) = u / 0x1000 - v / 0x1000 + 1 := by
  unfold turns pageSize
  rw [align_page, alignUp_page, if_pos (Nat.mul_le_mul_right _ h), ← Nat.sub_mul]
  omega

end Index

def Within (virt n v : Nat) : Prop := virt / 0x1000 ≤ v / 0x1000 ∧ v / 0x1000 < virt / 0x1000 + n

instance : Decidable (Within virt n v) := inferInstanceAs (Decidable (_ ∧ _))

theorem entry_set {table : Table} {e : Option Entry} {old : Nat → Option Entry}
    (h : ∀ i, table.entries i = old i) (hd : ∀ i, (dir (pdIndex virt)).bind (fun t => t.entries i) = old i) :
    Dir.entry (Function.update dir (pdIndex virt) (some (table.set (ptIndex virt) e))) v =
      if v / 0x1000 = virt / 0x1000 then e else Dir.entry dir v := by
  unfold Dir.entry
  by_cases hp : pdIndex v = pdIndex virt
  · rw [hp, Function.update_self, Option.bind_some, hd, ← h]
    unfold Table.set
    by_cases ht : ptIndex v = ptIndex virt
    · rw [if_pos (same_page.mp ⟨hp, ht⟩), ht]
      exact Function.update_self ..
    · rw [if_neg fun hs => ht (same_page.mpr hs).2]
      exact Function.update_of_ne ht ..
  · rw [Function.update_of_ne hp, if_neg fun hs => hp (same_page.mpr hs).1]

section Tables

theorem filterMap_update {α β : Type} [DecidableEq α] {f : α → Option β} {l : List α} {i : α} {x : β}
    (hl : l.Nodup) (hi : i ∈ l) (hf : f i = none) :
    (l.filterMap (Function.update f i (some x))).Perm (x :: l.filterMap f) := by
  induction l with
  | nil => cases hi
  | cons j l ih =>
    obtain ⟨hj, hl⟩ := List.nodup_cons.mp hl
    by_cases he : j = i
    · subst he
      have hrest : l.filterMap (Function.update f j (some x)) = l.filterMap f :=
        List.filterMap_congr fun k hk => Function.update_of_ne (fun h : k = j => hj (h ▸ hk)) ..
      rw [List.filterMap_cons_some (Function.update_self ..), List.filterMap_cons_none hf, hrest]
    · have hi : i ∈ l := (List.mem_cons.mp hi).resolve_left fun h => he h.symm
      have hsame : Function.update f i (some x) j = f j := Function.update_of_ne he ..
      cases hfj : f j with
      | none =>
        rw [List.filterMap_cons_none (hsame.trans hfj), List.filterMap_cons_none hfj]
        exact ih hl hi
      | some y =>
        rw [List.filterMap_cons_some (hsame.trans hfj), List.filterMap_cons_some hfj]
        exact ((ih hl hi).cons y).trans (List.Perm.swap x y _)

theorem ownTables_new {i : Nat} {table : Table} (hlow : 64 ≤ i) (hhigh : i < 1024)
    (hd : dir i = none) :
    (ownTables (Function.update dir i (some table))).Perm ((table.addr, 1) :: ownTables dir) := by
  have hf : (fun j => (Function.update dir i (some table) j).map fun t => (t.addr, 1)) =
      Function.update (fun j => (dir j).map fun t => (t.addr, 1)) i (some (table.addr, 1)) := by
    funext j
    by_cases hj : j = i
    · rw [hj, Function.update_self, Function.update_self, Option.map_some]
    · rw [Function.update_of_ne hj, Function.update_of_ne hj]
  unfold ownTables
  rw [hf]
  refine filterMap_update List.nodup_range' (List.mem_range'_1.mpr ⟨hlow, hhigh⟩) ?_
  rw [hd, Option.map_none]

theorem ownTables_set {i : Nat} {table table' : Table} (hd : dir i = some table)
    (ha : table'.addr = table.addr) :
    ownTables (Function.update dir i (some table')) = ownTables dir := by
  unfold ownTables
  refine List.filterMap_congr fun j _ => ?_
  by_cases hj : j = i
  · rw [hj, Function.update_self, hd, Option.map_some, Option.map_some, ha]
  · rw [Function.update_of_ne hj]

end Tables

structure Grown (s s' : Frames) (dir dir' : Dir) (new : List (Nat × Nat)) : Prop where
  live : s'.live.Perm (new ++ s.live)
  tables : (ownTables dir').Perm (new ++ ownTables dir)
  valid : s.Valid → s'.Valid

theorem Grown.refl : Grown s s dir dir [] := ⟨.refl _, .refl _, id⟩

theorem Grown.trans {s'' : Frames} {dir'' : Dir} {new new' : List (Nat × Nat)}
    (h : Grown s s' dir dir' new) (h' : Grown s' s'' dir' dir'' new') :
    Grown s s'' dir dir'' (new' ++ new) where
  live := by
    rw [List.append_assoc]
    exact h'.live.trans (h.live.append_left new')
  tables := by
    rw [List.append_assoc]
    exact h'.tables.trans (h.tables.append_left new')
  valid hv := h'.valid (h.valid hv)

def Own (v : Nat) : Prop := 64 ≤ pdIndex v ∧ pdIndex v < 1024

theorem own_iff : Own v ↔ 0x10000000 ≤ v ∧ v < 0x100000000 := by
  unfold Own
  rw [pdIndex_eq]
  omega

theorem mapPage_spec (hv : Own virt) (h : mapPage virt phys flags dir s = .ok (dir', s')) :
    (∃ new, Grown s s' dir dir' new) ∧ ∀ v, Dir.entry dir' v =
      if v / 0x1000 = virt / 0x1000 then some ⟨phys, flags⟩ else Dir.entry dir v := by
  unfold mapPage at h
  split at h
  · rename_i table hd
    cases h
    have htables := ownTables_set hd
      (show (table.set (ptIndex virt) (some ⟨phys, flags⟩)).addr = table.addr from rfl)
    refine ⟨⟨[], .refl _, ?_, id⟩, fun v => entry_set (fun _ => rfl) fun i => by rw [hd]; rfl⟩
    rw [htables, List.nil_append]
  · rename_i hd
    obtain ⟨⟨pt, s₁⟩, halloc, hrest⟩ := bind_ok.mp h
    cases hrest
    have hl := (alloc_ok halloc).1
    refine ⟨⟨[(pt, 1)], ?_, ownTables_new hv.1 hv.2 hd, fun hs => hs.alloc halloc⟩,
      fun v => entry_set (fun _ => rfl) fun i => by rw [hd]; rfl⟩
    rw [hl]
    exact .refl _

theorem mapPages_spec (hv : ∀ u, Within virt n u → Own u)
    (h : mapPages flags n virt phys dir s = .ok (dir', s')) :
    (∃ new, Grown s s' dir dir' new) ∧ ∀ v, Dir.entry dir' v =
      if Within virt n v then some ⟨(phys + (v / 0x1000 - virt / 0x1000) * 0x1000) % 2 ^ 32, flags⟩
      else Dir.entry dir v := by
  induction n generalizing virt phys dir s with
  | zero =>
    cases h
    refine ⟨⟨[], .refl⟩, fun v => ?_⟩
    rw [if_neg (by unfold Within; omega)]
  | succ n ih =>
    obtain ⟨⟨dir₁, s₁⟩, hpage, hrest⟩ := bind_ok.mp h
    have hnext : (virt + pageSize) / 0x1000 = virt / 0x1000 + 1 := by
      unfold pageSize
      omega
    have hsucc (u : Nat) :
        Within virt (n + 1) u ↔ u / 0x1000 = virt / 0x1000 ∨ Within (virt + pageSize) n u := by
      unfold Within
      rw [hnext]
      omega
    have hown := hv virt ((hsucc virt).mpr (Or.inl rfl))
    rw [Nat.mod_eq_of_lt (show virt < 2 ^ 32 from (own_iff.mp hown).2)] at hpage
    obtain ⟨⟨new, hg⟩, he⟩ := mapPage_spec hown hpage
    obtain ⟨⟨new', hg'⟩, he'⟩ := ih (fun u hu => hv u ((hsucc u).mpr (Or.inr hu)))
      hrest
    refine ⟨⟨new' ++ new, hg.trans hg'⟩, fun v => ?_⟩
    rw [he', he]
    by_cases hw : Within (virt + pageSize) n v
    · have hphys : phys + pageSize + (v / 0x1000 - (virt + pageSize) / 0x1000) * 0x1000 =
          phys + (v / 0x1000 - virt / 0x1000) * 0x1000 := by
        unfold Within at hw
        rw [hnext] at hw ⊢
        unfold pageSize
        omega
      rw [if_pos hw, if_pos ((hsucc v).mpr (Or.inr hw)), hphys]
    · rw [if_neg hw]
      by_cases hfirst : v / 0x1000 = virt / 0x1000
      · rw [if_pos hfirst, if_pos ((hsucc v).mpr (Or.inl hfirst)), hfirst, Nat.sub_self,
          Nat.zero_mul, Nat.add_zero]
      · rw [if_neg hfirst, if_neg fun h => ((hsucc v).mp h).elim hfirst hw]

theorem mapZone_spec {virtEnd phyEnd : Nat} (hle : virt ≤ virtEnd) (hlow : 0x10000000 ≤ virt)
    (hhigh : virtEnd < 0x100000000)
    (h : mapZone virt virtEnd phys phyEnd flags dir s = .ok (dir', s')) :
    (∃ new, Grown s s' dir dir' new) ∧ ∀ v, Dir.entry dir' v =
      if virt / 0x1000 ≤ v / 0x1000 ∧ v / 0x1000 ≤ virtEnd / 0x1000 then
        some ⟨(align phys + (v / 0x1000 - virt / 0x1000) * 0x1000) % 2 ^ 32, flags⟩
      else Dir.entry dir v := by
  have hpages : virt / 0x1000 ≤ virtEnd / 0x1000 := Nat.div_le_div_right hle
  have hstart : align virt / 0x1000 = virt / 0x1000 := by
    rw [align_page]
    omega
  unfold mapZone at h
  split at h
  · cases h
  rw [turns_pages hpages] at h
  have hown : ∀ u, Within (align virt) (virtEnd / 0x1000 - virt / 0x1000 + 1) u → Own u := by
    intro u hu
    unfold Within at hu
    rw [hstart] at hu
    exact own_iff.mpr ⟨by omega, by omega⟩
  obtain ⟨hg, he⟩ := mapPages_spec hown h
  refine ⟨hg, fun v => ?_⟩
  have hiff : Within (align virt) (virtEnd / 0x1000 - virt / 0x1000 + 1) v ↔
      virt / 0x1000 ≤ v / 0x1000 ∧ v / 0x1000 ≤ virtEnd / 0x1000 := by
    unfold Within
    rw [hstart]
    omega
  rw [he, hstart]
  by_cases hw : virt / 0x1000 ≤ v / 0x1000 ∧ v / 0x1000 ≤ virtEnd / 0x1000
  · rw [if_pos (hiff.mpr hw), if_pos hw]
  · rw [if_neg (mt hiff.mp hw), if_neg hw]

theorem unmapPage_spec : ownTables (unmapPage virt dir) = ownTables dir ∧
    Dir.entry (unmapPage virt dir) v =
      if v / 0x1000 = virt / 0x1000 then none else Dir.entry dir v := by
  unfold unmapPage
  split
  · rename_i hd
    refine ⟨rfl, ?_⟩
    by_cases hs : v / 0x1000 = virt / 0x1000
    · rw [if_pos hs]
      unfold Dir.entry
      rw [(same_page.mpr hs).1, hd, Option.bind_none]
    · rw [if_neg hs]
  · rename_i table hd
    exact ⟨ownTables_set hd rfl, entry_set (fun _ => rfl) fun i => by rw [hd]; rfl⟩

theorem unmapPages_spec : ownTables (unmapPages n virt dir) = ownTables dir ∧
    ∀ v, Dir.entry (unmapPages n virt dir) v =
      if Within virt n v then none else Dir.entry dir v := by
  induction n generalizing virt dir with
  | zero => exact ⟨rfl, fun v => by rw [if_neg (by unfold Within; omega)]; rfl⟩
  | succ n ih =>
    obtain ⟨ht, he⟩ := @ih (unmapPage virt dir) (virt + pageSize)
    refine ⟨ht.trans (unmapPage_spec (v := 0)).1, fun v => ?_⟩
    have hsucc : Within virt (n + 1) v ↔
        v / 0x1000 = virt / 0x1000 ∨ Within (virt + pageSize) n v := by
      unfold Within pageSize
      omega
    change Dir.entry (unmapPages n (virt + pageSize) (unmapPage virt dir)) v = _
    rw [he, unmapPage_spec.2]
    by_cases hw : Within (virt + pageSize) n v
    · rw [if_pos hw, if_pos (hsucc.mpr (Or.inr hw))]
    · rw [if_neg hw]
      by_cases hfirst : v / 0x1000 = virt / 0x1000
      · rw [if_pos hfirst, if_pos (hsucc.mpr (Or.inl hfirst))]
      · rw [if_neg hfirst, if_neg fun h => (hsucc.mp h).elim hfirst hw]

theorem unmapZone_spec (dir : Dir) {virtEnd : Nat} (hle : virt ≤ virtEnd) :
    ownTables (unmapZone virt virtEnd dir) = ownTables dir ∧
      ∀ v, Dir.entry (unmapZone virt virtEnd dir) v =
        if virt / 0x1000 ≤ v / 0x1000 ∧ v / 0x1000 ≤ virtEnd / 0x1000 then none
        else Dir.entry dir v := by
  have hpages : virt / 0x1000 ≤ virtEnd / 0x1000 := Nat.div_le_div_right hle
  have hstart : align virt / 0x1000 = virt / 0x1000 := by
    rw [align_page]
    omega
  unfold unmapZone
  rw [turns_pages hpages]
  refine ⟨unmapPages_spec.1, fun v => ?_⟩
  have hiff : Within (align virt) (virtEnd / 0x1000 - virt / 0x1000 + 1) v ↔
      virt / 0x1000 ≤ v / 0x1000 ∧ v / 0x1000 ≤ virtEnd / 0x1000 := by
    unfold Within
    rw [hstart]
    omega
  rw [unmapPages_spec.2]
  by_cases hw : virt / 0x1000 ≤ v / 0x1000 ∧ v / 0x1000 ≤ virtEnd / 0x1000
  · rw [if_pos (hiff.mpr hw), if_pos hw]
  · rw [if_neg (mt hiff.mp hw), if_neg hw]

theorem early_entry {early : EarlyMem} {e : Entry} (h : Dir.entry early.dir v = some e) :
    e.flags.us = false := by
  unfold Dir.entry EarlyMem.dir at h
  split at h
  · simp only [Option.bind_some, EarlyMem.table] at h
    split at h
    · cases h
    · cases h
      rfl
  · cases h

theorem early_tables {early : EarlyMem} : ownTables early.dir = [] := by
  unfold ownTables
  refine List.filterMap_eq_nil_iff.mpr fun i hi => ?_
  have hlow := (List.mem_range'_1.mp hi).1
  unfold EarlyMem.dir
  rw [if_neg (Nat.not_lt.mpr hlow), Option.map_none]

theorem pageDirectoryDestroy_eq {dirAt : Nat} {rest : List (Nat × Nat)}
    (hl : s.live.Perm ((dirAt, 1) :: ownTables dir ++ rest)) :
    ∃ s', pageDirectoryDestroy dirAt dir s = .ok s' ∧ s'.live.Perm rest ∧ s'.offers = s.offers := by
  have fold (ts : List (Nat × Nat)) (s : Frames) (r : List (Nat × Nat)) (h : s.live.Perm (ts ++ r)) :
      ∃ s', ts.foldlM (fun s table => s.free table) s = .ok s' ∧ s'.live.Perm r ∧
        s'.offers = s.offers := by
    induction ts generalizing s with
    | nil => exact ⟨s, rfl, h, rfl⟩
    | cons a ts ih =>
      obtain ⟨s₁, hf₁, hp₁, ho₁⟩ := free_head h
      obtain ⟨s', hf, hp, ho⟩ := ih s₁ hp₁
      refine ⟨s', ?_, hp, ho.trans ho₁⟩
      rw [List.foldlM_cons, hf₁, ok_bind, hf]
  have hl' : s.live.Perm (ownTables dir ++ (dirAt, 1) :: rest) := hl.trans List.perm_middle.symm
  obtain ⟨s₁, hf, hp, ho⟩ := fold (ownTables dir) s _ hl'
  obtain ⟨s₂, hf₂, hp₂, ho₂⟩ := free_head hp
  refine ⟨s₂, ?_, hp₂, ho₂.trans ho⟩
  unfold pageDirectoryDestroy
  rw [hf, ok_bind, hf₂]

end DominOS.Paging
