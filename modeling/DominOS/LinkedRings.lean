import Mathlib.Data.List.Chain
import Mathlib.Data.List.Nodup
import Mathlib.Logic.Function.Basic

/-! Rings of nodes that are linked both ways: a head, then some nodes, then the head again. -/
namespace DominOS.LinkedRings
universe u
variable {α : Type u} {next prev next' prev' : α → α} {h p e c x y : α} {xs ys zs as bs : List α}

/-- `y` is behind `x`, and `x` before `y`. -/
def Linked (next prev : α → α) (x y : α) : Prop := next x = y ∧ prev y = x

/-- The nodes of a walk, each linked to the one behind it. -/
def Walk (next prev : α → α) (zs : List α) : Prop := zs.IsChain (Linked next prev)

def Ring (next prev : α → α) (h : α) (xs : List α) : Prop := Walk next prev (h :: (xs ++ [h]))

def Path (f : α → α) : α → List α → α → Prop
  | a, [], b => f a = b
  | a, x :: xs, b => f a = x ∧ Path f x xs b

theorem path_iff (f : α → α) (a : α) (xs : List α) (b : α) :
    Path f a xs b ↔ (a :: (xs ++ [b])).IsChain fun x y => f x = y := by
  induction xs generalizing a with
  | nil => simp [Path]
  | cons x xs ih => simp [Path, ih]

theorem Ring.forward (hr : Ring next prev h xs) : Path next h xs h :=
  (path_iff next h xs h).mpr (hr.imp fun _ _ hl => hl.1)

theorem Ring.backward (hr : Ring next prev h xs) : Path prev h xs.reverse h := by
  rw [path_iff]
  have hrev : h :: (xs.reverse ++ [h]) = (h :: (xs ++ [h])).reverse := by simp
  rw [hrev, List.isChain_reverse]
  exact hr.imp fun _ _ hl => hl.2

theorem ring_nil (hn : next h = h) (hp : prev h = h) : Ring next prev h [] := by
  simp [Ring, Walk, Linked, hn, hp]

theorem Walk.congr (hw : Walk next prev zs) (hn : ∀ x ∈ zs.dropLast, next' x = next x)
    (hp : ∀ y ∈ zs.tail, prev' y = prev y) : Walk next' prev' zs := by
  induction zs with
  | nil => exact .nil
  | cons x zs ih =>
    cases zs with
    | nil => exact .singleton x
    | cons y zs =>
      obtain ⟨hxy, hw⟩ := List.isChain_cons_cons.mp hw
      refine List.isChain_cons_cons.mpr ⟨⟨?_, ?_⟩, ih hw ?_ ?_⟩
      · rw [hn x (by simp), hxy.1]
      · rw [hp y (by simp), hxy.2]
      · exact fun z hz => hn z (by simp [List.dropLast, hz])
      · exact fun z hz => hp z (List.mem_cons_of_mem y hz)

theorem Ring.congr (hr : Ring next prev h xs) (hn : ∀ x ∈ h :: xs, next' x = next x)
    (hp : ∀ x ∈ h :: xs, prev' x = prev x) : Ring next' prev' h xs := by
  apply Walk.congr hr
  · intro x hx
    rw [← List.cons_append, List.dropLast_concat] at hx
    exact hn x hx
  · intro y hy
    apply hp
    simpa [or_comm] using hy

structure Gap (h : α) (xs ys : List α) (p c : α) : Prop where
  left : ∃ as, h :: xs = as ++ [p]
  right : ∃ bs, ys ++ [h] = c :: bs

theorem exists_gap (h : α) (xs ys : List α) : ∃ p c, Gap h xs ys p c := by
  refine ⟨(h :: xs).getLast (by simp), (ys ++ [h]).head (by simp), ?_, ?_⟩
  · exact ⟨(h :: xs).dropLast, (List.dropLast_concat_getLast _).symm⟩
  · exact ⟨(ys ++ [h]).tail, (List.cons_head_tail _).symm⟩

theorem Gap.mem_left (hg : Gap h xs ys p c) : p ∈ h :: xs := by
  obtain ⟨as, hleft⟩ := hg.left
  rw [hleft]
  simp

theorem Gap.mem_right (hg : Gap h xs ys p c) : c ∈ h :: ys := by
  obtain ⟨bs, hright⟩ := hg.right
  have hc : c ∈ ys ++ [h] := by
    rw [hright]
    simp
  simpa [or_comm] using hc

theorem Gap.mem (hg : Gap h xs ys p c) : p ∈ h :: (xs ++ ys) ∧ c ∈ h :: (xs ++ ys) := by
  have hp := hg.mem_left
  have hc := hg.mem_right
  simp only [List.mem_cons, List.mem_append] at hp hc ⊢
  tauto

theorem ring_gap (hleft : h :: xs = as ++ [p]) (hright : ys ++ [h] = c :: bs) :
    Ring next prev h (xs ++ ys) ↔
      Walk next prev (as ++ [p]) ∧ Linked next prev p c ∧ Walk next prev (c :: bs) := by
  have hall : h :: (xs ++ ys ++ [h]) = as ++ p :: c :: bs := by
    rw [List.append_assoc, ← List.cons_append, hleft, hright]
    simp
  unfold Ring Walk
  rw [hall, List.isChain_split, List.isChain_cons_cons]

theorem Ring.linked (hr : Ring next prev h (xs ++ ys)) (hg : Gap h xs ys p c) : Linked next prev p c := by
  obtain ⟨as, hleft⟩ := hg.left
  obtain ⟨bs, hright⟩ := hg.right
  exact ((ring_gap hleft hright).mp hr).2.1

theorem gap_apart (hd : (h :: (xs ++ ys)).Nodup) (hleft : h :: xs = as ++ [p])
    (hright : ys ++ [h] = c :: bs) :
    p ∉ as ∧ p ∉ (c :: bs).dropLast ∧ c ∉ (as ++ [p]).tail ∧ c ∉ bs := by
  have hsources : (as ++ p :: (c :: bs).dropLast).Nodup := by
    rw [← hright, List.dropLast_concat, List.append_cons, ← hleft]
    simpa using hd
  have htargets : ((as ++ [p]).tail ++ c :: bs).Nodup := by
    rw [← hright, ← hleft, List.tail_cons, ← List.append_assoc, List.nodup_append_comm]
    simpa using hd
  have hs := List.nodup_append.mp hsources
  have ht := List.nodup_append.mp htargets
  refine ⟨?_, (List.nodup_cons.mp hs.2.1).1, ?_, (List.nodup_cons.mp ht.2.1).1⟩
  · exact fun hp => hs.2.2 p hp p (by simp) rfl
  · exact fun hc => ht.2.2 c hc c (by simp) rfl

/-- The two halves of a ring stay as they are, when the gap between them and some `e` outside are
relinked. -/
theorem halves_congr (hd : (h :: (xs ++ ys)).Nodup) (he : e ∉ h :: (xs ++ ys))
    (hleft : h :: xs = as ++ [p]) (hright : ys ++ [h] = c :: bs)
    (hl : Walk next prev (as ++ [p])) (hr : Walk next prev (c :: bs))
    (hn : ∀ x, x ≠ p → x ≠ e → next' x = next x) (hp : ∀ x, x ≠ c → x ≠ e → prev' x = prev x) :
    Walk next' prev' (as ++ [p]) ∧ Walk next' prev' (c :: bs) := by
  obtain ⟨hpas, hpbs, hcas, hcbs⟩ := gap_apart hd hleft hright
  have hel : e ∉ as ++ [p] := by
    rw [← hleft]
    exact fun hm => he (by simp only [List.mem_cons, List.mem_append] at hm ⊢; tauto)
  have her : e ∉ c :: bs := by
    rw [← hright]
    exact fun hm => he (by simp at hm ⊢; tauto)
  constructor
  · apply Walk.congr hl
    · intro x hx
      rw [List.dropLast_concat] at hx
      apply hn
      · rintro rfl
        exact hpas hx
      · rintro rfl
        exact hel (List.mem_append_left _ hx)
    · intro y hy
      apply hp
      · rintro rfl
        exact hcas hy
      · rintro rfl
        exact hel (List.mem_of_mem_tail hy)
  · apply Walk.congr hr
    · intro x hx
      apply hn
      · rintro rfl
        exact hpbs hx
      · rintro rfl
        exact her (List.dropLast_subset _ hx)
    · intro y hy
      apply hp
      · rintro rfl
        exact hcbs hy
      · rintro rfl
        exact her (List.mem_cons_of_mem c hy)

structure Inserted (next prev next' prev' : α → α) (p e c : α) : Prop where
  next : ∀ x, x ≠ p → x ≠ e → next' x = next x
  prev : ∀ x, x ≠ c → x ≠ e → prev' x = prev x
  before : Linked next' prev' p e
  behind : Linked next' prev' e c

theorem Ring.insert (hr : Ring next prev h (xs ++ ys)) (hd : (h :: (xs ++ ys)).Nodup)
    (he : e ∉ h :: (xs ++ ys)) (hg : Gap h xs ys p c) (hi : Inserted next prev next' prev' p e c) :
    Ring next' prev' h (xs ++ e :: ys) := by
  obtain ⟨as, hleft⟩ := hg.left
  obtain ⟨bs, hright⟩ := hg.right
  obtain ⟨hl, -, hr⟩ := (ring_gap hleft hright).mp hr
  obtain ⟨hl', hr'⟩ := halves_congr hd he hleft hright hl hr hi.next hi.prev
  have hcons : e :: ys ++ [h] = e :: c :: bs := by rw [List.cons_append, hright]
  exact (ring_gap hleft hcons).mpr ⟨hl', hi.before, List.isChain_cons_cons.mpr ⟨hi.behind, hr'⟩⟩

structure Removed (next prev next' prev' : α → α) (p e c : α) : Prop where
  next : ∀ x, x ≠ p → x ≠ e → next' x = next x
  prev : ∀ x, x ≠ c → x ≠ e → prev' x = prev x
  joined : Linked next' prev' p c

theorem Ring.remove (hr : Ring next prev h (xs ++ e :: ys)) (hd : (h :: (xs ++ ys)).Nodup)
    (he : e ∉ h :: (xs ++ ys)) (hg : Gap h xs ys p c) (hi : Removed next prev next' prev' p e c) :
    Ring next' prev' h (xs ++ ys) := by
  obtain ⟨as, hleft⟩ := hg.left
  obtain ⟨bs, hright⟩ := hg.right
  have hcons : e :: ys ++ [h] = e :: c :: bs := by rw [List.cons_append, hright]
  obtain ⟨hl, -, hr⟩ := (ring_gap hleft hcons).mp hr
  obtain ⟨hl', hr'⟩ := halves_congr hd he hleft hright hl (List.isChain_cons_cons.mp hr).2 hi.next hi.prev
  exact (ring_gap hleft hright).mpr ⟨hl', hi.joined, hr'⟩

theorem Ring.neighbours (hr : Ring next prev h (xs ++ e :: ys)) (hg : Gap h xs ys p c) :
    Linked next prev p e ∧ Linked next prev e c := by
  obtain ⟨as, hleft⟩ := hg.left
  obtain ⟨bs, hright⟩ := hg.right
  have hcons : e :: ys ++ [h] = e :: c :: bs := by rw [List.cons_append, hright]
  obtain ⟨-, hpe, hr⟩ := (ring_gap hleft hcons).mp hr
  exact ⟨hpe, (List.isChain_cons_cons.mp hr).1⟩

end DominOS.LinkedRings
