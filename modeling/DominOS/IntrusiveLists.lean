import Mathlib.Data.List.Sort
import Mathlib.Logic.Function.Basic

/-! Lists that are threaded through one link of each element. The link names the
list an element is in, so no element is ever in two of them. Moves are counted, so
that of two elements the one that came first can be told. -/
namespace DominOS.IntrusiveLists
universe u v

structure Links (H : Type u) (α : Type v) where
  members : H → List α
  link : α → Option H
  -- how many moves there have been, and which of them put an element where it is
  moves : Nat
  since : α → Nat
  mem_iff : ∀ a h, a ∈ members h ↔ link a = some h
  nodup : ∀ h, (members h).Nodup
  since_lt : ∀ a h, link a = some h → since a < moves

namespace Links
variable {H : Type u} {α : Type v} {l : Links H α} {h h' : H} {a b : α}

theorem ext' {l m : Links H α} (h1 : l.members = m.members) (h2 : l.link = m.link)
    (h3 : l.moves = m.moves) (h4 : l.since = m.since) : l = m := by
  cases l
  cases m
  cases h1
  cases h2
  cases h3
  cases h4
  rfl

def empty : Links H α where
  members _ := []
  link _ := none
  moves := 0
  since _ := 0
  mem_iff := by simp
  nodup := by simp
  since_lt := by simp

@[simp] theorem link_empty : (empty : Links H α).link a = none := rfl

@[simp] theorem members_empty : (empty : Links H α).members h = [] := rfl

theorem not_mem (ha : l.link a = none) (h : H) : a ∉ l.members h := by
  rw [l.mem_iff, ha]
  simp

theorem mem_of_link (ha : l.link a = some h) : a ∈ l.members h := (l.mem_iff a h).mpr ha

theorem link_of_mem (ha : a ∈ l.members h) : l.link a = some h := (l.mem_iff a h).mp ha

section Erase
variable [DecidableEq α]

def erase (l : Links H α) (a : α) : Links H α where
  members h := (l.members h).erase a
  link := Function.update l.link a none
  moves := l.moves
  since := l.since
  mem_iff b h := by
    rw [(l.nodup h).mem_erase_iff, l.mem_iff]
    by_cases hb : b = a
    · subst hb
      simp
    · simp [hb]
  nodup h := (l.nodup h).erase a
  since_lt b h hb := by
    by_cases he : b = a
    · subst he
      simp at hb
    · rw [Function.update_of_ne he] at hb
      exact l.since_lt b h hb

@[simp] theorem members_erase : (l.erase a).members h = (l.members h).erase a := rfl

@[simp] theorem link_erase_self : (l.erase a).link a = none := by simp [erase]

theorem link_erase_of_ne (hb : b ≠ a) : (l.erase a).link b = l.link b := by simp [erase, hb]

@[simp] theorem since_erase : (l.erase a).since = l.since := rfl

theorem erase_of_none (ha : l.link a = none) : l.erase a = l := by
  refine ext' ?_ ?_ rfl rfl
  · funext h
    exact List.erase_of_not_mem (not_mem ha h)
  · simp only [erase]
    rw [← ha]
    simp
end Erase

section Move
variable [DecidableEq α] [DecidableEq H] {r : α → α → Prop} [DecidableRel r]

/-- Link `a` into the list of `h`, before the first element that `r` puts it before. -/
def move (l : Links H α) (r : α → α → Prop) [DecidableRel r] (h : H) (a : α) : Links H α where
  members := Function.update (l.erase a).members h (((l.erase a).members h).orderedInsert r a)
  link := Function.update l.link a (some h)
  moves := l.moves + 1
  since := Function.update l.since a l.moves
  mem_iff b h' := by
    by_cases hh : h' = h
    · subst hh
      rw [Function.update_self, List.mem_orderedInsert, (l.erase a).mem_iff]
      by_cases hb : b = a
      · subst hb
        simp
      · simp [erase, hb]
    · rw [Function.update_of_ne hh, (l.erase a).mem_iff]
      by_cases hb : b = a
      · subst hb
        simp [erase, Ne.symm hh]
      · simp [erase, hb]
  nodup h' := by
    by_cases hh : h' = h
    · subst hh
      rw [Function.update_self, (List.perm_orderedInsert r a _).nodup_iff]
      refine List.nodup_cons.mpr ⟨?_, (l.erase a).nodup h'⟩
      exact not_mem (by simp [erase]) h'
    · rw [Function.update_of_ne hh]
      exact (l.erase a).nodup h'
  since_lt b h' hb := by
    by_cases he : b = a
    · subst he
      simp
    · rw [Function.update_of_ne he] at hb ⊢
      exact Nat.lt_succ_of_lt (l.since_lt b h' hb)

@[simp] theorem link_move_self : (l.move r h a).link a = some h := by simp [move]

theorem link_move_of_ne (hb : b ≠ a) : (l.move r h a).link b = l.link b := by simp [move, hb]

@[simp] theorem members_move_self :
    (l.move r h a).members h = ((l.members h).erase a).orderedInsert r a := by simp [move]

theorem members_move_of_ne (hh : h' ≠ h) :
    (l.move r h a).members h' = (l.members h').erase a := by simp [move, hh]

theorem since_move_self : (l.move r h a).since a = l.moves := by simp [move]

theorem since_move_of_ne (hb : b ≠ a) : (l.move r h a).since b = l.since b := by simp [move, hb]

theorem move_erase : (l.erase a).move r h a = l.move r h a := by
  refine ext' ?_ ?_ rfl rfl
  · simp only [move]
    rw [erase_of_none (l := l.erase a) link_erase_self]
  · simp [move, erase]

theorem mem_move : b ∈ (l.move r h a).members h ↔ b = a ∨ b ∈ l.members h := by
  rw [members_move_self, List.mem_orderedInsert, (l.nodup h).mem_erase_iff]
  by_cases hb : b = a <;> simp [hb]
end Move

section Ordered
variable {K : Type*} [LinearOrder K] {key key' : α → K}

/-- Each list has its elements by their keys, lowest first, and of equal keys the one that
came last is first. -/
def Ordered (l : Links H α) (key : α → K) : Prop :=
  ∀ h, (l.members h).Pairwise fun a b => key a < key b ∨ key a = key b ∧ l.since b < l.since a

theorem ordered_empty : (empty : Links H α).Ordered key := fun _ => .nil

theorem Ordered.congr (ho : l.Ordered key) (hk : ∀ a h, a ∈ l.members h → key' a = key a) :
    l.Ordered key' := by
  intro h
  refine (ho h).imp_of_mem fun {a b} ha hb hab => ?_
  rw [hk a h ha, hk b h hb]
  exact hab

/-- The last element is one of highest key, and of these the one that has been there longest. -/
theorem Ordered.last (ho : l.Ordered key) (ha : (l.members h).getLast? = some a)
    (hb : b ∈ l.members h) (hne : b ≠ a) :
    key b < key a ∨ key b = key a ∧ l.since a < l.since b := by
  obtain ⟨front, hf⟩ := List.getLast?_eq_some_iff.mp ha
  have hp := ho h
  rw [hf] at hp hb
  have hbf : b ∈ front := (List.mem_append.mp hb).resolve_right fun h => hne (List.mem_singleton.mp h)
  exact (List.pairwise_append.mp hp).2.2 b hbf a (by simp)

theorem pairwise_orderedInsert {since : α → Nat} {as : List α}
    [DecidableRel fun a b : α => key a ≤ key b]
    (hp : as.Pairwise fun a b => key a < key b ∨ key a = key b ∧ since b < since a)
    (hs : ∀ b ∈ as, since b < since a) :
    (as.orderedInsert (fun a b => key a ≤ key b) a).Pairwise
      fun a b => key a < key b ∨ key a = key b ∧ since b < since a := by
  induction as with
  | nil => simp
  | cons b as ih =>
    obtain ⟨hb, hp⟩ := List.pairwise_cons.mp hp
    have hbs := hs b (by simp)
    rw [List.orderedInsert_cons]
    split
    · rename_i hab
      refine List.pairwise_cons.mpr ⟨fun c hc => ?_, List.pairwise_cons.mpr ⟨hb, hp⟩⟩
      have hac : key a ≤ key c := by
        rcases List.mem_cons.mp hc with rfl | hc
        · exact hab
        · exact hab.trans ((hb c hc).elim le_of_lt fun h => h.1.le)
      exact hac.lt_or_eq.imp_right fun he => ⟨he, hs c hc⟩
    · rename_i hab
      refine List.pairwise_cons.mpr ⟨fun c hc => ?_, ih hp fun c hc => hs c (List.mem_cons_of_mem _ hc)⟩
      rcases (List.mem_orderedInsert _).mp hc with rfl | hc
      · exact Or.inl (not_le.mp hab)
      · exact hb c hc

variable [DecidableEq α]

theorem Ordered.erase (ho : l.Ordered key) (a : α) : (l.erase a).Ordered key :=
  fun h => (ho h).sublist List.erase_sublist

theorem Ordered.move [DecidableEq H] [DecidableRel fun a b : α => key a ≤ key b]
    (ho : (l.erase a).Ordered key) (h : H) : (l.move (fun a b => key a ≤ key b) h a).Ordered key := by
  have hold (h' : H) (b : α) (hb : b ∈ (l.members h').erase a) : b ≠ a ∧ l.since b < l.moves := by
    obtain ⟨hne, hm⟩ := (l.nodup h').mem_erase_iff.mp hb
    exact ⟨hne, l.since_lt b h' (link_of_mem hm)⟩
  have hlater {as : List α} (h' : H) (hm : ∀ b ∈ as, b ∈ (l.members h').erase a)
      (hp : as.Pairwise fun b c => key b < key c ∨ key b = key c ∧ l.since c < l.since b) :
      as.Pairwise fun b c => key b < key c ∨ key b = key c ∧
        (l.move (fun a b => key a ≤ key b) h a).since c < (l.move (fun a b => key a ≤ key b) h a).since b := by
    refine hp.imp_of_mem fun {b c} hb hc hbc => ?_
    rw [since_move_of_ne (hold h' b (hm b hb)).1, since_move_of_ne (hold h' c (hm c hc)).1]
    exact hbc
  intro h'
  by_cases hh : h' = h
  · subst hh
    rw [members_move_self]
    refine pairwise_orderedInsert (hlater h' (fun b hb => hb) (ho h')) fun b hb => ?_
    rw [since_move_self, since_move_of_ne (hold h' b hb).1]
    exact (hold h' b hb).2
  · rw [members_move_of_ne hh]
    exact hlater h' (fun b hb => hb) (ho h')
end Ordered
end Links
end DominOS.IntrusiveLists
