import Mathlib.Data.List.Infix
import Mathlib.Data.List.Nodup

/-! Logs of what enters and leaves some queues, newest entry first, and what it means
that every queue serves in order. -/
namespace DominOS.FifoLog
universe u v
variable {ι : Type u} {α : Type v}

inductive Entry (ι : Type u) (α : Type v) where
  | entered (i : ι) (a : α)
  | taken (i : ι) (a : α)
  | emptied (i : ι)

section Content
variable [DecidableEq ι] {i j : ι} {a b : α} {l f : List (Entry ι α)}

/-- What a queue holds after a log, oldest first. -/
def content (i : ι) : List (Entry ι α) → List α
  | [] => []
  | .entered j a :: l => if j = i then content i l ++ [a] else content i l
  | .taken j _ :: l => if j = i then (content i l).tail else content i l
  | .emptied j :: l => if j = i then [] else content i l

def arrivals (i : ι) : List (Entry ι α) → List α
  | [] => []
  | .entered j a :: l => if j = i then arrivals i l ++ [a] else arrivals i l
  | .taken _ _ :: l => arrivals i l
  | .emptied _ :: l => arrivals i l

/-- Nothing enters a queue twice, and only what came first is taken. -/
inductive Fifo : List (Entry ι α) → Prop where
  | nil : Fifo []
  | enter {i : ι} {a : α} {l : List (Entry ι α)} :
      Fifo l → a ∉ arrivals i l → Fifo (.entered i a :: l)
  | take {i : ι} {a : α} {l : List (Entry ι α)} :
      Fifo l → (content i l).head? = some a → Fifo (.taken i a :: l)
  | empty {i : ι} {l : List (Entry ι α)} : Fifo l → Fifo (.emptied i :: l)

theorem mem_arrivals : a ∈ arrivals i l ↔ .entered i a ∈ l := by
  induction l with
  | nil => simp [arrivals]
  | cons e l ih =>
    cases e with
    | entered j b =>
      by_cases hj : j = i
      · subst hj
        simp [arrivals, ih, or_comm]
      · simp [arrivals, ih, hj, Ne.symm hj]
    | taken j b => simp [arrivals, ih]
    | emptied j => simp [arrivals, ih]

theorem content_suffix : content i l <:+ arrivals i l := by
  induction l with
  | nil => exact List.suffix_refl _
  | cons e l ih =>
    cases e with
    | entered j b =>
      by_cases hj : j = i
      · simp only [content, arrivals, hj, if_true]
        obtain ⟨p, hp⟩ := ih
        exact ⟨p, by rw [← hp, List.append_assoc]⟩
      · simpa only [content, arrivals, hj, if_false] using ih
    | taken j b =>
      by_cases hj : j = i
      · simp only [content, arrivals, hj, if_true]
        exact (List.tail_suffix _).trans ih
      · simpa only [content, arrivals, hj, if_false] using ih
    | emptied j =>
      by_cases hj : j = i
      · simp only [content, hj, if_true]
        exact List.nil_suffix
      · simpa only [content, arrivals, hj, if_false] using ih

theorem entered_of_mem (h : a ∈ content i l) : .entered i a ∈ l :=
  mem_arrivals.mp (content_suffix.subset h)

theorem arrivals_append : arrivals i (f ++ l) = arrivals i l ++ arrivals i f := by
  induction f with
  | nil => simp [arrivals]
  | cons e f ih =>
    cases e with
    | entered j b =>
      by_cases hj : j = i
      · simp [arrivals, hj, ih]
      · simpa [arrivals, hj] using ih
    | taken j b => simpa [arrivals] using ih
    | emptied j => simpa [arrivals] using ih

def Swept (i : ι) (a : α) (l : List (Entry ι α)) : Prop :=
  ∃ f b, l = f ++ .emptied i :: b ∧ a ∈ content i b

theorem Swept.cons (h : Swept i a l) (e : Entry ι α) : Swept i a (e :: l) := by
  obtain ⟨f, b, rfl, ha⟩ := h
  exact ⟨e :: f, b, rfl, ha⟩

namespace Fifo

theorem older (h : Fifo (f ++ l)) : Fifo l := by
  induction f with
  | nil => exact h
  | cons e f ih =>
    cases h with
    | enter h _ => exact ih h
    | take h _ => exact ih h
    | empty h => exact ih h

theorem arrivals_nodup (h : Fifo l) : (arrivals i l).Nodup := by
  induction h with
  | nil => exact List.nodup_nil
  | @enter j b l _ hb ih =>
    by_cases hj : j = i
    · subst hj
      simp only [arrivals, if_true]
      exact List.nodup_append.mpr ⟨ih, List.nodup_singleton b, fun x hx y hy => by
        rintro rfl
        exact hb (List.mem_singleton.mp hy ▸ hx)⟩
    · simpa only [arrivals, hj, if_false] using ih
  | take _ _ ih => exact ih
  | empty _ ih => exact ih

theorem content_nodup (h : Fifo l) : (content i l).Nodup :=
  h.arrivals_nodup.sublist content_suffix.sublist

theorem entered_of_taken (h : Fifo l) (ht : .taken i a ∈ l) : .entered i a ∈ l := by
  induction h with
  | nil => cases ht
  | enter _ _ ih =>
    rcases List.mem_cons.mp ht with ht | ht
    · cases ht
    · exact List.mem_cons_of_mem _ (ih ht)
  | @take j b l _ hb ih =>
    rcases List.mem_cons.mp ht with ht | ht
    · cases ht
      exact List.mem_cons_of_mem _ (entered_of_mem (List.mem_of_mem_head? hb))
    · exact List.mem_cons_of_mem _ (ih ht)
  | empty _ ih =>
    rcases List.mem_cons.mp ht with ht | ht
    · cases ht
    · exact List.mem_cons_of_mem _ (ih ht)

theorem not_taken (h : Fifo l) (ha : a ∈ content i l) : .taken i a ∉ l := by
  induction h with
  | nil => cases ha
  | @enter j b l hl hb ih =>
    intro ht
    have hold : .taken i a ∈ l := (List.mem_cons.mp ht).resolve_left nofun
    by_cases hj : j = i
    · subst hj
      simp only [content, if_true, List.mem_append, List.mem_singleton] at ha
      rcases ha with ha | ha
      · exact ih ha hold
      · rw [ha] at hold
        exact hb (mem_arrivals.mpr (hl.entered_of_taken hold))
    · simp only [content, hj, if_false] at ha
      exact ih ha hold
  | @take j b l hl hb ih =>
    intro ht
    by_cases hj : j = i
    · subst hj
      simp only [content, if_true] at ha
      rcases List.mem_cons.mp ht with ht | ht
      · cases ht
        have hn := hl.content_nodup (i := j)
        cases hc : content j l with
        | nil =>
          rw [hc] at ha
          cases ha
        | cons x xs =>
          rw [hc] at ha hb hn
          cases hb
          exact (List.nodup_cons.mp hn).1 ha
      · exact ih (List.mem_of_mem_tail ha) ht
    · simp only [content, hj, if_false] at ha
      rcases List.mem_cons.mp ht with ht | ht
      · cases ht
        exact hj rfl
      · exact ih ha ht
  | @empty j l _ ih =>
    intro ht
    have ht := (List.mem_cons.mp ht).resolve_left nofun
    by_cases hj : j = i
    · simp only [content, hj, if_true] at ha
      cases ha
    · simp only [content, hj, if_false] at ha
      exact ih ha ht

theorem place (h : Fifo l) (ha : .entered i a ∈ l) :
    a ∈ content i l ∨ .taken i a ∈ l ∨ Swept i a l := by
  induction h with
  | nil => cases ha
  | @enter j b l _ _ ih =>
    by_cases he : j = i ∧ b = a
    · obtain ⟨rfl, rfl⟩ := he
      exact Or.inl (by simp [content])
    · have hold : .entered i a ∈ l := by
        refine (List.mem_cons.mp ha).resolve_left fun h => he ?_
        cases h
        exact ⟨rfl, rfl⟩
      rcases ih hold with hc | ht | hs
      · left
        by_cases hj : j = i
        · simp only [content, hj, if_true]
          exact List.mem_append_left _ hc
        · simpa only [content, hj, if_false] using hc
      · exact Or.inr (Or.inl (List.mem_cons_of_mem _ ht))
      · exact Or.inr (Or.inr (hs.cons _))
  | @take j b l _ hb ih =>
    have hold : .entered i a ∈ l := (List.mem_cons.mp ha).resolve_left nofun
    rcases ih hold with hc | ht | hs
    · by_cases hj : j = i
      · subst hj
        cases hq : content j l with
        | nil =>
          rw [hq] at hc
          cases hc
        | cons x xs =>
          rw [hq] at hc hb
          cases hb
          rcases List.mem_cons.mp hc with rfl | hc
          · exact Or.inr (Or.inl List.mem_cons_self)
          · left
            simp only [content, if_true, hq]
            exact hc
      · left
        simpa only [content, hj, if_false] using hc
    · exact Or.inr (Or.inl (List.mem_cons_of_mem _ ht))
    · exact Or.inr (Or.inr (hs.cons _))
  | @empty j l _ ih =>
    have hold : .entered i a ∈ l := (List.mem_cons.mp ha).resolve_left nofun
    rcases ih hold with hc | ht | hs
    · by_cases hj : j = i
      · subst hj
        exact Or.inr (Or.inr ⟨[], l, rfl, hc⟩)
      · left
        simpa only [content, hj, if_false] using hc
    · exact Or.inr (Or.inl (List.mem_cons_of_mem _ ht))
    · exact Or.inr (Or.inr (hs.cons _))

/-- When `b` is taken, what entered its queue before `b` has been taken or swept out. -/
theorem order (h : Fifo (f ++ .taken i b :: l)) {m o : List (Entry ι α)}
    (hl : l = m ++ .entered i b :: o) (ha : .entered i a ∈ o) :
    .taken i a ∈ l ∨ Swept i a l := by
  obtain ⟨hfifo, hhead⟩ : Fifo l ∧ (content i l).head? = some b := by
    cases h.older with
    | take hl hb => exact ⟨hl, hb⟩
  have hal : .entered i a ∈ l := by
    rw [hl]
    exact List.mem_append_right _ (List.mem_cons_of_mem _ ha)
  refine (hfifo.place hal).resolve_left fun hc => ?_
  have hn := hfifo.arrivals_nodup (i := i)
  have harr : arrivals i l = arrivals i o ++ b :: arrivals i m := by
    rw [hl, arrivals_append]
    simp [arrivals]
  have hao := mem_arrivals.mpr ha
  obtain ⟨p, hp⟩ := content_suffix (i := i) (l := l)
  cases hq : content i l with
  | nil =>
    rw [hq] at hhead
    cases hhead
  | cons x xs =>
    rw [hq] at hhead hc hp
    cases hhead
    rw [harr] at hp hn
    have hnp := hp ▸ hn
    have hbp : b ∉ p := fun hb => (List.nodup_append.mp hnp).2.2 b hb b List.mem_cons_self rfl
    have hbx : b ∉ xs := (List.nodup_cons.mp (List.nodup_append.mp hnp).2.1).1
    obtain ⟨rfl, -, rfl⟩ := (List.append_cons_inj_of_notMem hbp hbx).mp hp
    exact (List.nodup_append.mp hn).2.2 a hao a hc rfl

end Fifo
end Content
end DominOS.FifoLog
