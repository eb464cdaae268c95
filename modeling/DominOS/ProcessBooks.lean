import DominOS.ProcessStory
import DominOS.ProcessMsg

/-! The message queues agree with what was observed: a queue holds as many messages as
it counts, and those that entered it and were not taken. -/
namespace DominOS.Process
open FifoLog

structure Books (mq : Nat → Option MQueue) (n : Nat) (tr : List Obs) : Prop where
  counted : ∀ id q, mq id = some q →
    q.count = q.msgs.length ∧ q.count ≤ q.size ∧ q.size ≤ int16Max
  story : Story n tr
  contents : ∀ id, held id tr = ((mq id).map MQueue.msgs).getD []
  stored : ∀ id msg, msg ∈ held id tr → NotGone msg tr

theorem boot_books : Books (fun _ => none) 0 [] where
  counted _ _ h := by cases h
  story := .nil
  contents _ := rfl
  stored _ _ h := by cases h

namespace Books
variable {mq : Nat → Option MQueue} {n id : Nat} {tr : List Obs} {o : Obs} {msg msg' : Msg}
  {q : MQueue} {rest : List Msg}

theorem held_eq (h : Books mq n tr) (hq : mq id = some q) : held id tr = q.msgs := by
  rw [h.contents, hq]
  rfl

theorem fresh_not_entered {data : Int} (h : Books mq n tr) : NotEntered ⟨data, n⟩ tr :=
  fun _ _ he => Nat.ne_of_lt (h.story.entered_lt he)

theorem note (h : Books mq n tr) {m : Nat} (hs : Story m (o :: tr)) (ho : o.entry = none)
    (hg : ∀ id msg, o ≠ .received id msg ∧ o ≠ .dropped id msg) : Books mq m (o :: tr) where
  counted := h.counted
  story := hs
  contents id := by rw [held_other ho, h.contents]
  stored id msg hm := by
    rw [held_other ho] at hm
    exact (h.stored id msg hm).cons fun id' msg' he => absurd he (by simp [hg])

theorem psend {data : Int} (h : Books mq n tr) : Books mq (n + 1) (.psend id ⟨data, n⟩ :: tr) :=
  h.note (.psend h.story) rfl fun _ _ => ⟨nofun, nofun⟩

theorem aside (h : Books mq n tr) (ho : o.Aside) : Books mq n (o :: tr) :=
  h.note (.aside h.story ho) ho.entry_none fun _ _ => ⟨by rintro rfl; exact ho, by rintro rfl; exact ho⟩

theorem asides {seen : List Obs} (h : Books mq n tr) (ho : ∀ o ∈ seen, o.Aside) :
    Books mq n (seen ++ tr) := by
  induction seen with
  | nil => exact h
  | cons o seen ih =>
    exact (ih fun o ho' => ho o (List.mem_cons_of_mem _ ho')).aside (ho o List.mem_cons_self)

theorem sent (h : Books mq n tr) (hs : msg.data = -1 ∨ .entered id msg ∈ tr) :
    Books mq n (.sent id msg :: tr) :=
  h.note (.sent h.story hs) rfl fun _ _ => ⟨nofun, nofun⟩

theorem gone (h : Books mq n tr) (hs : Story n (o :: tr)) (ho : o = .received id msg ∨ o = .dropped id msg)
    (ht : .taken id msg ∈ tr) : Books mq n (o :: tr) where
  counted := h.counted
  story := hs
  contents j := by
    rw [held_other (by rcases ho with rfl | rfl <;> rfl), h.contents]
  stored j m hm := by
    rw [held_other (by rcases ho with rfl | rfl <;> rfl)] at hm
    have hnew : msg.send ≠ m.send := h.story.not_taken hm ht
    refine (h.stored j m hm).cons fun id' msg' he => ?_
    rcases ho with rfl | rfl <;> simp at he <;> rw [← he.2] <;> exact hnew

theorem received (h : Books mq n tr) (ht : .taken id msg ∈ tr) (hg : NotGone msg tr) :
    Books mq n (.received id msg :: tr) :=
  h.gone (.received h.story ht hg) (Or.inl rfl) ht

theorem dropped (h : Books mq n tr) (ht : .taken id msg ∈ tr) (hg : NotGone msg tr) :
    Books mq n (.dropped id msg :: tr) :=
  h.gone (.dropped h.story (Or.inr ht) hg) (Or.inr rfl) ht

theorem add_msgs (hq : q.count = q.msgs.length) : (q.add msg).msgs = q.msgs ++ [msg] := by
  unfold MQueue.add
  by_cases h : q.count = 0
  · have hnil : q.msgs = [] := List.length_eq_zero_iff.mp (hq.symm.trans h)
    simp [h, hnil]
  · simp [h]

theorem pop_count (hq : q.count = q.msgs.length) (hm : q.msgs = msg :: rest) :
    (q.pop rest).count = rest.length := by
  have hl : q.count = rest.length + 1 := by rw [hq, hm, List.length_cons]
  simp [MQueue.pop, hl]

theorem add {m : Msg} (h : Books mq n tr) (hq : mq id = some q) (hs : q.count ≠ q.size)
    (hp : .psend id m ∈ tr) (hn : NotEntered m tr) :
    Books (Function.update mq id (some (q.add m))) n (.entered id m :: tr) := by
  obtain ⟨hc, hle, hb⟩ := h.counted id q hq
  refine ⟨fun j r hr => ?_, .entered h.story hp hn, fun j => ?_, fun j x hx => ?_⟩
  · by_cases hj : j = id
    · subst hj
      rw [Function.update_self] at hr
      cases hr
      rw [add_msgs hc]
      simp only [MQueue.add, List.length_append, List.length_singleton]
      omega
    · rw [Function.update_of_ne hj] at hr
      exact h.counted j r hr
  · rw [held_entered]
    by_cases hj : id = j
    · subst hj
      simp [add_msgs hc, h.held_eq hq]
    · rw [if_neg hj, Function.update_of_ne (Ne.symm hj), h.contents]
  · have gone {x : Msg} (hg : NotGone x tr) : NotGone x (.entered id m :: tr) :=
      hg.cons fun _ _ he => absurd he (by simp)
    rw [held_entered] at hx
    split at hx
    · rcases List.mem_append.mp hx with hx | hx
      · exact gone (h.stored j x hx)
      · rw [List.mem_singleton.mp hx]
        exact gone (h.story.not_gone hn)
    · exact gone (h.stored j x hx)

theorem pop_msgs : (q.pop rest).msgs = rest := rfl

theorem pop_size : (q.pop rest).size = q.size := rfl

theorem pop (h : Books mq n tr) (hq : mq id = some q) (hm : q.msgs = msg :: rest) :
    Books (Function.update mq id (some (q.pop rest))) n (.taken id msg :: tr) := by
  obtain ⟨hc, hle, hb⟩ := h.counted id q hq
  have hpop := pop_count hc hm
  have hheld : held id tr = msg :: rest := (h.held_eq hq).trans hm
  refine ⟨fun j r hr => ?_, .taken h.story (by rw [hheld]; rfl), fun j => ?_, fun j m hj => ?_⟩
  · by_cases hj : j = id
    · subst hj
      rw [Function.update_self] at hr
      obtain ⟨rfl⟩ : q.pop rest = r := Option.some.inj hr
      refine ⟨hpop, ?_, by rw [pop_size]; exact hb⟩
      rw [hc, hm, List.length_cons] at hle
      rw [pop_size]
      exact le_of_eq_of_le hpop (Nat.le_of_succ_le hle)
    · rw [Function.update_of_ne hj] at hr
      exact h.counted j r hr
  · rw [held_taken]
    by_cases hj : id = j
    · subst hj
      rw [if_pos rfl, Function.update_self, Option.map_some, pop_msgs, hheld]
      rfl
    · rw [if_neg hj, Function.update_of_ne (Ne.symm hj), h.contents]
  · have hold : m ∈ held j tr := by
      rw [held_taken] at hj
      split at hj
      · exact List.mem_of_mem_tail hj
      · exact hj
    exact (h.stored j m hold).cons fun _ _ he => absurd he (by simp)

theorem pass (h : Books mq n tr) (hq : mq id = some q) (he : q.count = 0)
    (hp : .psend id msg ∈ tr) (hn : NotEntered msg tr) :
    Books mq n (.taken id msg :: .entered id msg :: tr) := by
  obtain ⟨hc, _, _⟩ := h.counted id q hq
  have hnil : held id tr = [] := by
    rw [h.held_eq hq]
    exact List.length_eq_zero_iff.mp (hc.symm.trans he)
  have hsame (j : Nat) : held j (.taken id msg :: .entered id msg :: tr) = held j tr := by
    rw [held_taken, held_entered]
    by_cases hj : id = j
    · subst hj
      simp [hnil]
    · simp [hj]
  refine ⟨h.counted, .taken (.entered h.story hp hn) (by simp [held_entered, hnil]), fun j => ?_,
    fun j m hm => ?_⟩
  · rw [hsame, h.contents]
  · rw [hsame] at hm
    exact ((h.stored j m hm).cons fun _ _ he => absurd he (by simp)).cons
      fun _ _ he => absurd he (by simp)

theorem empty (h : Books mq n tr) (hq : mq id = some q) :
    Books (Function.update mq id none) n
      (.emptied id :: ((q.msgs.map (Obs.dropped id)).reverse ++ tr)) := by
  have hheld := h.held_eq hq
  have hn : q.msgs.Nodup := by
    rw [← hheld]
    exact h.story.fifo.content_nodup
  have drop (rest done : List Msg) (hsplit : q.msgs = done ++ rest) :
      Story n ((done.map (Obs.dropped id)).reverse ++ tr) ∧
        held id ((done.map (Obs.dropped id)).reverse ++ tr) = held id tr := by
    induction done using List.reverseRecOn generalizing rest with
    | nil => exact ⟨h.story, rfl⟩
    | append_singleton done m ih =>
      obtain ⟨hs, he⟩ := ih (m :: rest) (by rw [hsplit]; simp)
      have hm : m ∈ held id tr := by
        rw [hheld, hsplit]
        simp
      have hnew : m ∉ done := by
        rw [hsplit] at hn
        exact fun hd => (List.nodup_append.mp (List.nodup_append.mp hn).1).2.2 m hd m (by simp) rfl
      have hgone : NotGone m ((done.map (Obs.dropped id)).reverse ++ tr) := by
        intro id' m' hr heq
        rcases hr with hr | hr
        · have hr : .received id' m' ∈ tr := by simpa using hr
          exact h.stored id m hm id' m' (Or.inl hr) heq
        · have hr : (m' ∈ done ∧ id = id') ∨ .dropped id' m' ∈ tr := by simpa using hr
          rcases hr with ⟨hd, rfl⟩ | hr
          · have hm' : m' ∈ held id tr := by
              rw [hheld, hsplit]
              simp [hd]
            have := (h.story.entered_unique (Story.entered_of_held hm') (Story.entered_of_held hm)
              heq).2
            exact hnew (this ▸ hd)
          · exact h.stored id m hm id' m' (Or.inr hr) heq
      have hlist : (((done ++ [m]).map (Obs.dropped id)).reverse ++ tr) =
          .dropped id m :: ((done.map (Obs.dropped id)).reverse ++ tr) := by simp
      rw [hlist]
      exact ⟨.dropped hs (Or.inl (he ▸ hm)) hgone, (held_other rfl).trans he⟩
  obtain ⟨hs, he⟩ := drop [] q.msgs (by simp)
  have hother (j : Nat) : held j ((q.msgs.map (Obs.dropped id)).reverse ++ tr) = held j tr := by
    have hlog : log ((q.msgs.map (Obs.dropped id)).reverse ++ tr) = log tr := by
      unfold log
      rw [List.filterMap_append, List.filterMap_eq_nil_iff.mpr, List.nil_append]
      intro o ho
      obtain ⟨m, _, rfl⟩ : ∃ m ∈ q.msgs, .dropped id m = o := by simpa using ho
      rfl
    unfold held
    rw [hlog]
  refine ⟨fun j r hr => ?_, .emptied hs fun m hm => ?_, fun j => ?_, fun j m hm => ?_⟩
  · by_cases hj : j = id
    · subst hj
      rw [Function.update_self] at hr
      cases hr
    · rw [Function.update_of_ne hj] at hr
      exact h.counted j r hr
  · rw [he, hheld] at hm
    simp [hm]
  · rw [held_emptied]
    by_cases hj : id = j
    · subst hj
      simp
    · rw [if_neg hj, Function.update_of_ne (Ne.symm hj), hother, h.contents]
  · rw [held_emptied] at hm
    split at hm
    · cases hm
    · rename_i hj
      rw [hother] at hm
      intro id' m' hr heq
      rcases hr with hr | hr
      · have hr : .received id' m' ∈ tr := by simpa using hr
        exact h.stored j m hm id' m' (Or.inl hr) heq
      · have hr : (m' ∈ q.msgs ∧ id = id') ∨ .dropped id' m' ∈ tr := by simpa using hr
        rcases hr with ⟨hd, rfl⟩ | hr
        · rw [← hheld] at hd
          exact hj (h.story.entered_unique (Story.entered_of_held hd) (Story.entered_of_held hm) heq).1
        · exact h.stored j m hm id' m' (Or.inr hr) heq

theorem create {count : Nat} (h : Books mq n tr) (hq : mq id = none) (hc : (count : Int) ≤ int16Max) :
    Books (Function.update mq id (some ⟨count, 0, []⟩)) n tr where
  counted j r hr := by
    by_cases hj : j = id
    · subst hj
      rw [Function.update_self] at hr
      cases hr
      exact ⟨rfl, Nat.zero_le _, hc⟩
    · rw [Function.update_of_ne hj] at hr
      exact h.counted j r hr
  story := h.story
  contents j := by
    by_cases hj : j = id
    · subst hj
      rw [Function.update_self, h.contents, hq]
      rfl
    · rw [Function.update_of_ne hj, h.contents]
  stored := h.stored

end Books
end DominOS.Process
