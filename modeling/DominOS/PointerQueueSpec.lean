import DominOS.PointerQueue
import Mathlib.Tactic.Common

/-! The lists in memory are the lists by priority, whatever operations are made. -/
namespace DominOS.PointerQueue
open LinkedRings IntrusiveLists
universe u

variable {π : Type u} {m m' m₀ : Heap π} {diff a b e h p c : Ptr} {heads elems : List Ptr}

namespace Heap

@[simp] theorem setNext_next : (m.setNext a b).next = Function.update m.next a b := rfl
@[simp] theorem setNext_prev : (m.setNext a b).prev = m.prev := rfl
@[simp] theorem setNext_prio : (m.setNext a b).prio = m.prio := rfl
@[simp] theorem setPrev_next : (m.setPrev a b).next = m.next := rfl
@[simp] theorem setPrev_prev : (m.setPrev a b).prev = Function.update m.prev a b := rfl
@[simp] theorem setPrev_prio : (m.setPrev a b).prio = m.prio := rfl

theorem queueEntry_link (diff e : Ptr) : queueEntry diff (e + diff) = e := BitVec.add_sub_cancel e diff

end Heap

theorem link_inj {e e' : Ptr} (h : e + diff = e' + diff) : e = e' := by
  rw [← Heap.queueEntry_link diff e, h, Heap.queueEntry_link]

theorem mem_links {es : List Ptr} : e + diff ∈ es.map (· + diff) ↔ e ∈ es := by
  constructor
  · intro h
    obtain ⟨e', he, hlink⟩ := List.mem_map.mp h
    exact link_inj hlink ▸ he
  · exact List.mem_map_of_mem

theorem links_nodup {es : List Ptr} (h : es.Nodup) : (es.map (· + diff)).Nodup :=
  h.map fun _ _ => link_inj

variable [LinearOrder π] {q : Queues π}

section Search

theorem search_eq {es : List Ptr} {fuel : Nat} {cur : Ptr} {prio : π}
    (hp : Path m.next cur (es.map (· + diff)) h) (hh : h ∉ es.map (· + diff)) (hf : es.length < fuel) :
    m.search diff prio h fuel cur =
      ((es.dropWhile fun b => m.prio b < prio).map (· + diff) ++ [h]).head? := by
  induction es generalizing cur fuel with
  | nil =>
    obtain ⟨fuel, rfl⟩ : ∃ n, fuel = n + 1 := ⟨fuel - 1, by simp at hf; omega⟩
    have hnext : m.next cur = h := hp
    simp [Heap.search, hnext]
  | cons b es ih =>
    obtain ⟨fuel, rfl⟩ : ∃ n, fuel = n + 1 := ⟨fuel - 1, by simp at hf; omega⟩
    obtain ⟨hnext, hp⟩ := hp
    simp only [List.map_cons, List.mem_cons, not_or] at hh
    unfold Heap.search
    simp only [hnext, Heap.queueEntry_link, List.dropWhile_cons]
    by_cases hlt : m.prio b < prio
    · rw [if_pos ⟨Ne.symm hh.1, hlt⟩, if_pos (by simpa using hlt)]
      exact ih hp hh.2 (by simp at hf; omega)
    · rw [if_neg (fun hc => hlt hc.2), if_neg (by simpa using hlt)]
      rfl

end Search

namespace Holds

theorem mem_elems (hm : Holds diff heads elems m₀ m q) (he : e ∈ q.links.members h) : e ∈ elems :=
  (hm.linked e h (Links.link_of_mem he)).1

theorem head_not_mem (hm : Holds diff heads elems m₀ m q) (hu : Usable diff heads elems m₀)
    (hh : h ∈ heads) (h' : Ptr) : h ∉ (q.links.members h').map (· + diff) := by
  intro hmem
  obtain ⟨e, he, rfl⟩ := List.mem_map.mp hmem
  exact hu.apart e (hm.mem_elems he) hh

theorem nodup (hm : Holds diff heads elems m₀ m q) (hu : Usable diff heads elems m₀) (hh : h ∈ heads) :
    (h :: (q.links.members h).map (· + diff)).Nodup :=
  List.nodup_cons.mpr ⟨hm.head_not_mem hu hh h, links_nodup (q.links.nodup h)⟩

theorem apart (hm : Holds diff heads elems m₀ m q) (hu : Usable diff heads elems m₀) {h' : Ptr}
    (hh : h ∈ heads) (hh' : h' ∈ heads) (hne : h ≠ h')
    (ha : a ∈ h :: (q.links.members h).map (· + diff)) :
    a ∉ h' :: (q.links.members h').map (· + diff) := by
  intro ha'
  obtain rfl | ha := List.mem_cons.mp ha
  · obtain rfl | ha' := List.mem_cons.mp ha'
    · exact hne rfl
    · exact hm.head_not_mem hu hh h' ha'
  · obtain rfl | ha' := List.mem_cons.mp ha'
    · exact hm.head_not_mem hu hh' h ha
    · obtain ⟨e, he, rfl⟩ := List.mem_map.mp ha
      have he' := mem_links.mp ha'
      have hlink := (Links.link_of_mem he).symm.trans (Links.link_of_mem he')
      exact hne (Option.some.inj hlink)

omit [LinearOrder π] in
theorem link_apart {q : Queues π} (hu : Usable diff heads elems m₀) {h' : Ptr}
    (he : e ∈ elems) (hh' : h' ∈ heads) (hne : q.links.link e ≠ some h') :
    e + diff ∉ h' :: (q.links.members h').map (· + diff) := by
  intro hmem
  obtain heq | hmem := List.mem_cons.mp hmem
  · exact hu.apart e he (heq ▸ hh')
  · exact hne (Links.link_of_mem (mem_links.mp hmem))

omit [LinearOrder π] in
theorem not_framed {q : Queues π} (ha : a ∈ h :: (q.links.members h).map (· + diff)) (hh : h ∈ heads)
    (hframe : b ∉ heads) (hfree : ∀ e, b = e + diff → q.links.link e = none) : b ≠ a := by
  rintro rfl
  obtain rfl | hmem := List.mem_cons.mp ha
  · exact hframe hh
  · obtain ⟨e, he, hlink⟩ := List.mem_map.mp hmem
    have := hfree e hlink.symm
    rw [Links.link_of_mem he] at this
    cases this

theorem nonnull (hm : Holds diff heads elems m₀ m q) (hu : Usable diff heads elems m₀) (hh : h ∈ heads)
    (ha : a ∈ h :: (q.links.members h).map (· + diff)) : a ≠ 0 := by
  obtain rfl | hmem := List.mem_cons.mp ha
  · exact fun hz => hu.head (hz ▸ hh)
  · obtain ⟨e, he, rfl⟩ := List.mem_map.mp hmem
    exact hu.nonzero e (hm.mem_elems he)

theorem zero (hm : Holds diff heads elems m₀ m q) (hu : Usable diff heads elems m₀) (he : e ∈ elems)
    (hfree : q.links.link e = none) : m.prev (e + diff) = 0 ∧ m.next (e + diff) = 0 := by
  obtain ⟨hprev, hnext⟩ := hm.frame (e + diff) (hu.apart e he) fun e' he' => link_inj he' ▸ hfree
  rw [hprev, hnext]
  exact hu.zero e he

end Holds

section Add

theorem takeWhile_insert (es : List Ptr) (prio : Ptr → π) (e : Ptr) :
    es.orderedInsert (fun a b => prio a ≤ prio b) e =
      (es.takeWhile fun b => prio b < prio e) ++ e :: es.dropWhile fun b => prio b < prio e := by
  rw [List.orderedInsert_eq_take_drop]
  simp only [not_le]

theorem queueAdd_inserted {fuel : Nat} (hm : Holds diff heads elems m₀ m q)
    (hu : Usable diff heads elems m₀) (hh : h ∈ heads) (he : e ∈ elems)
    (hfree : q.links.link e = none) (hf : (q.links.members h).length < fuel)
    (hg : Gap h (((q.links.members h).takeWhile fun b => q.prio b < q.prio e).map (· + diff))
      (((q.links.members h).dropWhile fun b => q.prio b < q.prio e).map (· + diff)) p c) :
    ∃ m', m.queueAdd diff fuel e h = some m' ∧ m'.prio = m.prio ∧
      Inserted m.next m.prev m'.next m'.prev p (e + diff) c := by
  have hring := hm.ring h hh
  have hsplit := List.takeWhile_append_dropWhile (p := fun b => q.prio b < q.prio e) (l := q.links.members h)
  obtain ⟨hnext, hprev⟩ : Linked m.next m.prev p c := by
    apply Ring.linked _ hg
    rw [← List.map_append, hsplit]
    exact hring
  have hsearch : m.search diff (m.prio e) h fuel h = some c := by
    obtain ⟨bs, hright⟩ := hg.right
    rw [search_eq hring.forward (hm.head_not_mem hu hh h) hf, hm.prio, hright]
    rfl
  have hout := Holds.link_apart hu he hh (by rw [hfree]; nofun)
  obtain ⟨hp, hc⟩ := hg.mem
  rw [← List.map_append, hsplit] at hp hc
  have hpe : e + diff ≠ p := fun heq => hout (heq ▸ hp)
  have hce : e + diff ≠ c := fun heq => hout (heq ▸ hc)
  unfold Heap.queueAdd
  rw [if_pos (hm.zero hu he hfree), hsearch, Option.map_some]
  refine ⟨_, rfl, rfl, ?_⟩
  simp only [Heap.setNext_next, Heap.setNext_prev, Heap.setPrev_next, Heap.setPrev_prev,
    Function.update_of_ne hce.symm, hprev]
  constructor
  · intro x hxp hxe
    rw [Function.update_of_ne hxp, Function.update_of_ne hxe]
  · intro x hxc hxe
    rw [Function.update_of_ne hxc, Function.update_of_ne hxe]
  · exact ⟨Function.update_self .., by rw [Function.update_of_ne hce, Function.update_self]⟩
  · exact ⟨by rw [Function.update_of_ne hpe, Function.update_self], Function.update_self ..⟩

theorem Holds.add (hm : Holds diff heads elems m₀ m q) (hu : Usable diff heads elems m₀)
    (hh : h ∈ heads) (he : e ∈ elems) (hfree : q.links.link e = none)
    (hg : Gap h (((q.links.members h).takeWhile fun b => q.prio b < q.prio e).map (· + diff))
      (((q.links.members h).dropWhile fun b => q.prio b < q.prio e).map (· + diff)) p c)
    (hprio : m'.prio = m.prio) (hi : Inserted m.next m.prev m'.next m'.prev p (e + diff) c) :
    Holds diff heads elems m₀ m' (q.add e h) := by
  have hsplit := List.takeWhile_append_dropWhile (p := fun b => q.prio b < q.prio e) (l := q.links.members h)
  obtain ⟨hp, hc⟩ := hg.mem
  rw [← List.map_append, hsplit] at hp hc
  have herase : ∀ h', (q.links.members h').erase e = q.links.members h' :=
    fun h' => List.erase_of_not_mem (Links.not_mem hfree h')
  constructor
  · exact hprio.trans hm.prio
  · intro h' hh'
    by_cases hne : h' = h
    · subst hne
      have hring := hm.ring h' hh'
      have hnodup := hm.nodup hu hh'
      have hout := Holds.link_apart hu he hh' (by rw [hfree]; nofun)
      unfold Queues.add
      rw [Links.members_move_self, herase, takeWhile_insert, List.map_append, List.map_cons]
      apply Ring.insert _ _ _ hg hi
      · rw [← List.map_append, hsplit]
        exact hring
      · rw [← List.map_append, hsplit]
        exact hnodup
      · rw [← List.map_append, hsplit]
        exact hout
    · have hout := Holds.link_apart hu he hh' (by rw [hfree]; nofun)
      unfold Queues.add
      rw [Links.members_move_of_ne hne, herase]
      apply (hm.ring h' hh').congr
      · intro x hx
        apply hi.next
        · rintro rfl
          exact hm.apart hu hh hh' (Ne.symm hne) hp hx
        · rintro rfl
          exact hout hx
      · intro x hx
        apply hi.prev
        · rintro rfl
          exact hm.apart hu hh hh' (Ne.symm hne) hc hx
        · rintro rfl
          exact hout hx
  · intro b h' hb
    by_cases hbe : b = e
    · subst hbe
      have hb' : some h = some h' := Links.link_move_self.symm.trans hb
      exact ⟨he, Option.some.inj hb' ▸ hh⟩
    · exact hm.linked b h' ((Links.link_move_of_ne hbe).symm.trans hb)
  · intro x hx hfree'
    have hne : x ≠ e + diff := by
      rintro rfl
      have hnone : some h = none := Links.link_move_self.symm.trans (hfree' e rfl)
      cases hnone
    have hold : ∀ b, x = b + diff → q.links.link b = none := by
      rintro b rfl
      have hbe : b ≠ e := fun hbe => hne (hbe ▸ rfl)
      exact (Links.link_move_of_ne hbe).symm.trans (hfree' b rfl)
    rw [hi.prev x (Holds.not_framed hc hh hx hold) hne, hi.next x (Holds.not_framed hp hh hx hold) hne]
    exact hm.frame x hx hold
  · exact (hm.ordered.erase e).move h

end Add

section Del
variable {pre post : List Ptr}

theorem erase_split (hd : (pre ++ e :: post).Nodup) : (pre ++ e :: post).erase e = pre ++ post := by
  have hpre : e ∉ pre := fun he => (List.nodup_append.mp hd).2.2 e he e List.mem_cons_self rfl
  rw [List.erase_append_right _ hpre, List.erase_cons_head]

theorem Holds.del (hm : Holds diff heads elems m₀ m q) (hu : Usable diff heads elems m₀)
    (hlink : q.links.link e = some h) (hes : q.links.members h = pre ++ e :: post)
    (hg : Gap h (pre.map (· + diff)) (post.map (· + diff)) p c) (hprio : m'.prio = m.prio)
    (hi : Removed m.next m.prev m'.next m'.prev p (e + diff) c)
    (hzero : m'.prev (e + diff) = 0 ∧ m'.next (e + diff) = 0) :
    Holds diff heads elems m₀ m' (q.del e) := by
  obtain ⟨he, hh⟩ := hm.linked e h hlink
  have hnodup := hm.nodup hu hh
  have hring := hm.ring h hh
  rw [hes, List.map_append, List.map_cons] at hnodup hring
  obtain ⟨hp, hc⟩ := hg.mem
  have hwhole : ∀ x, x ∈ h :: (pre.map (· + diff) ++ post.map (· + diff)) →
      x ∈ h :: (q.links.members h).map (· + diff) := by
    intro x hx
    rw [hes, List.map_append, List.map_cons]
    simp only [List.mem_cons, List.mem_append] at hx ⊢
    tauto
  constructor
  · exact hprio.trans hm.prio
  · intro h' hh'
    unfold Queues.del
    rw [Links.members_erase]
    by_cases hne : h' = h
    · subst hne
      rw [hes, erase_split (hes ▸ q.links.nodup h'), List.map_append]
      have hperm := (List.nodup_cons.mp ((@List.perm_middle _ _ (h' :: pre.map (· + diff)) _).nodup_iff.mp hnodup))
      exact hring.remove hperm.2 hperm.1 hg hi
    · have hout := Holds.link_apart hu he hh' (by rw [hlink]; exact fun heq => hne (Option.some.inj heq).symm)
      rw [List.erase_of_not_mem (fun hmem => hne (Option.some.inj ((Links.link_of_mem hmem).symm.trans hlink)))]
      apply (hm.ring h' hh').congr
      · intro x hx
        apply hi.next
        · rintro rfl
          exact hm.apart hu hh hh' (Ne.symm hne) (hwhole _ hp) hx
        · rintro rfl
          exact hout hx
      · intro x hx
        apply hi.prev
        · rintro rfl
          exact hm.apart hu hh hh' (Ne.symm hne) (hwhole _ hc) hx
        · rintro rfl
          exact hout hx
  · intro b h' hb
    by_cases hbe : b = e
    · subst hbe
      cases Links.link_erase_self.symm.trans hb
    · exact hm.linked b h' ((Links.link_erase_of_ne hbe).symm.trans hb)
  · intro x hx hfree
    by_cases hxe : x = e + diff
    · subst hxe
      rw [hzero.1, hzero.2, (hu.zero e he).1, (hu.zero e he).2]
      exact ⟨rfl, rfl⟩
    have hold : ∀ b, x = b + diff → q.links.link b = none := by
      rintro b rfl
      have hbe : b ≠ e := fun hbe => hxe (hbe ▸ rfl)
      exact (Links.link_erase_of_ne hbe).symm.trans (hfree b rfl)
    rw [hi.prev x (Holds.not_framed (hwhole _ hc) hh hx hold) hxe,
      hi.next x (Holds.not_framed (hwhole _ hp) hh hx hold) hxe]
    exact hm.frame x hx hold
  · exact hm.ordered.erase e

theorem Holds.neighbours (hm : Holds diff heads elems m₀ m q) (hu : Usable diff heads elems m₀)
    (hh : h ∈ heads) (hes : q.links.members h = pre ++ e :: post)
    (hg : Gap h (pre.map (· + diff)) (post.map (· + diff)) p c) :
    m.prev (e + diff) = p ∧ m.next (e + diff) = c ∧ p ≠ e + diff ∧ c ≠ e + diff ∧ p ≠ 0 ∧ c ≠ 0 := by
  have hring := hm.ring h hh
  have hnodup := hm.nodup hu hh
  have hnonnull : ∀ a ∈ h :: (q.links.members h).map (· + diff), a ≠ 0 := fun a ha => hm.nonnull hu hh ha
  rw [hes, List.map_append, List.map_cons] at hring hnodup hnonnull
  obtain ⟨hpe, hec⟩ := hring.neighbours hg
  obtain ⟨hp, hc⟩ := hg.mem
  have hperm := (List.nodup_cons.mp ((@List.perm_middle _ _ (h :: pre.map (· + diff)) _).nodup_iff.mp hnodup)).1
  have hsub : ∀ x ∈ h :: (pre.map (· + diff) ++ post.map (· + diff)),
      x ∈ h :: (pre.map (· + diff) ++ (e + diff) :: post.map (· + diff)) := by
    intro x hx
    simp only [List.mem_cons, List.mem_append] at hx ⊢
    tauto
  refine ⟨hpe.2, hec.1, ?_, ?_, hnonnull p (hsub p hp), hnonnull c (hsub c hc)⟩
  · rintro rfl
    exact hperm hp
  · rintro rfl
    exact hperm hc

theorem queueDel_holds (hm : Holds diff heads elems m₀ m q) (hu : Usable diff heads elems m₀)
    (hlink : q.links.link e = some h) :
    ∃ m', m.queueDel diff e = some m' ∧ Holds diff heads elems m₀ m' (q.del e) := by
  obtain ⟨he, hh⟩ := hm.linked e h hlink
  obtain ⟨pre, post, hes⟩ := List.append_of_mem (Links.mem_of_link hlink)
  obtain ⟨p, c, hg⟩ := exists_gap h (pre.map (· + diff)) (post.map (· + diff))
  obtain ⟨hprev, hnext, hpe, hce, hp, hc⟩ := hm.neighbours hu hh hes hg
  have hlinked : m.prev (e + diff) ≠ 0 ∧ m.next (e + diff) ≠ 0 := by
    rw [hprev, hnext]
    exact ⟨hp, hc⟩
  refine ⟨_, if_pos hlinked, hm.del hu hlink hes hg rfl ?_ ?_⟩
  · simp only [Heap.setNext_next, Heap.setNext_prev, Heap.setPrev_next, Heap.setPrev_prev, hprev,
      Function.update_of_ne hpe.symm, hnext]
    constructor
    · intro x hxp hxe
      rw [Function.update_of_ne hxe, Function.update_of_ne hxp]
    · intro x hxc hxe
      rw [Function.update_of_ne hxe, Function.update_of_ne hxc]
    · constructor
      · rw [Function.update_of_ne hpe, Function.update_self]
      · rw [Function.update_of_ne hce, Function.update_self]
  · exact ⟨Function.update_self .., Function.update_self ..⟩

theorem Holds.last (hm : Holds diff heads elems m₀ m q) (hh : h ∈ heads) (htop : q.top h = some e) :
    m.prev h = e + diff := by
  have hback := (hm.ring h hh).backward
  obtain ⟨front, hes⟩ := List.getLast?_eq_some_iff.mp htop
  rw [hes, List.map_append, List.reverse_append] at hback
  exact hback.1

theorem Holds.first (hm : Holds diff heads elems m₀ m q) (hh : h ∈ heads) (hbottom : q.bottom h = some e) :
    m.next h = e + diff := by
  have hforward := (hm.ring h hh).forward
  obtain ⟨rest, hes⟩ := List.head?_eq_some_iff.mp hbottom
  rw [hes] at hforward
  exact hforward.1

theorem Holds.queueEmpty (hm : Holds diff heads elems m₀ m q) (hu : Usable diff heads elems m₀)
    (hh : h ∈ heads) : m.queueEmpty h = (q.links.members h).isEmpty := by
  have hforward := (hm.ring h hh).forward
  have hout := hm.head_not_mem hu hh h
  unfold Heap.queueEmpty
  cases hes : q.links.members h with
  | nil =>
    rw [hes] at hforward
    have hself : m.next h = h := hforward
    simp [hself]
  | cons b es =>
    rw [hes] at hforward hout
    simp only [List.map_cons, List.mem_cons, not_or] at hout
    have hne : m.next h ≠ h := fun heq => hout.1 (heq.symm.trans hforward.1)
    simp [hne]

theorem queueTop_eq (hm : Holds diff heads elems m₀ m q) (hu : Usable diff heads elems m₀)
    (hh : h ∈ heads) : m.queueTop diff h = (q.top h).getD 0 := by
  unfold Heap.queueTop
  simp only [hm.queueEmpty hu hh]
  cases htop : q.top h with
  | none =>
    rw [List.getLast?_eq_none_iff.mp htop]
    rfl
  | some e =>
    have hne : q.links.members h ≠ [] := fun hnil => by simp [Queues.top, hnil] at htop
    rw [if_neg (by simpa using hne), hm.last hh htop]
    exact Heap.queueEntry_link diff e

theorem queueBottom_eq (hm : Holds diff heads elems m₀ m q) (hu : Usable diff heads elems m₀)
    (hh : h ∈ heads) : m.queueBottom diff h = (q.bottom h).getD 0 := by
  unfold Heap.queueBottom
  simp only [hm.queueEmpty hu hh]
  cases hbottom : q.bottom h with
  | none =>
    rw [List.head?_eq_none_iff.mp hbottom]
    rfl
  | some e =>
    have hne : q.links.members h ≠ [] := fun hnil => by simp [Queues.bottom, hnil] at hbottom
    rw [if_neg (by simpa using hne), hm.first hh hbottom]
    exact Heap.queueEntry_link diff e

theorem queueOut_holds (hm : Holds diff heads elems m₀ m q) (hu : Usable diff heads elems m₀)
    (hh : h ∈ heads) (htop : q.top h = some e) :
    ∃ m', m.queueOut diff h = (e, m') ∧ Holds diff heads elems m₀ m' (q.del e) := by
  obtain ⟨front, hes⟩ := List.getLast?_eq_some_iff.mp htop
  have hlink := Links.link_of_mem (show e ∈ q.links.members h by rw [hes]; simp)
  obtain ⟨p, c, hg⟩ := exists_gap h (front.map (· + diff)) []
  obtain rfl : h = c := by
    obtain ⟨bs, hright⟩ := hg.right
    exact (List.cons.inj hright).1
  obtain ⟨hprev, -, hpe, hce, -, -⟩ := hm.neighbours hu hh hes hg
  have hne : ¬ m.queueEmpty h = true := by
    rw [hm.queueEmpty hu hh, hes]
    simp
  have hentry : m.prev h - diff = e := by
    rw [hm.last hh htop]
    exact Heap.queueEntry_link diff e
  refine ⟨_, (if_neg hne).trans (Prod.ext hentry rfl), hm.del hu hlink hes hg rfl ?_ ?_⟩
  · simp only [Heap.setNext_next, Heap.setNext_prev, Heap.setPrev_next, Heap.setPrev_prev,
      hm.last hh htop, hprev, Function.update_self]
    constructor
    · intro x hxp hxe
      rw [Function.update_of_ne hxe, Function.update_of_ne hxp]
    · intro x hxc hxe
      rw [Function.update_of_ne hxe, Function.update_of_ne hxc]
    · constructor
      · rw [Function.update_of_ne hpe, Function.update_self]
      · rw [Function.update_of_ne hce, Function.update_self]
  · simp [hm.last hh htop]

theorem queueOut_empty (hm : Holds diff heads elems m₀ m q) (hu : Usable diff heads elems m₀)
    (hh : h ∈ heads) (htop : q.top h = none) : m.queueOut diff h = (0, m) := by
  have hempty : m.queueEmpty h = true := by
    rw [hm.queueEmpty hu hh, List.getLast?_eq_none_iff.mp htop]
    rfl
  exact if_pos hempty

end Del

section Runs
variable {fuel : Nat} {op : Op π} {ops : List (Op π)} {q' : Queues π} {r : Option Ptr}
  {rs : List (Option Ptr)}

theorem queueAdd_holds (hm : Holds diff heads elems m₀ m q) (hu : Usable diff heads elems m₀)
    (hh : h ∈ heads) (he : e ∈ elems) (hfree : q.links.link e = none)
    (hf : (q.links.members h).length < fuel) :
    ∃ m', m.queueAdd diff fuel e h = some m' ∧ Holds diff heads elems m₀ m' (q.add e h) := by
  obtain ⟨p, c, hg⟩ := exists_gap h
    (((q.links.members h).takeWhile fun b => q.prio b < q.prio e).map (· + diff))
    (((q.links.members h).dropWhile fun b => q.prio b < q.prio e).map (· + diff))
  obtain ⟨m', hadd, hprio, hi⟩ := queueAdd_inserted hm hu hh he hfree hf hg
  exact ⟨m', hadd, hm.add hu hh he hfree hg hprio hi⟩

theorem queueUpdate_holds (hm : Holds diff heads elems m₀ m q) (hu : Usable diff heads elems m₀)
    (hh : h ∈ heads) (hlink : q.links.link e ≠ none) (hf : (q.links.members h).length < fuel) :
    ∃ m', m.queueUpdate diff fuel e h = some m' ∧ Holds diff heads elems m₀ m' (q.add e h) := by
  obtain ⟨h', hlink⟩ := Option.ne_none_iff_exists'.mp hlink
  obtain ⟨m₁, hdel, hm₁⟩ := queueDel_holds hm hu hlink
  have hlen : ((q.del e).links.members h).length < fuel :=
    Nat.lt_of_le_of_lt (List.length_erase_le ..) hf
  obtain ⟨m', hadd, hm'⟩ := queueAdd_holds hm₁ hu hh (hm.linked e h' hlink).1 Links.link_erase_self hlen
  refine ⟨m', ?_, ?_⟩
  · unfold Heap.queueUpdate
    rw [hdel, Option.bind_some, hadd]
  · have hmove : (q.del e).add e h = q.add e h := by
      unfold Queues.add Queues.del
      rw [Links.move_erase]
    rw [← hmove]
    exact hm'

theorem setPrio_holds (hm : Holds diff heads elems m₀ m q) (hfree : q.links.link e = none) (x : π) :
    Holds diff heads elems m₀ (m.setPrio e x) { q with prio := Function.update q.prio e x } := by
  refine ⟨?_, hm.ring, hm.linked, hm.frame, ?_⟩
  · show Function.update m.prio e x = _
    rw [hm.prio]
  · apply hm.ordered.congr
    intro a h ha
    apply Function.update_of_ne
    rintro rfl
    exact Links.not_mem hfree h ha

theorem exec_holds (hm : Holds diff heads elems m₀ m q) (hu : Usable diff heads elems m₀)
    (hf : ∀ h, (q.links.members h).length < fuel) (hop : q.exec heads elems op = some (r, q')) :
    ∃ m', m.exec diff fuel op = some (r.getD 0, m') ∧ Holds diff heads elems m₀ m' q' := by
  cases op with
  | queueAdd elem head =>
    obtain ⟨⟨hh, he, hfree⟩, hq⟩ := Option.ite_none_right_eq_some.mp hop
    cases hq
    obtain ⟨m', hadd, hm'⟩ := queueAdd_holds hm hu hh he hfree (hf head)
    exact ⟨m', congrArg (Option.map (Prod.mk 0)) hadd, hm'⟩
  | queueOut head =>
    obtain ⟨hh, hq⟩ := Option.ite_none_right_eq_some.mp hop
    cases htop : q.top head with
    | none =>
      rw [htop] at hq
      cases hq
      exact ⟨m, congrArg some (queueOut_empty hm hu hh htop), hm⟩
    | some e =>
      rw [htop] at hq
      cases hq
      obtain ⟨m', hout, hm'⟩ := queueOut_holds hm hu hh htop
      exact ⟨m', congrArg some hout, hm'⟩
  | queueDel elem =>
    obtain ⟨hlink, hq⟩ := Option.ite_none_right_eq_some.mp hop
    cases hq
    obtain ⟨h, hlink⟩ := Option.ne_none_iff_exists'.mp hlink
    obtain ⟨m', hdel, hm'⟩ := queueDel_holds hm hu hlink
    exact ⟨m', congrArg (Option.map (Prod.mk 0)) hdel, hm'⟩
  | queueTop head =>
    obtain ⟨hh, hq⟩ := Option.ite_none_right_eq_some.mp hop
    cases hq
    exact ⟨m, congrArg (fun a => some (a, m)) (queueTop_eq hm hu hh), hm⟩
  | queueBottom head =>
    obtain ⟨hh, hq⟩ := Option.ite_none_right_eq_some.mp hop
    cases hq
    exact ⟨m, congrArg (fun a => some (a, m)) (queueBottom_eq hm hu hh), hm⟩
  | queueUpdate elem head =>
    obtain ⟨⟨hh, hlink⟩, hq⟩ := Option.ite_none_right_eq_some.mp hop
    cases hq
    obtain ⟨m', hupdate, hm'⟩ := queueUpdate_holds hm hu hh hlink (hf head)
    exact ⟨m', congrArg (Option.map (Prod.mk 0)) hupdate, hm'⟩
  | setPrio elem x =>
    obtain ⟨hfree, hq⟩ := Option.ite_none_right_eq_some.mp hop
    cases hq
    exact ⟨_, rfl, setPrio_holds hm hfree x⟩

theorem exec_length (hop : q.exec heads elems op = some (r, q')) (h : Ptr) :
    (q'.links.members h).length ≤ (q.links.members h).length + 1 := by
  have hadd : ∀ elem head, ((q.add elem head).links.members h).length ≤
      (q.links.members h).length + 1 := by
    intro elem head
    have herase := List.length_erase_le (a := elem) (l := q.links.members h)
    unfold Queues.add
    by_cases hne : h = head
    · subst hne
      rw [Links.members_move_self, List.orderedInsert_length]
      omega
    · rw [Links.members_move_of_ne hne]
      omega
  have hdel : ∀ elem, ((q.del elem).links.members h).length ≤ (q.links.members h).length + 1 :=
    fun elem => Nat.le_succ_of_le (List.length_erase_le ..)
  cases op with
  | queueAdd elem head =>
    cases (Option.ite_none_right_eq_some.mp hop).2
    exact hadd elem head
  | queueOut head =>
    have hq := (Option.ite_none_right_eq_some.mp hop).2
    split at hq
    · cases hq
      exact Nat.le_succ _
    · cases hq
      exact hdel _
  | queueDel elem =>
    cases (Option.ite_none_right_eq_some.mp hop).2
    exact hdel elem
  | queueTop head =>
    cases (Option.ite_none_right_eq_some.mp hop).2
    exact Nat.le_succ _
  | queueBottom head =>
    cases (Option.ite_none_right_eq_some.mp hop).2
    exact Nat.le_succ _
  | queueUpdate elem head =>
    cases (Option.ite_none_right_eq_some.mp hop).2
    exact hadd elem head
  | setPrio elem x =>
    cases (Option.ite_none_right_eq_some.mp hop).2
    exact Nat.le_succ _

theorem run_holds (fuel : Nat) (hm : Holds diff heads elems m₀ m q) (hu : Usable diff heads elems m₀)
    (hf : ∀ h, (q.links.members h).length + ops.length ≤ fuel)
    (hrun : q.run heads elems ops = some (rs, q')) :
    ∃ m', m.run diff fuel ops = some (rs.map (·.getD 0), m') ∧ Holds diff heads elems m₀ m' q' := by
  induction ops generalizing m q rs with
  | nil =>
    cases hrun
    exact ⟨m, rfl, hm⟩
  | cons op ops ih =>
    obtain ⟨⟨r, q₁⟩, hop, hrest⟩ := Option.bind_eq_some_iff.mp hrun
    obtain ⟨⟨rs', q₂⟩, hrun', heq⟩ := Option.map_eq_some_iff.mp hrest
    cases heq
    simp only [List.length_cons] at hf
    have hshort : ∀ h, (q.links.members h).length < fuel := fun h => by have := hf h; omega
    obtain ⟨m₁, hm₁op, hm₁⟩ := exec_holds hm hu hshort hop
    have hleft : ∀ h, (q₁.links.members h).length + ops.length ≤ fuel := by
      intro h
      have := hf h
      have := exec_length hop h
      omega
    obtain ⟨m', hm'run, hm'⟩ := ih hm₁ hleft hrun'
    refine ⟨m', ?_, hm'⟩
    unfold Heap.run
    rw [hm₁op, Option.bind_some, hm'run]
    rfl

omit [LinearOrder π] in
theorem initHeads_links (heads : List Ptr) (m : Heap π) (a : Ptr) :
    (m.initHeads heads).prio = m.prio ∧
      (m.initHeads heads).next a = (if a ∈ heads then a else m.next a) ∧
      (m.initHeads heads).prev a = if a ∈ heads then a else m.prev a := by
  unfold Heap.initHeads
  induction heads generalizing m with
  | nil => simp
  | cons h heads ih =>
    obtain ⟨hprio, hnext, hprev⟩ := ih (m.initListHead h)
    rw [List.foldl_cons, hprio, hnext, hprev]
    refine ⟨rfl, ?_, ?_⟩
    all_goals
      by_cases ha : a = h
      · subst ha
        simp [Heap.initListHead]
      · simp [Heap.initListHead, ha]

theorem initHeads_holds (m₀ : Heap π) (heads elems : List Ptr) (diff : Ptr) :
    Holds diff heads elems m₀ (m₀.initHeads heads) (Queues.start m₀.prio) := by
  constructor
  · exact (initHeads_links heads m₀ 0).1
  · intro h hh
    obtain ⟨-, hnext, hprev⟩ := initHeads_links heads m₀ h
    rw [if_pos hh] at hnext hprev
    exact ring_nil hnext hprev
  · intro e h he
    cases he
  · intro a ha _
    obtain ⟨-, hnext, hprev⟩ := initHeads_links heads m₀ a
    rw [if_neg ha] at hnext hprev
    exact ⟨hprev, hnext⟩
  · exact Links.ordered_empty

/-- In any memory, after any operations on lists whose heads have been initialised: the code has
returned what the lists by priority return; from each head, the `next` links lead through its list
and the `prev` links through the same elements in the opposite order, and both come back; what
`queue_out` and `queue_top` give is of highest priority, and the one among equals that was added
first; and the links of all else are as they were, those of removed elements zero. -/
theorem queue_is_priority_list (m₀ : Heap π) (diff : Ptr) (heads elems : List Ptr)
    (hu : Usable diff heads elems m₀) (ops : List (Op π)) (rs : List (Option Ptr)) (q : Queues π)
    (hrun : (Queues.start m₀.prio).run heads elems ops = some (rs, q)) (fuel : Nat)
    (hf : ops.length ≤ fuel) :
    ∃ m, (m₀.initHeads heads).run diff fuel ops = some (rs.map (·.getD 0), m) ∧
      (∀ h ∈ heads, Path m.next h ((q.links.members h).map (· + diff)) h ∧
        Path m.prev h ((q.links.members h).map (· + diff)).reverse h ∧
        m.queueTop diff h = (q.top h).getD 0 ∧ (m.queueOut diff h).1 = (q.top h).getD 0) ∧
      q.links.Ordered q.prio ∧
      (∀ h e, q.top h = some e → ∀ b ∈ q.links.members h, b ≠ e →
        q.prio b < q.prio e ∨ q.prio b = q.prio e ∧ q.links.since e < q.links.since b) ∧
      (∀ e ∈ elems, q.links.link e = none → m.prev (e + diff) = 0 ∧ m.next (e + diff) = 0) ∧
      ∀ a, a ∉ heads → (∀ e, a = e + diff → q.links.link e = none) →
        m.prev a = m₀.prev a ∧ m.next a = m₀.next a := by
  have hstart := initHeads_holds m₀ heads elems diff
  obtain ⟨m, hm, hholds⟩ := run_holds fuel hstart hu (fun h => by simpa [Queues.start] using hf) hrun
  refine ⟨m, hm, ?_, hholds.ordered, ?_, ?_, hholds.frame⟩
  · intro h hh
    refine ⟨(hholds.ring h hh).forward, (hholds.ring h hh).backward, queueTop_eq hholds hu hh, ?_⟩
    cases htop : q.top h with
    | none => rw [queueOut_empty hholds hu hh htop]; rfl
    | some e =>
      obtain ⟨m', hout, -⟩ := queueOut_holds hholds hu hh htop
      rw [hout]
      rfl
  · exact fun h e htop b hb hne => hholds.ordered.last htop hb hne
  · exact fun e he hfree => hholds.zero hu he hfree

def threeElems : Heap Nat := ⟨fun _ => 0, fun _ => 0, fun e => if e = 0x2000 then 1 else 2⟩

def threeOps : List (Op Nat) :=
  [.queueAdd 0x3000 0x1000, .queueAdd 0x2000 0x1000, .queueAdd 0x4000 0x1000, .queueTop 0x1000,
    .queueOut 0x1000, .queueBottom 0x1000, .queueUpdate 0x2000 0x1000]

theorem queue_is_priority_list_three :
    ∃ rs q, (Queues.start threeElems.prio).run [0x1000] [0x2000, 0x3000, 0x4000] threeOps = some (rs, q) ∧
      rs = [none, none, none, some 0x3000, some 0x3000, some 0x2000, none] ∧
      ∃ m, (threeElems.initHeads [0x1000]).run 8 7 threeOps = some (rs.map (·.getD 0), m) := by
  have husable : Usable 8 [0x1000] [0x2000, 0x3000, 0x4000] threeElems :=
    ⟨by decide, by simp, by simp, fun _ _ => ⟨rfl, rfl⟩⟩
  have hrs : ((Queues.start threeElems.prio).run [0x1000] [0x2000, 0x3000, 0x4000] threeOps).map (·.1) =
      some [none, none, none, some 0x3000, some 0x3000, some 0x2000, none] := by
    decide +kernel
  obtain ⟨⟨rs, q⟩, hrun, heq⟩ := Option.map_eq_some_iff.mp hrs
  obtain ⟨m, hm, -⟩ := queue_is_priority_list threeElems 8 [0x1000] [0x2000, 0x3000, 0x4000] husable
    threeOps rs q hrun 7 (by decide)
  exact ⟨rs, q, hrun, heq, m, hm⟩

end Runs

end DominOS.PointerQueue
