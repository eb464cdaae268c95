import DominOS.MsgHeap

/-! What the calls of msg.c do to a heap that stores the contents of the queues. -/
namespace DominOS.MsgHeap
open Process Fallible

structure Contents where
  size : Nat
  data : List Int

structure Row (h : Heap) (p : Addr) (c : Contents) (nodes : List (Addr × Int)) : Prop where
  live : p ≠ 0
  block : ∃ b, h.blocks p = some b ∧ b.size = c.size ∧ b.count = c.data.length ∧
    Chain h.msgs b.head nodes ∧ ∀ x, nodes.getLast? = some x → b.tail = x.1
  data : nodes.map Prod.snd = c.data

/-- The heap stores the contents `mq`, in `nodes`. -/
structure Stored (h : Heap) (mq : Nat → Option Contents) (nodes : Nat → List (Addr × Int)) :
    Prop where
  unused : ∀ id, mq id = none → h.mqueues id = 0 ∧ nodes id = []
  used : ∀ id c, mq id = some c → Row h (h.mqueues id) c (nodes id)
  nodup : ∀ id, (addresses (nodes id)).Nodup
  apart : ∀ id j a, a ∈ addresses (nodes id) → a ∈ addresses (nodes j) → id = j
  table : ∀ id j, (mq id).isSome → h.mqueues id = h.mqueues j → id = j
  blocks : ∀ a, (h.blocks a).isSome → ∃ id, (mq id).isSome ∧ h.mqueues id = a

def Tight (h : Heap) (nodes : Nat → List (Addr × Int)) : Prop :=
  ∀ a, (h.msgs a).isSome → ∃ id, a ∈ addresses (nodes id)

section
variable {h h' : Heap} {p a : Addr} {c : Contents} {ns : List (Addr × Int)} {id : Nat} {d : Int}
  {mq : Nat → Option Contents} {nodes : Nat → List (Addr × Int)} {ds : List Int}

theorem Row.congr (r : Row h p c ns) (hb : h'.blocks p = h.blocks p)
    (hm : ∀ a ∈ addresses ns, h'.msgs a = h.msgs a) : Row h' p c ns := by
  obtain ⟨b, hbl, hs, hc, hch, ht⟩ := r.block
  exact ⟨r.live, ⟨b, hb.trans hbl, hs, hc, hch.congr hm, ht⟩, r.data⟩

theorem Row.length (r : Row h p c ns) : ns.length = c.data.length := by
  rw [← r.data, List.length_map]

theorem Row.count_eq_zero {b : Block} (r : Row h p c ns) (hb : h.blocks p = some b) :
    b.count = 0 ↔ ns = [] := by
  obtain ⟨b', hb', _, hc, _⟩ := r.block
  cases hb.symm.trans hb'
  rw [hc, ← r.length, List.length_eq_zero_iff]

theorem Stored.row_live (st : Stored h mq nodes) (ha : a ∈ addresses (nodes id)) :
    ∃ c, mq id = some c ∧ (h.msgs a).isSome := by
  cases hid : mq id with
  | none =>
    rw [(st.unused id hid).2] at ha
    cases ha
  | some c =>
    obtain ⟨b, _, _, _, hch, _⟩ := (st.used id c hid).block
    exact ⟨c, rfl, (hch.live ha).2⟩

theorem Stored.fresh_not_mem (st : Stored h mq nodes) (hf : h.Fresh a) (id : Nat) :
    a ∉ addresses (nodes id) := by
  intro hm
  obtain ⟨_, _, hlive⟩ := st.row_live hm
  rw [hf.2.1] at hlive
  cases hlive

theorem Stored.change {c' : Contents} {ns' : List (Addr × Int)} (st : Stored h mq nodes)
    (hid : mq id = some c) (ht : h'.mqueues = h.mqueues)
    (hb : ∀ q, q ≠ h.mqueues id → h'.blocks q = h.blocks q)
    (hm : ∀ j, j ≠ id → ∀ a ∈ addresses (nodes j), h'.msgs a = h.msgs a)
    (hrow : Row h' (h.mqueues id) c' ns') (hnd : (addresses ns').Nodup)
    (hapart : ∀ a ∈ addresses ns', a ∈ addresses (nodes id) ∨ ∀ j, a ∉ addresses (nodes j)) :
    Stored h' (Function.update mq id (some c')) (Function.update nodes id ns') := by
  have hused {j : Nat} (hj : (mq j).isSome) (hne : j ≠ id) : h.mqueues j ≠ h.mqueues id :=
    fun he => hne (st.table j id hj he)
  refine ⟨fun j hj => ?_, fun j e hj => ?_, fun j => ?_, fun i j a hi hj => ?_, fun i j hi he => ?_,
    fun q hq => ?_⟩
  · by_cases hne : j = id
    · subst hne
      rw [Function.update_self] at hj
      cases hj
    · rw [Function.update_of_ne hne] at hj ⊢
      rw [ht]
      exact st.unused j hj
  · rw [ht]
    by_cases hne : j = id
    · subst hne
      rw [Function.update_self] at hj ⊢
      cases hj
      exact hrow
    · rw [Function.update_of_ne hne] at hj ⊢
      exact (st.used j e hj).congr (hb _ (hused (by rw [hj]; rfl) hne)) (hm j hne)
  · by_cases hne : j = id
    · subst hne
      rw [Function.update_self]
      exact hnd
    · rw [Function.update_of_ne hne]
      exact st.nodup j
  · have own {j : Nat} (hne : j ≠ id) (hn : a ∈ addresses ns') : a ∉ addresses (nodes j) := by
      rcases hapart a hn with ho | ho
      · exact fun hj => hne (st.apart j id a hj ho)
      · exact ho j
    by_cases hii : i = id <;> by_cases hjj : j = id
    · rw [hii, hjj]
    · subst hii
      rw [Function.update_self] at hi
      rw [Function.update_of_ne hjj] at hj
      exact absurd hj (own hjj hi)
    · subst hjj
      rw [Function.update_self] at hj
      rw [Function.update_of_ne hii] at hi
      exact absurd hi (own hii hj)
    · rw [Function.update_of_ne hii] at hi
      rw [Function.update_of_ne hjj] at hj
      exact st.apart i j a hi hj
  · rw [ht] at he
    refine st.table i j ?_ he
    by_cases hii : i = id
    · rw [hii, hid]
      rfl
    · rwa [Function.update_of_ne hii] at hi
  · by_cases hq' : q = h.mqueues id
    · exact ⟨id, by simp, by rw [ht, hq']⟩
    · rw [hb q hq'] at hq
      obtain ⟨j, hj, he⟩ := st.blocks q hq
      refine ⟨j, ?_, by rw [ht, he]⟩
      by_cases hjj : j = id
      · simp [hjj]
      · rwa [Function.update_of_ne hjj]

theorem allocMqueue_spec {n : Nat} (st : Stored h mq nodes) (hf : h.Fresh a) (hid : mq id = none) :
    Stored (h.allocMqueue a id n) (Function.update mq id (some ⟨n, []⟩)) nodes := by
  have hne {j : Nat} (hj : (mq j).isSome) : j ≠ id := by
    rintro rfl
    rw [hid] at hj
    cases hj
  have hold {j : Nat} (hj : (mq j).isSome) : h.mqueues j ≠ a := by
    intro he
    obtain ⟨c, hc⟩ := Option.isSome_iff_exists.mp hj
    obtain ⟨b, hb, _⟩ := (st.used j c hc).block
    rw [he, hf.2.2] at hb
    cases hb
  have htable (j : Nat) (hj : j ≠ id) : (h.allocMqueue a id n).mqueues j = h.mqueues j :=
    Function.update_of_ne hj _ _
  have hself : (h.allocMqueue a id n).mqueues id = a := Function.update_self _ _ _
  have hblock : (h.allocMqueue a id n).blocks a = some ⟨0, 0, n, 0⟩ := Function.update_self _ _ _
  refine ⟨fun j hj => ?_, fun j c hj => ?_, st.nodup, st.apart, fun i j hi he => ?_, fun q hq => ?_⟩
  · by_cases hji : j = id
    · rw [hji, Function.update_self] at hj
      cases hj
    · rw [Function.update_of_ne hji] at hj
      rw [htable j hji]
      exact st.unused j hj
  · by_cases hji : j = id
    · subst hji
      rw [Function.update_self] at hj
      cases hj
      rw [hself, (st.unused j hid).2]
      exact ⟨hf.1, ⟨_, hblock, rfl, rfl, rfl, by simp⟩, rfl⟩
    · rw [Function.update_of_ne hji] at hj
      rw [htable j hji]
      refine (st.used j c hj).congr (Function.update_of_ne ?_ _ _) fun _ _ => rfl
      exact hold (by rw [hj]; rfl)
  · by_cases hii : i = id <;> by_cases hjj : j = id
    · rw [hii, hjj]
    · rw [hii, hself, htable j hjj] at he
      cases hmq : mq j with
      | none => exact absurd (he.trans (st.unused j hmq).1) hf.1
      | some c => exact absurd he.symm (hold (by rw [hmq]; rfl))
    · rw [Function.update_of_ne hii] at hi
      rw [hjj, hself, htable i hii] at he
      exact absurd he (hold hi)
    · rw [Function.update_of_ne hii] at hi
      rw [htable i hii, htable j hjj] at he
      exact st.table i j hi he
  · by_cases hq' : q = a
    · exact ⟨id, by simp, by rw [hself, hq']⟩
    · have hq : (h.blocks q).isSome := by
        rwa [show (h.allocMqueue a id n).blocks q = h.blocks q from Function.update_of_ne hq' _ _] at hq
      obtain ⟨j, hj, he⟩ := st.blocks q hq
      exact ⟨j, by rwa [Function.update_of_ne (hne hj)], by rw [htable j (hne hj), he]⟩

structure Added (h h' : Heap) (p a : Addr) (b : Block) (ns : List (Addr × Int)) (d : Int) : Prop where
  table : h'.mqueues = h.mqueues
  blocks : ∀ q, q ≠ p → h'.blocks q = h.blocks q
  msgs : ∀ x, x ∉ addresses ns → x ≠ a → h'.msgs x = h.msgs x
  block : ∃ head, h'.blocks p = some ⟨head, a, b.size, (b.count + 1) % 2 ^ 32⟩ ∧
    Chain h'.msgs head (ns ++ [(a, d)])
  live : ∀ x, (h'.msgs x).isSome → x = a ∨ (h.msgs x).isSome

theorem addMsg_first {b : Block} (hb : h.block (h.mqueues id) = .ok b) (h0 : b.count = 0)
    (ha : a ≠ 0) : ∃ h', h.addMsg a id d = .ok h' ∧ Added h h' (h.mqueues id) a b [] d := by
  unfold Heap.addMsg
  rw [hb, ok_bind]
  simp only [h0, if_true]
  refine ⟨_, rfl, rfl, fun q hq => Function.update_of_ne hq _ _, fun x _ hx => setMsg_of_ne hx,
    ⟨a, ?_, rfl, ha, ⟨0, d⟩, Function.update_self _ _ _, rfl, rfl⟩, fun x hx => ?_⟩
  · rw [h0]
    exact Function.update_self _ _ _
  · by_cases hxa : x = a
    · exact Or.inl hxa
    · have hx : ((h.setMsg a ⟨0, d⟩).msgs x).isSome := hx
      rw [setMsg_of_ne hxa] at hx
      exact Or.inr hx

theorem addMsg_behind {b : Block} {front : List (Addr × Int)} {t : Addr} {e : Int}
    (hb : h.block (h.mqueues id) = .ok b) (h0 : b.count ≠ 0)
    (hch : Chain h.msgs b.head (front ++ [(t, e)])) (ht : b.tail = t)
    (hnd : (addresses (front ++ [(t, e)])).Nodup) (ha : a ≠ 0)
    (hnew : a ∉ addresses (front ++ [(t, e)])) :
    ∃ h', h.addMsg a id d = .ok h' ∧ Added h h' (h.mqueues id) a b (front ++ [(t, e)]) d := by
  have htm : t ∈ addresses (front ++ [(t, e)]) := by simp
  have hlive := (hch.live htm).2
  obtain ⟨n, hn⟩ := Option.isSome_iff_exists.mp hlive
  have hta : t ≠ a := by
    rintro rfl
    exact hnew htm
  unfold Heap.addMsg
  rw [hb, ok_bind]
  simp only [h0, if_false, ht]
  rw [msg_ok ((setMsg_of_ne hta).trans hn), ok_bind]
  have hother (x : Addr) (hxt : x ≠ t) (hxa : x ≠ a) :
      ((h.setMsg a ⟨0, d⟩).setMsg t { n with next := a }).msgs x = h.msgs x :=
    (setMsg_of_ne hxt).trans (setMsg_of_ne hxa)
  refine ⟨_, rfl, rfl, fun q hq => Function.update_of_ne hq _ _, fun x hx hxa => ?_,
    ⟨b.head, Function.update_self _ _ _, ?_⟩, fun x hx => ?_⟩
  · refine hother x ?_ hxa
    rintro rfl
    exact hx htm
  · rw [List.append_assoc]
    exact hch.append hn hnd ha hnew
  · by_cases hxa : x = a
    · exact Or.inl hxa
    · refine Or.inr ?_
      by_cases hxt : x = t
      · rwa [hxt]
      · have hx : (((h.setMsg a ⟨0, d⟩).setMsg t { n with next := a }).msgs x).isSome := hx
        rwa [hother x hxt hxa] at hx

theorem Stored.added {b : Block} (st : Stored h mq nodes) (hf : h.Fresh a) (hid : mq id = some c)
    (hb : h.blocks (h.mqueues id) = some b) (hroom : c.data.length + 1 < 2 ^ 32)
    (e : Added h h' (h.mqueues id) a b (nodes id) d) :
    Stored h' (Function.update mq id (some ⟨c.size, c.data ++ [d]⟩))
      (Function.update nodes id (nodes id ++ [(a, d)])) := by
  have r := st.used id c hid
  obtain ⟨b', hb', hs, hc, _⟩ := r.block
  cases hb.symm.trans hb'
  obtain ⟨head, hblock, hch⟩ := e.block
  have hnew := st.fresh_not_mem hf
  refine st.change hid e.table e.blocks (fun j hj x hx => e.msgs x ?_ ?_)
    ⟨r.live, ⟨_, hblock, hs, ?_, hch, fun x hx => ?_⟩, ?_⟩ ?_ fun x hx => ?_
  · exact fun hx' => hj (st.apart j id x hx hx')
  · rintro rfl
    exact hnew j hx
  · rw [List.length_append, List.length_singleton, hc, Nat.mod_eq_of_lt hroom]
  · rw [List.getLast?_append] at hx
    cases hx
    rfl
  · rw [List.map_append, r.data]
    rfl
  · rw [addresses_append]
    refine List.nodup_append.mpr ⟨st.nodup id, by simp, fun x hx y hy he => hnew id ?_⟩
    obtain rfl := List.mem_singleton.mp hy
    exact he ▸ hx
  · rw [addresses_append] at hx
    rcases List.mem_append.mp hx with hx | hx
    · exact Or.inl hx
    · obtain rfl := List.mem_singleton.mp hx
      exact Or.inr hnew

theorem addMsg_spec (st : Stored h mq nodes) (hf : h.Fresh a) (hid : mq id = some c)
    (hroom : c.data.length + 1 < 2 ^ 32) : ∃ h', h.addMsg a id d = .ok h' ∧
      Stored h' (Function.update mq id (some ⟨c.size, c.data ++ [d]⟩))
        (Function.update nodes id (nodes id ++ [(a, d)])) ∧
      ∀ x, (h'.msgs x).isSome → x = a ∨ (h.msgs x).isSome := by
  have r := st.used id c hid
  obtain ⟨b, hb, _, _, hch, ht⟩ := r.block
  obtain ⟨h', hok, e⟩ : ∃ h', h.addMsg a id d = .ok h' ∧
      Added h h' (h.mqueues id) a b (nodes id) d := by
    rcases List.eq_nil_or_concat (nodes id) with hnil | ⟨front, ⟨t, e⟩, hsplit⟩
    · rw [hnil]
      exact addMsg_first (block_ok hb) ((r.count_eq_zero hb).mpr hnil) hf.1
    · rw [List.concat_eq_append] at hsplit
      have h0 : b.count ≠ 0 := fun h0 => by simp [(r.count_eq_zero hb).mp h0] at hsplit
      have hnd := st.nodup id
      have hnew := st.fresh_not_mem hf id
      rw [hsplit] at hch ht hnd hnew ⊢
      exact addMsg_behind (block_ok hb) h0 hch (ht (t, e) (by simp)) hnd hf.1 hnew
  exact ⟨h', hok, st.added hf hid hb hroom e, e.live⟩

theorem popMsg_spec (st : Stored h mq nodes) (hid : mq id = some ⟨n, d :: ds⟩)
    (hroom : ds.length < 2 ^ 32) : ∃ h', h.popMsg id = .ok h' ∧
      Stored h' (Function.update mq id (some ⟨n, ds⟩)) (Function.update nodes id (nodes id).tail) := by
  have r := st.used id _ hid
  obtain ⟨b, hb, hs, hc, hch, ht⟩ := r.block
  obtain ⟨a, rest, hsplit⟩ : ∃ a rest, nodes id = (a, d) :: rest := by
    have hdata := r.data
    cases hn : nodes id with
    | nil =>
      rw [hn] at hdata
      cases hdata
    | cons x rest =>
      rw [hn] at hdata
      obtain ⟨a, e⟩ := x
      cases hdata
      exact ⟨a, rest, rfl⟩
  rw [hsplit] at hch ht
  obtain ⟨hhead, h0, m, hm, -, hch⟩ := hch
  have hdata : rest.map Prod.snd = ds := by
    have := r.data
    rw [hsplit] at this
    exact (List.cons.inj this).2
  have hnd := st.nodup id
  rw [hsplit] at hnd
  unfold Heap.popMsg
  rw [block_ok hb, ok_bind, msg_ok (hhead ▸ hm), ok_bind, hsplit, List.tail_cons]
  refine ⟨_, rfl, st.change hid rfl (fun q hq => Function.update_of_ne hq _ _) (fun _ _ _ _ => rfl)
    ⟨r.live, ⟨_, Function.update_self _ _ _, hs, ?_, hch, fun x hx => ?_⟩, hdata⟩
    (List.nodup_cons.mp hnd).2 fun x hx => Or.inl ?_⟩
  · have hlen : b.count = ds.length + 1 := hc
    change (b.count + (2 ^ 32 - 1)) % 2 ^ 32 = ds.length
    omega
  · refine ht x ?_
    cases rest with
    | nil => cases hx
    | cons y rest => rwa [List.getLast?_cons_cons]
  · rw [hsplit]
    exact List.mem_cons_of_mem _ hx

/-- What the loop of `free_mqueue` leaves of the nodes: all but a single one are given back. -/
theorem freeNodes_spec {b : Block} (r : Row h p c ns) (hb : h.blocks p = some b)
    (hnd : (addresses ns).Nodup) (hroom : c.data.length < 2 ^ 32) :
    ∃ msgs, (if b.count = 0 then .ok h else do
        let first ← h.msg b.head
        h.freeNodes (2 ^ 32) b.head first.next : Except HeapFault Heap) = .ok { h with msgs := msgs } ∧
      (∀ x, x ∉ addresses ns → msgs x = h.msgs x) ∧
      ∀ x, (msgs x).isSome → (h.msgs x).isSome ∧ (c.data.length ≠ 1 → x ∉ addresses ns) := by
  by_cases h0 : b.count = 0
  · rw [if_pos h0]
    refine ⟨h.msgs, rfl, fun _ _ => rfl, fun x hx => ⟨hx, fun _ => ?_⟩⟩
    simp [(r.count_eq_zero hb).mp h0]
  · obtain ⟨b', hb', _, _, hch, _⟩ := r.block
    cases hb.symm.trans hb'
    have hne : ns ≠ [] := fun hnil => h0 ((r.count_eq_zero hb).mpr hnil)
    obtain ⟨n, hn⟩ : ∃ n, h.msgs b.head = some n := by
      cases ns with
      | nil => exact absurd rfl hne
      | cons x rest =>
        obtain ⟨hhead, _, n, hn, _⟩ := hch
        exact ⟨n, hhead ▸ hn⟩
    rw [if_neg h0, msg_ok hn, ok_bind,
      freeNodes_head hch hn hnd hne (by rw [r.length]; exact hroom.le)]
    refine ⟨_, rfl, fun x hx => if_neg fun h => hx h.1, fun x hx => ?_⟩
    rw [← r.length]
    split at hx
    · cases hx
    · rename_i hx'
      exact ⟨hx, fun h1 hm => hx' ⟨hm, h1⟩⟩

theorem Stored.remove {msgs : Addr → Option Node} (st : Stored h mq nodes) (hid : (mq id).isSome)
    (hkeep : ∀ x, x ∉ addresses (nodes id) → msgs x = h.msgs x) :
    Stored ⟨msgs, Function.update h.blocks (h.mqueues id) none, Function.update h.mqueues id 0⟩
      (Function.update mq id none) (Function.update nodes id []) := by
  have htable {j : Nat} (hj : j ≠ id) : Function.update h.mqueues id 0 j = h.mqueues j :=
    Function.update_of_ne hj _ _
  have hne {j : Nat} (hj : (Function.update mq id none j).isSome) : j ≠ id := by
    rintro rfl
    rw [Function.update_self] at hj
    cases hj
  have hold {j : Nat} {x : Addr} (hj : x ∈ addresses (Function.update nodes id [] j)) :
      x ∈ addresses (nodes j) := by
    by_cases hji : j = id
    · rw [hji, Function.update_self] at hj
      cases hj
    · rwa [Function.update_of_ne hji] at hj
  refine ⟨fun j hj => ?_, fun j e hj => ?_, fun j => ?_, fun i j x hi hj => ?_, fun i j hi he => ?_,
    fun q hq => ?_⟩
  · by_cases hji : j = id
    · subst hji
      exact ⟨Function.update_self _ _ _, Function.update_self _ _ _⟩
    · rw [Function.update_of_ne hji] at hj ⊢
      exact ⟨(htable hji).trans (st.unused j hj).1, (st.unused j hj).2⟩
  · have hji := hne (by rw [hj]; rfl)
    rw [Function.update_of_ne hji] at hj ⊢
    dsimp only
    rw [htable hji]
    refine (st.used j e hj).congr (Function.update_of_ne ?_ _ _) fun x hx => hkeep x ?_
    · exact fun he => hji (st.table j id (by rw [hj]; rfl) he)
    · exact fun hx' => hji (st.apart j id x hx hx')
  · by_cases hji : j = id
    · subst hji
      rw [Function.update_self]
      exact List.nodup_nil
    · rw [Function.update_of_ne hji]
      exact st.nodup j
  · exact st.apart i j x (hold hi) (hold hj)
  · have hii := hne hi
    rw [Function.update_of_ne hii] at hi
    dsimp only at he
    rw [htable hii] at he
    by_cases hjj : j = id
    · rw [hjj, Function.update_self] at he
      obtain ⟨e, hmq⟩ := Option.isSome_iff_exists.mp hi
      exact absurd he (st.used i e hmq).live
    · rw [htable hjj] at he
      exact st.table i j hi he
  · dsimp only at hq
    have hq' : q ≠ h.mqueues id := by
      rintro rfl
      rw [Function.update_self] at hq
      cases hq
    rw [Function.update_of_ne hq'] at hq
    obtain ⟨j, hj, he⟩ := st.blocks q hq
    have hji : j ≠ id := by
      rintro rfl
      exact hq' he.symm
    exact ⟨j, by rwa [Function.update_of_ne hji], (htable hji).trans he⟩

theorem freeMqueue_spec (st : Stored h mq nodes) (hid : mq id = some c)
    (hroom : c.data.length < 2 ^ 32) : ∃ h', h.freeMqueue id = .ok h' ∧
      Stored h' (Function.update mq id none) (Function.update nodes id []) ∧
      ∀ x, (h'.msgs x).isSome → (h.msgs x).isSome ∧
        (c.data.length ≠ 1 → x ∉ addresses (nodes id)) := by
  have r := st.used id c hid
  obtain ⟨b, hb, _⟩ := r.block
  obtain ⟨msgs, hloop, hkeep, hgone⟩ := freeNodes_spec r hb (st.nodup id) hroom
  unfold Heap.freeMqueue
  rw [block_ok hb, ok_bind, hloop, ok_bind]
  exact ⟨_, rfl, st.remove (by rw [hid]; rfl) hkeep, hgone⟩

end
end DominOS.MsgHeap
