import Ordust.Book

/-!
# The operations of the book, on its queues

Each operation replaces one queue (`BookRep.put`) and does to the resting orders what the
reference engine does.
-/

namespace Ordust

variable {S : Type} [Slab S OrderNode]

namespace BookRep

variable {b : OrderBook S} {q : Queues}

theorem new : BookRep (OrderBook.new : OrderBook S) (fun _ _ => []) where
  level := by
    intro s p
    cases s <;> rfl
  fits := by simp [Queue.orders]
  stored := fun _ _ => Stored.nil _
  rests := by simp
  apart := by simp [Queue.keys]
  full := by simp [OrderBook.new]
  index := by simp [OrderBook.new]

theorem lookup_eq_none (h : BookRep b q) (id : OrderId) :
    b.orderIndex.lookup id = none ↔ id ∉ b.resting.ids := by
  rw [RefBook.mem_ids, Option.eq_none_iff_forall_ne_some]
  constructor
  · rintro hn ⟨s, o, ho, hid⟩
    obtain ⟨p, k, hk⟩ := (h.mem_resting s o).mp ho
    exact hn k ((h.index id k).mpr ⟨s, p, o, hk, hid⟩)
  · intro hn k hk
    obtain ⟨s, p, o, ho, hid⟩ := (h.index id k).mp hk
    exact hn ⟨s, o, (h.mem_resting s o).mpr ⟨p, k, ho⟩, hid⟩

theorem getOrder_eq (h : BookRep b q) (id : OrderId) :
    (id ∉ b.resting.ids ∧ b.getOrder id = none) ∨
      (id ∈ b.resting.ids ∧ ∃ s o, b.getOrder id = some o ∧ o.id = id ∧ o ∈ b.resting s) := by
  cases hk : b.orderIndex.lookup id with
  | none => exact Or.inl ⟨(h.lookup_eq_none id).mp hk, by simp [OrderBook.getOrder, hk]⟩
  | some k =>
    obtain ⟨s, p, o, ho, hid⟩ := (h.index id k).mp hk
    obtain ⟨node, hn, rfl⟩ := (h.stored s p).order_at ho
    have hmem : node.order ∈ b.resting s := (h.mem_resting s _).mpr ⟨p, k, ho⟩
    refine Or.inr ⟨(RefBook.mem_ids _ _).mpr ⟨s, node.order, hmem, hid⟩, s, node.order, ?_, hid, hmem⟩
    simp [OrderBook.getOrder, hk, hn]

theorem getOrder_of_not_mem (h : BookRep b q) {id : OrderId} (hid : id ∉ b.resting.ids) :
    b.getOrder id = none := by
  rcases h.getOrder_eq id with ⟨-, hget⟩ | ⟨hmem, -⟩
  · exact hget
  · exact absurd hmem hid

/-! ## `insert_resting` -/

theorem levelOf_getD (p : Price) (x : Queue) :
    (levelOf p x).getD (Level.new p) = Level.of p x (UInt64.ofNat (qtySum x.orders)) := by
  rw [levelOf]
  split
  · next hx => subst hx; rfl
  · rfl

theorem replaced_push (h : BookRep b q) {s : Side} {p : Price} {k : NodeId} {o : Order} {arena : S}
    (ho : RestsAt s p o) (hid : b.orderIndex.lookup o.id = none) (hvac : Slab.get b.arena k = none)
    (hag : AgreeOff (k :: (q s p).keys) b.arena arena) (hst : Stored arena (q s p ++ [(k, o)])) :
    Linked.Replaced b q s p (q s p ++ [(k, o)]) arena (b.orderIndex.insert o.id k) where
  stored := hst
  rests := by
    intro j x hx
    rcases List.mem_append.mp hx with hx | hx
    · exact h.rests s p j x hx
    · simp only [List.mem_singleton, Prod.mk.injEq] at hx
      rw [hx.2]
      exact ho
  agree := hag.mono (by simp +contextual [Queue.keys])
  new := by
    intro j hj hjq
    obtain rfl : j = k := by
      rw [Queue.keys, List.map_append, List.mem_append] at hj
      rcases hj with hj | hj
      · exact absurd hj hjq
      · simpa using hj
    exact hvac
  gone := by
    intro j hj hjq
    exact absurd (by rw [Queue.keys, List.map_append]; exact List.mem_append_left _ hj) hjq
  index := by
    intro id j
    have hkq := (h.stored s p).not_mem_of_vacant hvac
    by_cases he : id = o.id
    · subst he
      rw [Finmap.lookup_insert]
      constructor
      · rintro ⟨rfl⟩
        exact Or.inl ⟨o, by simp, rfl⟩
      · rintro (⟨x, hx, hxid⟩ | ⟨hb, -⟩)
        · rcases List.mem_append.mp hx with hx | hx
          · rw [(h.index o.id j).mpr ⟨s, p, x, hx, hxid⟩] at hid
            simp at hid
          · simp only [List.mem_singleton, Prod.mk.injEq] at hx
            rw [hx.1]
        · rw [hb] at hid
          simp at hid
    · rw [Finmap.lookup_insert_of_ne _ he]
      constructor
      · intro hb
        rcases h.lookup_cases hb s p with ⟨x, hx, hxid⟩ | hj
        · exact Or.inl ⟨x, List.mem_append_left _ hx, hxid⟩
        · exact Or.inr ⟨hb, hj⟩
      · rintro (⟨x, hx, hxid⟩ | ⟨hb, -⟩)
        · rcases List.mem_append.mp hx with hx | hx
          · exact (h.index id j).mpr ⟨s, p, x, hx, hxid⟩
          · simp only [List.mem_singleton, Prod.mk.injEq] at hx
            rw [hx.2] at hxid
            exact absurd hxid.symm he
        · exact hb

theorem insertResting_run (h : BookRep b q) {p : Price} {o : Order} (ho : RestsAt o.side p o)
    (hid : o.id ∉ b.resting.ids) :
    ∃ (b' : OrderBook S) (q' : Queues),
      (∀ pr, b.insertResting pr o =
        (pr.add (UInt64.ofNat (qtySum (q o.side p).orders)) o.remainingQty.val >>= fun _ => .ok b')) ∧
      (qtySum (q o.side p).orders + o.rem < 2 ^ 64 → BookRep b' q') ∧
      b'.resting = Function.update b.resting o.side (RefBook.insertOrder o (b.resting o.side)) := by
  obtain ⟨k, arena, hvac, hag, hst, hpush⟩ :=
    Level.pushBack_spec p (q o.side p) b.arena o (h.stored o.side p)
  have hr := h.replaced_push ho ((h.lookup_eq_none o.id).mpr hid) hvac hag hst
  have hsum : qtySum (Queue.orders (q o.side p ++ [(k, o)])) = qtySum (q o.side p).orders + o.rem := by
    rw [Queue.orders_append, qtySum_append]
    rfl
  have hlev : levelOf p (q o.side p ++ [(k, o)]) = some (Level.of p (q o.side p ++ [(k, o)])
      (UInt64.ofNat (qtySum (q o.side p).orders) + o.remainingQty.val)) := by
    rw [levelOf, if_neg (by simp), hsum, UInt64.ofNat_add]
    congr 2
    exact congrArg _ UInt64.ofNat_toNat
  obtain ⟨before, after, hb, ha, hold, hnew⟩ := h.resting_put hr
  refine ⟨_, _, ?_, fun hfit => h.put hr (hsum ▸ hfit), ?_⟩
  · intro pr
    rw [OrderBook.insertResting_eq pr b o p ho.price, h.level, levelOf_getD,
      hpush pr _ (fun _ => ho.price), hlev, Profile.add_bind]
    cases pr.add (UInt64.ofNat (qtySum (q o.side p).orders)) o.remainingQty.val <;> rfl
  · rw [hnew, hold, RefBook.insertOrder_split o before _ after, Queue.orders_append]
    · rfl
    · intro y hy
      rw [ho.px]
      exact hb y hy
    · intro y hy
      rw [ho.px]
      exact h.px_of_mem hy
    · intro y hy
      rw [ho.px]
      exact ha y hy

theorem insertResting_spec (h : BookRep b q) {p : Price} {o : Order} (ho : RestsAt o.side p o)
    (hid : o.id ∉ b.resting.ids) :
    ∃ (b' : OrderBook S) (q' : Queues), b.insertResting .release o = .ok b' ∧
      b'.resting = Function.update b.resting o.side (RefBook.insertOrder o (b.resting o.side)) ∧
      ((qtySum (q o.side p).orders + o.rem < 2 ^ 64 ∧ (∀ pr, b.insertResting pr o = .ok b') ∧
        BookRep b' q') ∨
      (2 ^ 64 ≤ qtySum (q o.side p).orders + o.rem ∧
        b.insertResting .debug o = .error .addOverflow)) := by
  obtain ⟨b', q', hrun, hrep, hres⟩ := h.insertResting_run ho hid
  refine ⟨b', q', hrun .release, hres, ?_⟩
  have hadd : (UInt64.ofNat (qtySum (q o.side p).orders)).toNat + o.remainingQty.val.toNat =
      qtySum (q o.side p).orders + o.rem := by
    rw [h.toNat_sum]
    rfl
  by_cases hfit : qtySum (q o.side p).orders + o.rem < 2 ^ 64
  · left
    refine ⟨hfit, fun pr => ?_, hrep hfit⟩
    rw [hrun, Profile.add_ok pr _ _ (by rw [hadd]; exact hfit), Checked.ok_bind]
  · right
    refine ⟨by omega, ?_⟩
    rw [hrun, Profile.add_overflow _ _ (by rw [hadd]; omega), Checked.error_bind]

/-! ## `remove_order` -/

theorem replaced_remove (h : BookRep b q) {s : Side} {p : Price} {k : NodeId} {o : Order}
    (xs ys : Queue) {arena : S} (hq : q s p = xs ++ (k, o) :: ys)
    (hvac : Slab.get arena k = none) (hag : AgreeOff (q s p).keys b.arena arena)
    (hst : Stored arena (xs ++ ys)) :
    Linked.Replaced b q s p (xs ++ ys) arena (b.orderIndex.erase o.id) := by
  have hsub : ∀ e ∈ xs ++ ys, e ∈ q s p := by
    intro e he
    rw [hq]
    rcases List.mem_append.mp he with he | he
    · exact List.mem_append_left _ he
    · exact List.mem_append_right _ (List.mem_cons_of_mem _ he)
  have hko : (k, o) ∈ q s p := by
    rw [hq]
    simp
  have hk : b.orderIndex.lookup o.id = some k := (h.index o.id k).mpr ⟨s, p, o, hko, rfl⟩
  have hkx : k ∉ Queue.keys (xs ++ ys) := hst.not_mem_of_vacant hvac
  constructor
  case stored => exact hst
  case rests => exact fun j x hx => h.rests s p j x (hsub _ hx)
  case agree => exact hag.mono (fun j hj => List.mem_append_left _ hj)
  case new =>
    intro j hj hjq
    obtain ⟨x, hx⟩ := Queue.mem_keys.mp hj
    exact absurd (Queue.mem_keys.mpr ⟨x, hsub _ hx⟩) hjq
  case gone =>
    intro j hj hjx
    obtain ⟨x, hx⟩ := Queue.mem_keys.mp hj
    have : (j, x) = (k, o) := by
      rw [hq, List.mem_append, List.mem_cons] at hx
      rcases hx with hx | hx | hx
      · exact absurd (Queue.mem_keys.mpr ⟨x, List.mem_append_left _ hx⟩) hjx
      · exact hx
      · exact absurd (Queue.mem_keys.mpr ⟨x, List.mem_append_right _ hx⟩) hjx
    rw [(Prod.mk.inj this).1]
    exact hvac
  case index =>
    intro id j
    by_cases he : id = o.id
    · subst he
      rw [Finmap.lookup_erase]
      constructor
      · simp
      · rintro (⟨x, hx, hid⟩ | ⟨hj, hjq⟩)
        · obtain ⟨-, -, rfl, -⟩ := h.eq_of_id (hsub _ hx) hko hid
          exact absurd (Queue.mem_keys.mpr ⟨x, hx⟩) hkx
        · rw [hk] at hj
          rw [← Option.some.inj hj] at hjq
          exact absurd (Queue.mem_keys.mpr ⟨o, hko⟩) hjq
    · rw [Finmap.lookup_erase_ne he]
      constructor
      · intro hj
        rcases h.lookup_cases hj s p with ⟨x, hx, hid⟩ | hjq
        · rw [hq, List.mem_append, List.mem_cons] at hx
          rcases hx with hx | hx | hx
          · exact Or.inl ⟨x, List.mem_append_left _ hx, hid⟩
          · rw [(Prod.mk.inj hx).2] at hid
            exact absurd hid.symm he
          · exact Or.inl ⟨x, List.mem_append_right _ hx, hid⟩
        · exact Or.inr ⟨hj, hjq⟩
      · rintro (⟨x, hx, hid⟩ | ⟨hj, -⟩)
        · exact (h.index id j).mpr ⟨s, p, x, hsub _ hx, hid⟩
        · exact hj

theorem removeOrder_spec (h : BookRep b q) (hnd : b.resting.ids.Nodup) (id : OrderId) :
    (id ∉ b.resting.ids ∧ b.removeOrder id = .ok (none, b)) ∨
    (id ∈ b.resting.ids ∧ ∃ (o : Order) (b' : OrderBook S) (q' : Queues),
      b.removeOrder id = .ok (some o, b') ∧ o.id = id ∧ BookRep b' q' ∧
      b'.resting = fun s => (b.resting s).filter (fun x => x.id ≠ id)) := by
  cases hk : b.orderIndex.lookup id with
  | none =>
    left
    exact ⟨(h.lookup_eq_none id).mp hk, by simp [OrderBook.removeOrder, hk]⟩
  | some k =>
    right
    obtain ⟨s, p, o, ho, rfl⟩ := (h.index id k).mp hk
    have hrest := h.rests s p k o ho
    obtain ⟨xs, ys, hq⟩ := List.append_of_mem ho
    have hst := h.stored s p
    rw [hq] at hst
    have hlev : b.level s p =
        some (Level.of p (xs ++ (k, o) :: ys) (UInt64.ofNat (qtySum (q s p).orders))) := by
      rw [h.level, levelOf, hq, if_neg (by simp)]
    obtain ⟨arena, hvac, hag, hst', hrem⟩ := Level.remove_spec p xs ys k o b.arena hst
    have hsum := h.toNat_sum s p
    have hle : o.rem ≤ qtySum (q s p).orders := rem_le_qtySum (Queue.mem_orders.mpr ⟨k, ho⟩)
    have hr := h.replaced_remove xs ys hq hvac (by rw [hq]; exact hag) hst'
    have ht : (UInt64.ofNat (qtySum (q s p).orders) - o.remainingQty.val).toNat =
        qtySum (Queue.orders (xs ++ ys)) := by
      rw [UInt64.toNat_sub_of_le _ _ (by rw [UInt64.le_iff_toNat_le, hsum]; exact hle), hsum, hq]
      simp only [Queue.orders_append, Queue.orders_cons, qtySum_append, qtySum_cons, Order.rem, Qty.toNat]
      omega
    obtain ⟨before, after, -, -, hold, hnew⟩ := h.resting_put hr
    refine ⟨?_, o, _, _, ?_, rfl, h.put hr (ht ▸ UInt64.toNat_lt _), ?_⟩
    · exact (RefBook.mem_ids _ _).mpr ⟨s, o, (h.mem_resting s o).mpr ⟨p, k, ho⟩, rfl⟩
    · rw [OrderBook.removeOrder_eq b o.id k _ p _ hk hst.node hrest.price
          (by rw [hrest.side]; exact hlev), hrem,
        UInt64.checkedSub_eq_some _ _ (by rw [hsum]; exact hle)]
      simp only [Checked.expect_some, Checked.ok_bind, OrderBook.removeEntry]
      have hidx : ∀ s l, (b.withLevel s p l).orderIndex = b.orderIndex := by
        intro s l
        cases s <;> cases l <;> rfl
      rw [pruned_of p _ _ ht (fun j x hx => (hr.rests j x hx).pos), hidx, hk, hrest.side]
    · rw [hnew]
      funext s'
      by_cases hs : s' = s
      · subst hs
        rw [Function.update_self, hold, hq]
        have hsplit : before ++ Queue.orders (xs ++ (k, o) :: ys) ++ after =
            (before ++ Queue.orders xs) ++ o :: (Queue.orders ys ++ after) := by
          simp [Queue.orders_append, Queue.orders_cons]
        rw [hsplit, RefBook.filter_id_ne]
        · simp [Queue.orders_append]
        · rw [← hsplit, ← hq, ← hold]
          rw [RefBook.ids, List.map_append] at hnd
          cases s'
          · exact hnd.of_append_left
          · exact hnd.of_append_right
      · rw [Function.update_of_ne hs, eq_comm, List.filter_eq_self]
        intro x hx
        rw [decide_eq_true_eq]
        intro hid
        obtain ⟨p', k', hx⟩ := (h.mem_resting s' x).mp hx
        exact hs (h.eq_of_id hx ho hid).1

/-! ## `match_at_best` -/

theorem replaced_head (h : BookRep b q) {s : Side} {p : Price} {k : NodeId} {o : Order} {ys : Queue}
    {n : UInt64} {arena : S} (hq : q s p = (k, o) :: ys) (hn : 0 < n.toNat) (hno : n.toNat ≤ o.rem)
    (hag : AgreeOff (q s p).keys b.arena arena) (hst : Stored arena ((k, o.withRemaining n) :: ys)) :
    Linked.Replaced b q s p ((k, o.withRemaining n) :: ys) arena b.orderIndex := by
  have hkeys : Queue.keys ((k, o.withRemaining n) :: ys) = (q s p).keys := by
    rw [hq]
    rfl
  have hko : (k, o) ∈ q s p := by
    rw [hq]
    simp
  constructor
  case stored => exact hst
  case rests =>
    intro j x hx
    rcases List.mem_cons.mp hx with hx | hx
    · obtain ⟨rfl, rfl⟩ := Prod.mk.inj hx
      exact (h.rests s p _ _ hko).withRemaining n hn
    · exact h.rests s p j x (by rw [hq]; exact List.mem_cons_of_mem _ hx)
  case agree => exact hag.mono (fun j hj => List.mem_append_left _ hj)
  case new =>
    intro j hj hjq
    rw [hkeys] at hj
    exact absurd hj hjq
  case gone =>
    intro j hj hjx
    rw [hkeys] at hjx
    exact absurd hj hjx
  case index =>
    intro id j
    constructor
    · intro hj
      rcases h.lookup_cases hj s p with ⟨x, hx, hid⟩ | hjq
      · rw [hq, List.mem_cons] at hx
        rcases hx with hx | hx
        · obtain ⟨rfl, rfl⟩ := Prod.mk.inj hx
          exact Or.inl ⟨_, List.mem_cons_self, hid⟩
        · exact Or.inl ⟨x, List.mem_cons_of_mem _ hx, hid⟩
      · exact Or.inr ⟨hj, hjq⟩
    · rintro (⟨x, hx, hid⟩ | ⟨hj, -⟩)
      · rcases List.mem_cons.mp hx with hx | hx
        · obtain ⟨rfl, rfl⟩ := Prod.mk.inj hx
          exact (h.index id j).mpr ⟨s, p, o, hko, hid⟩
        · exact (h.index id j).mpr ⟨s, p, x, by rw [hq]; exact List.mem_cons_of_mem _ hx, hid⟩
      · exact hj

theorem exists_front (h : BookRep b q) {s : Side} {m : Order} {ms : List Order}
    (hm : b.resting s = m :: ms) : ∃ (p : Price) (k : NodeId) (ys : Queue) (rest : List (Price × Level)),
      q s p = (k, m) :: ys ∧
      b.iterSide s = (p, Level.of p (q s p) (UInt64.ofNat (qtySum (q s p).orders))) :: rest := by
  obtain ⟨p, l, rest, hit⟩ : ∃ p l rest, b.iterSide s = (p, l) :: rest := by
    cases hit : b.iterSide s with
    | nil => rw [h.resting_eq, hit] at hm; simp at hm
    | cons e rest => exact ⟨e.1, e.2, rest, rfl⟩
  obtain ⟨hne, rfl⟩ := h.level_of_mem (by rw [hit]; exact List.mem_cons_self)
  obtain ⟨⟨k, o⟩, ys, hq⟩ := List.exists_cons_of_ne_nil hne
  obtain rfl : o = m := by
    rw [h.resting_eq, hit, List.flatMap_cons, hq, Queue.orders_cons, List.cons_append] at hm
    exact (List.cons.inj hm).1
  exact ⟨p, k, ys, rest, hq, hit⟩

theorem resting_put_front (h : BookRep b q) {s : Side} {p : Price} {k : NodeId} {m : Order}
    {ms : List Order} {ys x : Queue} {arena : S} {index : Finmap (fun _ : OrderId => NodeId)}
    (hm : b.resting s = m :: ms) (hq : q s p = (k, m) :: ys)
    (hr : Linked.Replaced b q s p x arena index) :
    ∃ after, ms = ys.orders ++ after ∧
      OrderBook.resting { b.withLevel s p (levelOf p x) with arena := arena, orderIndex := index } =
        Function.update b.resting s (x.orders ++ after) := by
  obtain ⟨before, after, hb, -, hold, hnew⟩ := h.resting_put hr
  rw [hm, hq, Queue.orders_cons] at hold
  cases before with
  | nil => exact ⟨after, (List.cons.inj hold).2, hnew⟩
  | cons y before =>
    have hy := hb y List.mem_cons_self
    have hpx : m.px = p := h.px_of_mem (by rw [hq]; exact List.mem_cons_self)
    rw [← (List.cons.inj hold).1, hpx] at hy
    exact absurd hy (s.better_irrefl p)

theorem matchAtBest_spec (h : BookRep b q) {s : Side} (qty : Qty) {m : Order} {ms : List Order}
    (hm : b.resting s = m :: ms) (hpos : 0 < qty.toNat) :
    ∃ (b' : OrderBook S) (q' : Queues), BookRep b' q' ∧
      ((m.rem ≤ qty.toNat ∧
        (∀ pr, b.matchAtBest pr s qty = .ok (some ⟨m.id, m.px, m.remainingQty, true⟩, b')) ∧
        b'.resting = Function.update b.resting s ms) ∨
      (qty.toNat < m.rem ∧
        (∀ pr, b.matchAtBest pr s qty = .ok (some ⟨m.id, m.px, qty, false⟩, b')) ∧
        b'.resting = Function.update b.resting s
          (m.withRemaining (m.remainingQty.val - qty.val) :: ms))) := by
  obtain ⟨p, k, ys, rest, hq, hit⟩ := h.exists_front hm
  have hko : (k, m) ∈ q s p := by
    rw [hq]
    exact List.mem_cons_self
  have hrest := h.rests s p k m hko
  have hst := h.stored s p
  rw [hq] at hst
  have hsum := h.toNat_sum s p
  have hle : m.rem ≤ qtySum (q s p).orders := rem_le_qtySum (Queue.mem_orders.mpr ⟨k, hko⟩)
  obtain ⟨arena, hag, hcase⟩ := Level.consumeQty_spec p ys k m qty b.arena hst
  have hag : AgreeOff (q s p).keys b.arena arena := by
    rw [hq]
    exact hag
  rw [← hq] at hcase
  rcases hcase with ⟨hcov, hvac, hst', hrun⟩ | ⟨hlt, hst', hrun⟩
  · have hr := h.replaced_remove [] ys hq hvac hag hst'
    obtain ⟨after, rfl, hnew⟩ := h.resting_put_front hm hq hr
    have ht : (UInt64.ofNat (qtySum (q s p).orders) - m.remainingQty.val).toNat = qtySum (Queue.orders ys) := by
      rw [UInt64.toNat_sub_of_le _ _ (by rw [UInt64.le_iff_toNat_le, hsum]; exact hle), hsum, hq]
      simp only [Queue.orders_cons, qtySum_cons, Order.rem, Qty.toNat]
      omega
    refine ⟨_, _, h.put hr (ht ▸ UInt64.toNat_lt _), Or.inl ⟨hcov, ?_, ?_⟩⟩
    · intro pr
      rw [OrderBook.matchAtBest_eq pr b s qty p _ rest hit, hrun,
        Profile.sub_ok pr _ _ (by rw [hsum]; exact hle)]
      simp only [Checked.ok_bind, if_true, hrest.px]
      rw [pruned_of p ys _ ht (fun j x hx => (hr.rests j x hx).pos)]
      rfl
    · rw [hnew, List.nil_append]
  · have hn := Order.rem_sub m qty (Nat.le_of_lt hlt)
    have hlt' : qty.toNat < m.rem := hlt
    have hr := h.replaced_head (n := m.remainingQty.val - qty.val) hq
      (by rw [← Order.rem_withRemaining m, hn]; omega)
      (by rw [← Order.rem_withRemaining m, hn]; omega) hag hst'
    obtain ⟨after, rfl, hnew⟩ := h.resting_put_front hm hq hr
    have hqle : qty.toNat ≤ qtySum (q s p).orders := by omega
    have ht : (UInt64.ofNat (qtySum (q s p).orders) - qty.val).toNat =
        qtySum (Queue.orders ((k, m.withRemaining (m.remainingQty.val - qty.val)) :: ys)) := by
      rw [UInt64.toNat_sub_of_le _ _ (by rw [UInt64.le_iff_toNat_le, hsum]; exact hqle), hsum, hq]
      simp only [Queue.orders_cons, qtySum_cons, hn, Qty.toNat]
      simp only [Qty.toNat] at hlt'
      omega
    refine ⟨_, _, h.put hr (ht ▸ UInt64.toNat_lt _), Or.inr ⟨hlt, ?_, ?_⟩⟩
    · intro pr
      rw [OrderBook.matchAtBest_eq pr b s qty p _ rest hit, hrun,
        Profile.sub_ok pr _ _ (by rw [hsum]; exact hqle)]
      simp only [Checked.ok_bind, hrest.px, Bool.false_eq_true, if_false]
      rw [pruned_of p _ _ ht (fun j x hx => (hr.rests j x hx).pos)]
    · rw [hnew, Queue.orders_cons, List.cons_append]

end BookRep

end Ordust
