import Ordust.Book
import Ordust.Lib.Index

/-!
# What the operations do to the orders in the slots

Read off the code alone, whatever has become of the links and the totals of the levels: a total
that wraps may strand an order, but no order changes other than by a fill, and the index stays
exact.
-/

namespace Ordust

variable {S : Type} [Slab S OrderNode]

/-! ## The slots of an arena -/

/-- The order in a slot. -/
def orderAt (arena : S) (k : NodeId) : Option Order := (Slab.get arena k).map OrderNode.order

theorem orderAt_of_get {arena : S} {k : NodeId} {node : OrderNode}
    (h : Slab.get arena k = some node) : orderAt arena k = some node.order := by
  rw [orderAt, h]
  rfl

theorem orderAt_modify_links (arena : S) (k : NodeId) (f : OrderNode → OrderNode)
    (hf : ∀ node, (f node).order = node.order) :
    orderAt (Slab.modify arena k f) = orderAt arena := by
  funext j
  rw [orderAt, orderAt, Slab.get_modify]
  split
  · next h =>
    subst h
    cases Slab.get arena j with
    | none => rfl
    | some node => exact congrArg some (hf node)
  · rfl

theorem orderAt_modify {arena : S} {k : NodeId} {node : OrderNode}
    (h : Slab.get arena k = some node) (f : OrderNode → OrderNode) :
    orderAt (Slab.modify arena k f) = Function.update (orderAt arena) k (some (f node).order) := by
  funext j
  rw [orderAt, Slab.get_modify]
  by_cases hj : j = k
  · rw [if_pos hj, h, hj, Function.update_self]
    rfl
  · rw [if_neg hj, Function.update_of_ne hj]
    rfl

theorem orderAt_insert (arena : S) (node : OrderNode) :
    orderAt (Slab.insert arena node).2 =
      Function.update (orderAt arena) (Slab.insert arena node).1 (some node.order) := by
  funext j
  rw [orderAt, Slab.get_insert]
  by_cases hj : j = (Slab.insert arena node).1
  · rw [if_pos hj, hj, Function.update_self]
    rfl
  · rw [if_neg hj, Function.update_of_ne hj]
    rfl

theorem orderAt_tryRemove {arena arena' : S} {k : NodeId} {node : OrderNode}
    (h : Slab.tryRemove arena k = some (node, arena')) :
    Slab.get arena k = some node ∧ orderAt arena' = Function.update (orderAt arena) k none := by
  cases hk : Slab.get arena k with
  | none =>
    rw [Slab.tryRemove_none arena k hk] at h
    simp at h
  | some node' =>
    obtain ⟨s', hs', hget, -⟩ := Slab.tryRemove_some arena k node' hk
    rw [hs'] at h
    obtain ⟨rfl, rfl⟩ := Prod.mk.inj (Option.some.inj h)
    refine ⟨rfl, ?_⟩
    funext j
    rw [orderAt, hget]
    by_cases hj : j = k
    · rw [if_pos hj, hj, Function.update_self]
      rfl
    · rw [if_neg hj, Function.update_of_ne hj]
      rfl

theorem orderAt_of_tryRemove_none {arena : S} {k : NodeId} (h : Slab.tryRemove arena k = none) :
    orderAt arena k = none := by
  cases hk : Slab.get arena k with
  | none =>
    rw [orderAt, hk]
    rfl
  | some node =>
    obtain ⟨s', hs', -⟩ := Slab.tryRemove_some arena k node hk
    rw [h] at hs'
    simp at hs'

namespace Level

variable {self self' : Level} {arena arena' : S} {pr : Profile} {o : Order} {k : NodeId}

theorem pushBack_slots (hrun : self.pushBack pr arena o = .ok (k, self', arena')) :
    orderAt arena k = none ∧ orderAt arena' = Function.update (orderAt arena) k (some o) := by
  obtain ⟨total, -, hrun⟩ := Checked.bind_eq_ok.mp hrun
  obtain ⟨-, -, hrun⟩ := Checked.bind_eq_ok.mp hrun
  have hins := orderAt_insert arena { order := o, prev := self.tail, next := none }
  have hvacant : orderAt arena
      (Slab.insert arena { order := o, prev := self.tail, next := none }).1 = none := by
    rw [orderAt, Slab.insert_vacant]
    rfl
  cases ht : self.tail with
  | none =>
    simp only [ht] at hrun hins hvacant
    obtain ⟨rfl, heq⟩ := Prod.mk.inj (Except.ok.inj hrun)
    obtain ⟨-, rfl⟩ := Prod.mk.inj heq
    exact ⟨hvacant, hins⟩
  | some oldTail =>
    simp only [ht] at hrun hins hvacant
    obtain ⟨rfl, heq⟩ := Prod.mk.inj (Except.ok.inj hrun)
    obtain ⟨-, rfl⟩ := Prod.mk.inj heq
    refine ⟨hvacant, ?_⟩
    rw [orderAt_modify_links]
    · exact hins
    · intro node
      rfl

theorem popFront_slots {res : Option Order} (hhead : self.head = some k)
    (hrun : self.popFront pr arena = .ok (res, self', arena')) :
    orderAt arena' = Function.update (orderAt arena) k none := by
  rcases popFront_ok hhead hrun with ⟨hrem, rfl⟩ | ⟨node, arena₁, hrem, hwrite⟩
  · rw [← orderAt_of_tryRemove_none hrem, Function.update_eq_self]
  · obtain ⟨-, hslots⟩ := orderAt_tryRemove hrem
    rw [← hslots]
    rcases hwrite with rfl | ⟨newHead, rfl⟩
    · rfl
    · rw [orderAt_modify_links]
      intro node
      rfl

theorem remove_slots {res : Option Order} (hrun : self.remove arena k = .ok (res, self', arena'))
    {node : OrderNode} (hk : Slab.get arena k = some node) :
    res = some node.order ∧ orderAt arena' = Function.update (orderAt arena) k none := by
  obtain ⟨arena₁, hrem, -⟩ := Slab.tryRemove_some arena k node hk
  obtain ⟨-, hslots⟩ := orderAt_tryRemove hrem
  rw [← hslots]
  obtain ⟨o, prev, next⟩ := node
  cases prev <;> cases next <;> simp only [remove, hrem] at hrun <;>
    obtain ⟨total, -, hrun⟩ := Checked.bind_eq_ok.mp hrun <;>
    obtain ⟨rfl, heq⟩ := Prod.mk.inj (Except.ok.inj hrun) <;>
    obtain ⟨-, rfl⟩ := Prod.mk.inj heq <;> refine ⟨rfl, ?_⟩
  · rfl
  · rw [orderAt_modify_links]
    intro node
    rfl
  · rw [orderAt_modify_links]
    intro node
    rfl
  · rw [orderAt_modify_links, orderAt_modify_links]
    · intro node
      rfl
    · intro node
      rfl

theorem consumeQty_slots {qty : Qty} {res : Option (OrderId × Qty × Bool)}
    (hrun : self.consumeQty pr qty arena = .ok (res, self', arena')) :
    (res = none ∧ arena' = arena) ∨
    ∃ k o fill left, orderAt arena k = some o ∧ fill.toNat + left.toNat = o.rem ∧
      fill.toNat ≤ qty.toNat ∧ res = some (o.id, ⟨fill⟩, decide (left = 0)) ∧
      orderAt arena' = Function.update (orderAt arena) k
        (if left = 0 then none else some (o.withRemaining left)) := by
  rcases consumeQty_ok hrun with h | ⟨k, node, fill, left, arena₁, hk, hfill, hsum, rfl, rfl, hleft⟩
  · exact Or.inl h
  · right
    have hslots := orderAt_modify hk (fun node => { node with
      order := { node.order with remainingQty := ⟨left⟩ } })
    refine ⟨k, node.order, fill, left, orderAt_of_get hk, hsum, by omega, rfl, ?_⟩
    rcases hleft with ⟨h0, rfl⟩ | ⟨rfl, level, popped, hhead, hpop⟩
    · rw [if_neg h0]
      exact hslots
    · rw [if_pos rfl, popFront_slots hhead hpop, hslots, Function.update_idem]

end Level

/-! ## The orders of a book -/

namespace OrderBook

omit [Slab S OrderNode] in
@[simp] theorem orderIndex_withLevel (b : OrderBook S) (s : Side) (p : Price) (l : Option Level) :
    (b.withLevel s p l).orderIndex = b.orderIndex := by
  cases s <;> cases l <;> rfl

def slots (b : OrderBook S) : NodeId → Option Order := orderAt b.arena

omit [Slab S OrderNode] in
def indexOf (b : OrderBook S) (id : OrderId) : Option NodeId := b.orderIndex.lookup id

/-- Every order in a slot is indexed under its identifier, and nothing else is. -/
def Indexed (b : OrderBook S) : Prop := Index.Exact Order.id b.slots b.indexOf

theorem getOrder_eq_find (b : OrderBook S) : b.getOrder = Index.find b.slots b.indexOf := by
  funext id
  unfold getOrder Index.find indexOf slots orderAt
  cases b.orderIndex.lookup id with
  | none => rfl
  | some k => cases hk : Slab.get b.arena k <;> simp [hk]

/-- The book `b'` has `v` under `id`, and otherwise what `b` has. -/
structure Sets (b : OrderBook S) (id : OrderId) (v : Option Order) (b' : OrderBook S) : Prop where
  indexed : b'.Indexed
  getOrder_eq : b'.getOrder = Function.update b.getOrder id v

variable {b b' : OrderBook S} {pr : Profile} {o : Order} {k : NodeId}

theorem indexed_new : (OrderBook.new : OrderBook S).Indexed where
  sound := by
    intro id k hk
    simp [indexOf, new] at hk
  complete := by
    intro k o hk
    simp [slots, orderAt, new] at hk

omit [Slab S OrderNode] in
theorem indexOf_insert {id : OrderId} (hindex : b'.orderIndex = b.orderIndex.insert id k) :
    b'.indexOf = Function.update b.indexOf id (some k) := by
  funext i
  unfold indexOf
  rw [hindex]
  by_cases hi : i = id
  · rw [hi, Finmap.lookup_insert, Function.update_self]
  · rw [Finmap.lookup_insert_of_ne _ hi, Function.update_of_ne hi]

omit [Slab S OrderNode] in
theorem indexOf_erase {id : OrderId} (hindex : b'.orderIndex = b.orderIndex.erase id) :
    b'.indexOf = Function.update b.indexOf id none := by
  funext i
  unfold indexOf
  rw [hindex]
  by_cases hi : i = id
  · rw [hi, Finmap.lookup_erase, Function.update_self]
  · rw [Finmap.lookup_erase_ne hi, Function.update_of_ne hi]

theorem Indexed.sets (h : b.Indexed) {v : Option Order} (hk : b.slots k = some o)
    (hv : ∀ x, v = some x → x.id = o.id) (hslots : b'.slots = Function.update b.slots k v)
    (hindex : b'.orderIndex = if v.isNone then b.orderIndex.erase o.id else b.orderIndex) :
    b.Sets o.id v b' := by
  unfold Indexed at h
  cases v with
  | none =>
    obtain ⟨hexact, hfind⟩ := h.remove hk
    rw [← hslots, ← indexOf_erase hindex] at hexact hfind
    exact ⟨hexact, by rw [getOrder_eq_find, getOrder_eq_find, hfind]⟩
  | some x =>
    have hsame : b'.indexOf = b.indexOf := by
      unfold indexOf
      rw [hindex]
      rfl
    obtain ⟨hexact, hfind⟩ := h.replace hk (hv x rfl)
    rw [← hslots, ← hsame] at hexact hfind
    exact ⟨hexact, by rw [getOrder_eq_find, getOrder_eq_find, hfind, hsame]⟩

theorem Indexed.sets_new (h : b.Indexed) (hk : b.slots k = none) (hnew : b.getOrder o.id = none)
    (hslots : b'.slots = Function.update b.slots k (some o))
    (hindex : b'.orderIndex = b.orderIndex.insert o.id k) : b.Sets o.id (some o) b' := by
  rw [getOrder_eq_find] at hnew
  obtain ⟨hexact, hfind⟩ := Index.Exact.add h hk hnew
  rw [← hslots, ← indexOf_insert hindex] at hexact hfind
  exact ⟨hexact, by rw [getOrder_eq_find, getOrder_eq_find, hfind]⟩

theorem insertResting_sets (h : b.Indexed) (hnew : b.getOrder o.id = none)
    (hrun : b.insertResting pr o = .ok b') : b.Sets o.id (some o) b' := by
  cases hp : o.price with
  | none =>
    rw [insertResting, hp] at hrun
    simp [Checked.expect] at hrun
  | some p =>
    rw [insertResting_eq pr b o p hp] at hrun
    obtain ⟨⟨k, l, arena⟩, hpush, heq⟩ := Checked.bind_eq_ok.mp hrun
    obtain ⟨hvacant, hslots⟩ := Level.pushBack_slots hpush
    have hb := Except.ok.inj heq
    apply h.sets_new hvacant hnew
    · rw [← hb]
      exact hslots
    · rw [← hb]

theorem removeOrder_sets {id : OrderId} {res : Option Order} (h : b.Indexed)
    (hrun : b.removeOrder id = .ok (res, b')) :
    (res = none ∧ b' = b) ∨ ((∃ o, res = some o) ∧ b.Sets id none b') := by
  cases hk : b.orderIndex.lookup id with
  | none =>
    simp only [removeOrder, hk] at hrun
    obtain ⟨rfl, rfl⟩ := Prod.mk.inj (Except.ok.inj hrun)
    exact Or.inl ⟨rfl, rfl⟩
  | some k =>
    obtain ⟨o, ho, rfl⟩ := h.sound id k hk
    obtain ⟨node, hnode, rfl⟩ := Option.map_eq_some_iff.mp ho
    cases hp : node.order.price with
    | none =>
      simp only [removeOrder, hk, hnode, hp] at hrun
      obtain ⟨rfl, rfl⟩ := Prod.mk.inj (Except.ok.inj hrun)
      exact Or.inl ⟨rfl, rfl⟩
    | some p =>
      cases hl : b.level node.order.side p with
      | none =>
        -- The level was dropped under the order. A bid is not found, and for an ask the code panics.
        cases hs : node.order.side with
        | buy =>
          rw [hs] at hl
          simp only [level] at hl
          simp only [removeOrder, hk, hnode, hp, hs, if_true, hl] at hrun
          obtain ⟨rfl, rfl⟩ := Prod.mk.inj (Except.ok.inj hrun)
          exact Or.inl ⟨rfl, rfl⟩
        | sell =>
          rw [hs] at hl
          simp only [level] at hl
          simp [removeOrder, hk, hnode, hp, hs, hl, Checked.unwrap] at hrun
      | some l =>
        rw [removeOrder_eq b _ k node p l hk hnode hp hl] at hrun
        obtain ⟨⟨removed, l', arena⟩, hrem, heq⟩ := Checked.bind_eq_ok.mp hrun
        obtain ⟨rfl, hslots⟩ := Level.remove_slots hrem hnode
        simp only [removeEntry, orderIndex_withLevel, hk] at heq
        obtain ⟨rfl, hb⟩ := Prod.mk.inj (Except.ok.inj heq)
        right
        refine ⟨⟨node.order, rfl⟩, h.sets (orderAt_of_get hnode) (by simp) ?_ ?_⟩
        · rw [← hb]
          exact hslots
        · rw [← hb]
          rfl

theorem matchAtBest_sets {s : Side} {qty : Qty} {res : Option FillResult} (h : b.Indexed)
    (hrun : b.matchAtBest pr s qty = .ok (res, b')) :
    (res = none ∧ b'.Indexed ∧ b'.getOrder = b.getOrder) ∨
    ∃ r o left, res = some r ∧ r.makerOrderId = o.id ∧ b.getOrder o.id = some o ∧
      r.filledQty.toNat + UInt64.toNat left = o.rem ∧ r.filledQty.toNat ≤ qty.toNat ∧
      b.Sets o.id (if left = 0 then none else some (o.withRemaining left)) b' := by
  cases hlevels : b.iterSide s with
  | nil =>
    rw [matchAtBest_nil pr b s qty hlevels] at hrun
    obtain ⟨rfl, rfl⟩ := Prod.mk.inj (Except.ok.inj hrun)
    exact Or.inl ⟨rfl, h, rfl⟩
  | cons e levels =>
    obtain ⟨p, l⟩ := e
    rw [matchAtBest_eq pr b s qty p l levels hlevels] at hrun
    obtain ⟨⟨consumed, l', arena⟩, hconsume, heq⟩ := Checked.bind_eq_ok.mp hrun
    rcases Level.consumeQty_slots hconsume with ⟨rfl, rfl⟩ |
      ⟨k, o, fill, left, hk, hsum, hle, rfl, hslots⟩
    · obtain ⟨rfl, hb⟩ := Prod.mk.inj (Except.ok.inj heq)
      have hsame : b'.slots = b.slots ∧ b'.indexOf = b.indexOf := by
        rw [← hb]
        refine ⟨rfl, ?_⟩
        unfold indexOf
        rw [orderIndex_withLevel]
      left
      unfold Indexed
      rw [getOrder_eq_find, getOrder_eq_find, hsame.1, hsame.2]
      exact ⟨rfl, h, rfl⟩
    · obtain ⟨rfl, hb⟩ := Prod.mk.inj (Except.ok.inj heq)
      right
      refine ⟨_, o, left, rfl, rfl, ?_, hsum, hle, h.sets hk ?_ ?_ ?_⟩
      · rw [getOrder_eq_find]
        exact h.find_of_slot hk
      · intro x hx
        split at hx
        · simp at hx
        · rw [← Option.some.inj hx]
          rfl
      · rw [← hb]
        exact hslots
      · rw [← hb]
        by_cases h0 : left = 0 <;> simp [h0]

end OrderBook

end Ordust
