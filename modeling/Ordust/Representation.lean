import Ordust.Reach

/-!
# The representation invariant

What the slab, the two price maps and the index are like in every reachable state, said of slots
and pointers alone.
-/

namespace Ordust

variable {S : Type} [Slab S OrderNode]

/-- The slots met along `next` from `head` are `slots`: distinct, occupied, ending at `tail`, and
`prev` leads back. -/
structure Level.Chain (arena : S) (l : Level) (slots : List NodeId) : Prop where
  nodup : slots.Nodup
  head : l.head = slots.head?
  tail : l.tail = slots.getLast?
  linked : ∀ i k, slots[i]? = some k → ∃ node, Slab.get arena k = some node ∧
    node.next = slots[i + 1]? ∧ node.prev = if i = 0 then none else slots[i - 1]?

/-- The orders in some slots. -/
def ordersAt (arena : S) (slots : List NodeId) : List Order :=
  slots.filterMap (fun k => (Slab.get arena k).map OrderNode.order)

structure OrderBook.RepInv (b : OrderBook S) (slots : Side → Price → List NodeId) : Prop where
  chain : ∀ s p l, (p, l) ∈ b.iterSide s → l.Chain b.arena (slots s p)
  price : ∀ s p l, (p, l) ∈ b.iterSide s → l.price = p
  orders : ∀ s p l, (p, l) ∈ b.iterSide s → ∀ o ∈ ordersAt b.arena (slots s p),
    o.price = some p ∧ o.side = s ∧ o.orderType = .limit ∧ o.tif = .gtc ∧ 0 < o.remainingQty.toNat
  total : ∀ s p l, (p, l) ∈ b.iterSide s →
    l.totalQty.toNat = ((ordersAt b.arena (slots s p)).map (fun o => o.remainingQty.toNat)).sum
  nonempty : ∀ s p l, (p, l) ∈ b.iterSide s → slots s p ≠ []
  empty_iff : ∀ s p l, (p, l) ∈ b.iterSide s → (l.isEmpty = true ↔ l.head = none)
  /-- Each price is one key of its map. -/
  keys : ∀ s, ((b.iterSide s).map Prod.fst).Nodup
  /-- Each occupied slot is on one level of one side. -/
  owned : ∀ k, Slab.get b.arena k ≠ none →
    ∃! sp : Side × Price, (∃ l, (sp.2, l) ∈ b.iterSide sp.1) ∧ k ∈ slots sp.1 sp.2
  index : ∀ id k, b.orderIndex.lookup id = some k ↔
    ∃ node, Slab.get b.arena k = some node ∧ node.order.id = id
  distinct : ∀ k k' node node', Slab.get b.arena k = some node → Slab.get b.arena k' = some node' →
    node.order.id = node'.order.id → k = k'

/-! ## From queues to slots and pointers -/

theorem firstKey_eq_head? (q : Queue) : firstKey q none = q.keys.head? := by
  cases q <;> rfl

theorem lastKey_eq_getLast? (q : Queue) : lastKey q none = q.keys.getLast? := by
  simp [lastKey, Queue.keys]

theorem Stored.chain {arena : S} {q : Queue} (h : Stored arena q) (p : Price) (t : UInt64) :
    (Level.of p q t).Chain arena q.keys where
  nodup := h.nodup
  head := firstKey_eq_head? q
  tail := lastKey_eq_getLast? q
  linked := by
    intro i k hk
    -- The queue, cut at the slot.
    rw [Queue.keys, List.getElem?_map, Option.map_eq_some_iff] at hk
    obtain ⟨⟨k', o⟩, hi, rfl⟩ := hk
    obtain ⟨hlt, he⟩ := List.getElem?_eq_some_iff.mp hi
    have hq : q = q.take i ++ (k', o) :: q.drop (i + 1) := by
      rw [← he, List.getElem_cons_drop, List.take_append_drop]
    have hst := h
    rw [hq] at hst
    refine ⟨_, hst.node, ?_, ?_⟩
    · rw [firstKey_eq_head?, Queue.keys, List.map_drop, List.head?_drop]
      rfl
    · show lastKey (q.take i) none = _
      rw [lastKey_eq_getLast?, Queue.keys, List.map_take]
      by_cases h0 : i = 0
      · simp [h0]
      · rw [if_neg h0, List.getLast?_take, if_neg h0]
        have : i - 1 < (List.map Prod.fst q).length := by
          rw [List.length_map]
          omega
        rw [Queue.keys, List.getElem?_eq_getElem this, Option.some_or]

theorem Stored.ordersAt {arena : S} {q : Queue} (h : Stored arena q) :
    ordersAt arena q.keys = q.orders := by
  have hget : ∀ e ∈ q, (Slab.get arena e.1).map OrderNode.order = some e.2 := by
    rintro ⟨k, o⟩ he
    obtain ⟨node, hn, ho⟩ := h.order_at he
    rw [hn, ← ho]
    rfl
  rw [Ordust.ordersAt, Queue.keys, Queue.orders, List.filterMap_map, ← List.filterMap_eq_map]
  apply List.filterMap_congr
  intro e he
  exact hget e he

namespace BookRep

variable {b : OrderBook S} {q : Queues}

theorem lookup_eq_some (h : BookRep b q) (id : OrderId) (k : NodeId) :
    b.orderIndex.lookup id = some k ↔ ∃ node, Slab.get b.arena k = some node ∧ node.order.id = id := by
  rw [h.index]
  constructor
  · rintro ⟨s, p, o, ho, hid⟩
    obtain ⟨node, hn, rfl⟩ := (h.stored s p).order_at ho
    exact ⟨node, hn, hid⟩
  · rintro ⟨node, hn, hid⟩
    obtain ⟨s, p, hkq⟩ := h.full k (by rw [hn]; simp)
    obtain ⟨o, ho⟩ := Queue.mem_keys.mp hkq
    obtain ⟨node', hn', rfl⟩ := (h.stored s p).order_at ho
    rw [hn] at hn'
    obtain rfl := Option.some.inj hn'
    exact ⟨s, p, node.order, ho, hid⟩

theorem repInv (h : BookRep b q) : b.RepInv (fun s p => (q s p).keys) where
  chain := by
    intro s p l hl
    rw [(h.level_of_mem hl).2]
    exact (h.stored s p).chain p _
  price := by
    intro s p l hl
    rw [(h.level_of_mem hl).2]
    rfl
  orders := by
    intro s p l hl o ho
    rw [(h.stored s p).ordersAt] at ho
    obtain ⟨k, hk⟩ := Queue.mem_orders.mp ho
    have hr := h.rests s p k o hk
    exact ⟨hr.price, hr.side, hr.limit, hr.gtc, hr.pos⟩
  total := by
    intro s p l hl
    rw [(h.level_of_mem hl).2, (h.stored s p).ordersAt]
    exact h.toNat_sum s p
  nonempty := by
    intro s p l hl hnil
    exact (h.level_of_mem hl).1 (List.map_eq_nil_iff.mp hnil)
  empty_iff := by
    intro s p l hl
    obtain ⟨hne, rfl⟩ := h.level_of_mem hl
    have hpruned := pruned_of p (q s p) _ (h.toNat_sum s p) (fun k o hk => (h.rests s p k o hk).pos)
    rw [levelOf, if_neg hne] at hpruned
    constructor
    · intro he
      rw [OrderBook.pruned, if_pos he] at hpruned
      simp at hpruned
    · intro hh
      obtain ⟨e, ys, hq⟩ := List.exists_cons_of_ne_nil hne
      rw [hq] at hh
      simp [Level.of] at hh
  keys := by
    intro s
    rw [List.Nodup, List.pairwise_map]
    apply (b.iterSide_sorted s).imp
    intro e f hef he
    exact s.better_irrefl e.1 (he ▸ hef)
  owned := by
    intro k hk
    obtain ⟨s, p, hkq⟩ := h.full k hk
    refine ⟨(s, p), ⟨h.exists_level ?_, hkq⟩, ?_⟩
    · intro hnil
      rw [hnil] at hkq
      simp [Queue.keys] at hkq
    · rintro ⟨s', p'⟩ ⟨-, hk'⟩
      obtain ⟨rfl, rfl⟩ := h.apart s p s' p' k hkq hk'
      rfl
  index := h.lookup_eq_some
  distinct := by
    intro k k' node node' hn hn' hid
    have h₁ := (h.lookup_eq_some node.order.id k).mpr ⟨node, hn, rfl⟩
    have h₂ := (h.lookup_eq_some node.order.id k').mpr ⟨node', hn', hid.symm⟩
    rw [h₁] at h₂
    exact Option.some.inj h₂

end BookRep

/-- The representation invariant holds after every run without overflow. -/
theorem run_repInv (calls : List Call) (h : NoAddOverflow S calls) :
    ∃ (rs : List Response) (e : Engine S), (∀ pr, Engine.new.run pr calls = .ok (rs, e)) ∧
      ∃ slots, e.book.RepInv slots := by
  obtain ⟨e, q, hrun, hrep, -⟩ := reach h
  exact ⟨_, e, hrun, _, hrep.repInv⟩

theorem run_repInv_cancelMiddleOrder :
    ∃ (rs : List Response) (e : Engine (FreeListSlab OrderNode)),
      (∀ pr, Engine.new.run pr cancelMiddleOrder = .ok (rs, e)) ∧ ∃ slots, e.book.RepInv slots :=
  run_repInv cancelMiddleOrder cancelMiddleOrder_noAddOverflow

end Ordust
