import Ordust.OrderKinds

/-!
# What the best level announces

`best_level` and `front` name the order that the next submission on the other side trades with first.
Matching and cancelling drop the levels that they empty, so that `prune_empty` finds nothing to do.
-/

open OrderDual

namespace Ordust

open RefBook

variable {S : Type} [Slab S OrderNode]

/-- The trade that `best_level` and `front` lead to expect of a submission. -/
def OrderBook.announced (self : OrderBook S) (order : Order) : Option Trade := do
  let level ← self.bestLevel (oppositeSide order.side)
  let maker ← level.front self.arena
  if order.crossesAt level.price then
    some
      { makerOrderId := maker.id, takerOrderId := order.id, price := level.price,
        qty := ⟨min order.remainingQty.val maker.remainingQty.val⟩, timestamp := order.timestamp }
  else none

namespace BookRep

variable {b : OrderBook S} {q : Queues}

theorem not_isEmpty (h : BookRep b q) {s : Side} {p : Price} {l : Level} (hl : b.level s p = some l) :
    l.isEmpty = false := by
  obtain ⟨hne, rfl⟩ := h.level_some hl
  have hpruned := pruned_of p (q s p) _ (h.toNat_sum s p) (fun k o hk => (h.rests s p k o hk).pos)
  rw [levelOf, if_neg hne, OrderBook.pruned] at hpruned
  rw [← Bool.not_eq_true]
  intro he
  rw [if_pos he] at hpruned
  simp at hpruned

theorem pruneEmpty_eq (h : BookRep b q) (s : Side) (p : Price) : b.pruneEmpty s p = b := by
  cases s with
  | buy =>
    unfold OrderBook.pruneEmpty
    cases hl : b.bids.get? (toDual p) with
    | none => rfl
    | some l => simp [h.not_isEmpty (s := .buy) hl]
  | sell =>
    unfold OrderBook.pruneEmpty
    cases hl : b.asks.get? p with
    | none => rfl
    | some l => simp [h.not_isEmpty (s := .sell) hl]

theorem bestLevel_eq (h : BookRep b q) (s : Side) :
    match b.resting s with
    | [] => b.bestLevel s = none
    | m :: _ => ∃ l, b.bestLevel s = some l ∧ l.front b.arena = some m ∧ l.price = m.px := by
  have hbest : b.bestLevel s = (b.iterSide s).head?.map Prod.snd := by
    cases s
    · simp [OrderBook.bestLevel, OrderBook.iterSide, SortedMap.first?, Function.comp_def]
    · rfl
  rw [h.resting_eq, hbest]
  cases hit : b.iterSide s with
  | nil => rfl
  | cons e rest =>
    obtain ⟨p, l⟩ := e
    obtain ⟨hne, rfl⟩ := h.level_of_mem (s := s) (by rw [hit]; exact List.mem_cons_self)
    obtain ⟨⟨k, o⟩, ys, hq⟩ := List.exists_cons_of_ne_nil hne
    have hp : o.px = p := h.px_of_mem (s := s) (by rw [hq, Queue.orders_cons]; exact List.mem_cons_self)
    have hst := h.stored s p
    rw [hq] at hst
    have hnode := Stored.node (q := []) hst
    rw [List.flatMap_cons, hq, Queue.orders_cons]
    refine ⟨_, rfl, ?_, hp.symm⟩
    simp [Level.front, Level.of, hnode]

end BookRep

theorem RefBook.matchOrders_head (taker : Order) (makers : List Order) (hpos : 0 < taker.rem) :
    (matchOrders taker makers).1.head? = makers.head?.bind (fun m =>
      if taker.crossesAt m.px then
        some (tradeOf taker m ⟨min taker.remainingQty.val m.remainingQty.val⟩)
      else none) := by
  cases makers with
  | nil => rfl
  | cons m ms =>
    by_cases hc : headCrosses taker (m :: ms) = true
    · have hcm : taker.crossesAt m.px = true := hc
      rcases Nat.lt_or_ge taker.rem m.rem with hlt | hle
      · have hmin : min taker.remainingQty.val m.remainingQty.val = taker.remainingQty.val :=
          UInt64.toNat_inj.mp ((UInt64.toNat_min _ _).trans (Nat.min_eq_left (Nat.le_of_lt hlt)))
        rw [matchOrders_inside taker m ms hpos hc hlt]
        simp [hcm, hmin]
      · have hmin : min taker.remainingQty.val m.remainingQty.val = m.remainingQty.val :=
          UInt64.toNat_inj.mp ((UInt64.toNat_min _ _).trans (Nat.min_eq_right hle))
        rw [matchOrders_exhaust taker m ms hpos hc hle]
        simp [hcm, hmin]
    · have hcm : ¬ taker.crossesAt m.px = true := hc
      rw [Bool.not_eq_true] at hc
      rw [matchOrders_stop taker _ (Or.inr hc)]
      simp [hcm]

/-- On every reachable book, the first trade of a submission that is accepted is the one that the best
level announces, and there is no level left for `prune_empty` to drop. -/
theorem next_maker_announced (calls : List Call) (h : NoAddOverflow S calls) :
    ∃ (rs : List Response) (e : Engine S), (∀ pr, Engine.new.run pr calls = .ok (rs, e)) ∧
      (∀ s p, e.book.pruneEmpty s p = e.book) ∧
      ∀ pr o evs e', e.submitOrder pr o = .ok (.ok evs, e') →
        (tradesOf evs).head? = e.book.announced o := by
  obtain ⟨e, q, hrun, hrep, -, hok⟩ := reach h
  refine ⟨_, e, hrun, hrep.pruneEmpty_eq, ?_⟩
  intro pr o evs e' hsub
  have he := Engine.submitOrder_effect hrep hok hsub
  obtain ⟨ts, n, ending, hm, -, -⟩ := he.events_of_submit
  have hbest := hrep.bestLevel_eq (oppositeSide o.side)
  rw [he.tradesOf_eq, matchOrders_head o _ (validate_ok hm.valid).1, OrderBook.announced]
  cases hr : e.book.resting (oppositeSide o.side) with
  | nil =>
    rw [hr] at hbest
    simp [hbest]
  | cons m ms =>
    rw [hr] at hbest
    obtain ⟨l, hl, hfront, hprice⟩ := hbest
    simp [hl, hfront, hprice, tradeOf]

def sellNine : Order := makeOrder 7 .sell 90 9 7 .limit .ioc

theorem next_maker_announced_twoSided :
    ∃ (rs : List Response) (e e' : Engine (FreeListSlab OrderNode)) (evs : List BookEvent),
      (∀ pr, Engine.new.run pr twoSided = .ok (rs, e)) ∧
      e.submitOrder .debug sellNine = .ok (.ok evs, e') ∧
      (∀ s p, e.book.pruneEmpty s p = e.book) ∧ (tradesOf evs).head? = e.book.announced sellNine ∧
      (tradesOf evs).head? = some ⟨⟨4⟩, ⟨7⟩, ⟨102⟩, ⟨2⟩, ⟨7⟩⟩ := by
  obtain ⟨rs, e, hrun, hprune, hannounced⟩ :=
    next_maker_announced (S := FreeListSlab OrderNode) twoSided twoSided_noAddOverflow
  obtain ⟨e', hsub⟩ := Engine.answer_of_run hrun (.submit sellNine)
    (.ok [.accepted ⟨7⟩, .trade ⟨⟨4⟩, ⟨7⟩, ⟨102⟩, ⟨2⟩, ⟨7⟩⟩, .trade ⟨⟨1⟩, ⟨7⟩, ⟨100⟩, ⟨6⟩, ⟨7⟩⟩,
      .cancelled ⟨7⟩]) (by decide +kernel)
  exact ⟨rs, e, e', _, hrun, hsub, hprune, hannounced _ _ _ _ hsub, by decide⟩

end Ordust
