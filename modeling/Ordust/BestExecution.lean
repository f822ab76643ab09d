import Ordust.Lib.Greedy
import Ordust.Submission

/-!
# Best execution

A taker cannot be filled at a better total: no way to take as much from the orders that rest
opposite costs a buyer less or brings a seller more.
-/

open OrderDual

namespace Ordust

open RefBook

variable {S : Type} [Slab S OrderNode]

/-- Quantity times price. -/
def BookEvent.notional : BookEvent → Nat
  | .trade t => t.qty.toNat * t.price.toNat
  | _ => 0

/-- What is paid in all. -/
def notional (evs : List BookEvent) : Nat := (evs.map BookEvent.notional).sum

/-- What `take x.id` units of each of the orders are worth. -/
def worth (take : OrderId → Nat) (makers : List Order) : Nat :=
  (makers.map (fun x => take x.id * x.px.toNat)).sum

theorem notional_trades (ts : List Trade) :
    notional (ts.map .trade) = (ts.map (fun t => t.qty.toNat * t.price.toNat)).sum := by
  unfold notional
  rw [List.map_map]
  rfl

namespace RefBook

theorem tradeSum_cons (t : Trade) (ts : List Trade) :
    tradeSum (t :: ts) = t.qty.toNat + tradeSum ts := rfl

theorem matchOrders_cost {M : Type} [AddCommMonoid M] (value : Price → M) (taker : Order)
    (makers : List Order) :
    ((matchOrders taker makers).1.map (fun t => t.qty.toNat • value t.price)).sum =
      Greedy.cost (fun x => value x.px) Order.rem (tradeSum (matchOrders taker makers).1) makers := by
  induction makers generalizing taker with
  | nil => rfl
  | cons m ms ih =>
    by_cases hstop : taker.rem = 0 ∨ headCrosses taker (m :: ms) = false
    · rw [matchOrders_stop taker _ hstop]
      exact (Greedy.cost_zero _).symm
    · rw [not_or, Bool.not_eq_false] at hstop
      obtain ⟨hne, hc⟩ := hstop
      have hpos := Nat.pos_of_ne_zero hne
      rcases Nat.lt_or_ge taker.rem m.rem with hlt | hle
      · rw [matchOrders_inside taker m ms hpos hc hlt]
        have hsum : tradeSum [tradeOf taker m taker.remainingQty] = taker.rem := by
          simp [tradeSum, tradeOf, Order.rem]
        rw [hsum, Greedy.cost_cons_of_ge (Nat.le_of_lt hlt)]
        simp [tradeOf, Order.rem]
      · rw [matchOrders_exhaust taker m ms hpos hc hle]
        simp only [List.map_cons, List.sum_cons, tradeSum_cons]
        have hqty : (tradeOf taker m m.remainingQty).qty.toNat = m.rem := rfl
        rw [ih, hqty, Greedy.cost_cons_of_le (Nat.le_add_right _ _), Nat.add_sub_cancel_left]
        rfl

theorem Sorted.px_le {makers : List Order} (h : Sorted .sell makers) :
    makers.Pairwise (fun x y => x.px.toNat ≤ y.px.toNat) := by
  apply List.Pairwise.imp ?_ h
  intro x y hxy
  exact not_lt.mp hxy

theorem Sorted.px_ge {makers : List Order} (h : Sorted .buy makers) :
    makers.Pairwise (fun x y => y.px.toNat ≤ x.px.toNat) := by
  apply List.Pairwise.imp ?_ h
  intro x y hxy
  exact not_lt.mp hxy

theorem matchOrders_best {s : Side} {makers : List Order} (h : Sorted s makers) (taker : Order)
    {take : OrderId → Nat} (htake : ∀ x ∈ makers, take x.id ≤ x.rem)
    (hsum : (makers.map (fun x => take x.id)).sum = tradeSum (matchOrders taker makers).1) :
    match s with
    | .sell => notional ((matchOrders taker makers).1.map .trade) ≤ worth take makers
    | .buy => worth take makers ≤ notional ((matchOrders taker makers).1.map .trade) := by
  rw [notional_trades, worth]
  cases s with
  | sell =>
    have hcost := matchOrders_cost (fun p => p.toNat) taker makers
    rw [← hsum] at hcost
    have hle := Greedy.cost_le h.px_le htake
    rw [← hcost] at hle
    exact hle
  | buy =>
    have hcost := matchOrders_cost (fun p => toDual p.toNat) taker makers
    rw [← hsum] at hcost
    -- In the dual order, the best price for a seller is the cheapest one.
    have hdual : makers.Pairwise (fun x y => toDual x.px.toNat ≤ toDual y.px.toNat) := h.px_ge
    have hle := Greedy.cost_le hdual htake
    rw [← hcost] at hle
    exact hle

theorem Effect.notional_eq {r r' : RefBook} {o : Order} {evs : List BookEvent}
    (h : Effect r (.submit o) evs r') :
    notional evs = notional ((matchOrders o (r (oppositeSide o.side))).1.map .trade) ∧
      tradedQty evs = tradeSum (matchOrders o (r (oppositeSide o.side))).1 := by
  cases h with
  | filled hm =>
    rw [hm.trades, ← tradedQty_trades]
    simp [notional, BookEvent.notional, BookEvent.traded]
  | rested hm =>
    rw [hm.trades, ← tradedQty_trades]
    simp [notional, BookEvent.notional, BookEvent.traded]
  | dropped hm =>
    rw [hm.trades, ← tradedQty_trades]
    simp [notional, BookEvent.notional, BookEvent.traded]

end RefBook

/-- `take x.id` units of each of the orders, no more than is left of it. -/
def Takes (take : OrderId → Nat) (makers : List Order) (n : Nat) : Prop :=
  (∀ x ∈ makers, take x.id ≤ x.rem) ∧ (makers.map (fun x => take x.id)).sum = n

theorem Takes.le_crossing {take : OrderId → Nat} {makers : List Order} {n : Nat} {o : Order}
    (h : Takes take makers n) (hc : ∀ x ∈ makers, 0 < take x.id → o.crossesAt x.px = true) :
    n ≤ qtySum (makers.filter (fun x => o.crossesAt x.px)) := by
  obtain ⟨hle, rfl⟩ := h
  induction makers with
  | nil => exact le_refl _
  | cons x xs ih =>
    have hrest := ih (fun y hy => hc y (List.mem_cons_of_mem _ hy))
      (fun y hy => hle y (List.mem_cons_of_mem _ hy))
    have hx := hle x List.mem_cons_self
    rw [List.map_cons, List.sum_cons]
    by_cases hcross : o.crossesAt x.px = true
    · rw [List.filter_cons, if_pos hcross, qtySum_cons]
      omega
    · have hzero : ¬ 0 < take x.id := fun hpos => hcross (hc x List.mem_cons_self hpos)
      rw [List.filter_cons, if_neg hcross]
      omega

/-- Whatever was submitted and cancelled before: no way to take up to the quantity of a submission
from the orders that cross it takes more than its trades do, and no way to take as much from the
orders that rest opposite costs a buyer less or brings a seller more. -/
theorem best_execution (calls : List Call) (h : NoAddOverflow S calls) :
    ∃ (rs : List Response) (e : Engine S), (∀ pr, Engine.new.run pr calls = .ok (rs, e)) ∧
      ∀ pr o evs e', e.submitOrder pr o = .ok (.ok evs, e') →
        ∀ take n, Takes take (e.book.resting (oppositeSide o.side)) n →
          (n ≤ o.rem → (∀ x ∈ e.book.resting (oppositeSide o.side), 0 < take x.id →
            o.crossesAt x.px = true) → n ≤ tradedQty evs) ∧
          (n = tradedQty evs →
            match o.side with
            | .buy => notional evs ≤ worth take (e.book.resting (oppositeSide o.side))
            | .sell => worth take (e.book.resting (oppositeSide o.side)) ≤ notional evs) := by
  obtain ⟨e, q, hrun, hrep, -, hok⟩ := reach h
  refine ⟨_, e, hrun, ?_⟩
  intro pr o evs e' hsub take n htake
  have he := Engine.submitOrder_effect hrep hok hsub
  constructor
  · intro hle hc
    have hcross := htake.le_crossing hc
    rw [he.tradedQty_eq hok]
    exact le_min hle hcross
  · rintro rfl
    obtain ⟨hle, hsum⟩ := htake
    obtain ⟨hnotional, htraded⟩ := he.notional_eq
    rw [htraded] at hsum
    have hbest := matchOrders_best (hok.sorted (oppositeSide o.side)) o hle hsum
    rw [← hnotional] at hbest
    cases hs : o.side with
    | buy =>
      rw [hs] at hbest
      exact hbest
    | sell =>
      rw [hs] at hbest
      exact hbest

/-- Seven of the cheaper offer and all of the dearer one. -/
def sevenAndFive (id : OrderId) : Nat := if id = ⟨1⟩ then 7 else 5

def buyTwelve : Order := makeOrder 3 .buy 101 12 3 .limit .ioc

def buyTwelveEvents : List BookEvent :=
  [.accepted ⟨3⟩, .trade ⟨⟨1⟩, ⟨3⟩, ⟨100⟩, ⟨10⟩, ⟨3⟩⟩, .trade ⟨⟨2⟩, ⟨3⟩, ⟨101⟩, ⟨2⟩, ⟨3⟩⟩]

/-- The buyer pays 1202, and would have paid 1205 for what `sevenAndFive` takes. -/
theorem best_execution_twoAsks :
    ∃ (rs : List Response) (e e' : Engine (FreeListSlab OrderNode)),
      (∀ pr, Engine.new.run pr twoAsks = .ok (rs, e)) ∧
      e.submitOrder .debug buyTwelve = .ok (.ok buyTwelveEvents, e') ∧
      Takes sevenAndFive (e.book.resting .sell) 12 ∧ 12 ≤ tradedQty buyTwelveEvents ∧
      notional buyTwelveEvents ≤ worth sevenAndFive (e.book.resting .sell) ∧
      notional buyTwelveEvents = 1202 ∧ worth sevenAndFive (e.book.resting .sell) = 1205 := by
  obtain ⟨rs, e, hrun, hbest⟩ := best_execution (S := FreeListSlab OrderNode) twoAsks twoAsks_noAddOverflow
  obtain ⟨e', hsub⟩ := Engine.answer_of_run hrun (.submit buyTwelve) (.ok buyTwelveEvents)
    (by decide +kernel)
  have hasks : e.book.resting .sell =
      [makeOrder 1 .sell 100 10 1 .limit .gtc, makeOrder 2 .sell 101 5 2 .limit .gtc] :=
    Engine.of_run hrun (fun e => e.book.resting .sell) (by decide +kernel)
  have htakes : Takes sevenAndFive (e.book.resting .sell) 12 := by
    rw [hasks]
    exact ⟨by decide, by decide⟩
  obtain ⟨hmost, hcheapest⟩ := hbest .debug buyTwelve buyTwelveEvents e' hsub sevenAndFive 12 htakes
  have hcross : ∀ x ∈ e.book.resting .sell, 0 < sevenAndFive x.id →
      buyTwelve.crossesAt x.px = true := by
    rw [hasks]
    decide
  have hworth : worth sevenAndFive (e.book.resting .sell) = 1205 := by
    rw [hasks]
    decide
  exact ⟨rs, e, e', hrun, hsub, htakes, hmost (by decide) hcross, hcheapest (by decide), by decide,
    hworth⟩

end Ordust
