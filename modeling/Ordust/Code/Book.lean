import Ordust.Code.PriceLevel
import Ordust.Lib.SortedMap
import Mathlib.Data.Finmap
import Mathlib.Order.OrderDual

/-!
# `book.rs`

`BTreeMap<Reverse<Price>, Level>` is a sorted map on the dual order of prices.
-/

open OrderDual

namespace Ordust

structure OrderBook (S : Type) where
  arena : S
  bids : SortedMap Priceᵒᵈ Level
  asks : SortedMap Price Level
  orderIndex : Finmap (fun _ : OrderId => NodeId)

namespace OrderBook

variable {S : Type} [Slab S OrderNode]

def new : OrderBook S :=
  { arena := Slab.withCapacity 1000, bids := .empty, asks := .empty, orderIndex := ∅ }

def bestBid (self : OrderBook S) : Option Price := self.bids.first?.map (fun e => ofDual e.1)

def bestAsk (self : OrderBook S) : Option Price := self.asks.first?.map Prod.fst

def spread (pr : Profile) (self : OrderBook S) : Checked (Option Price) :=
  match self.bestBid with
  | none => pure none
  | some bid =>
    match self.bestAsk with
    | none => pure none
    | some ask =>
      if bid < ask then do
        let d ← ask.sub pr bid
        pure (some d)
      else pure none

def insertResting (pr : Profile) (self : OrderBook S) (order : Order) : Checked (OrderBook S) := do
  let p ← Checked.expect "expected a price for order" order.price
  let id := order.id
  if order.side = .sell then
    let level := (self.asks.get? p).getD (Level.new p)
    let (nodeid, level, arena) ← level.pushBack pr self.arena order
    pure { self with
      arena := arena, asks := self.asks.insert p level, orderIndex := self.orderIndex.insert id nodeid }
  else
    let level := (self.bids.get? (toDual p)).getD (Level.new p)
    let (nodeid, level, arena) ← level.pushBack pr self.arena order
    pure { self with
      arena := arena, bids := self.bids.insert (toDual p) level,
      orderIndex := self.orderIndex.insert id nodeid }

/-- Ends `remove_order`: the entry leaves the index, or the call returns `None`. -/
def removeEntry (self : OrderBook S) (id : OrderId) (removedOrder : Option Order) :
    Option Order × OrderBook S :=
  match self.orderIndex.lookup id with
  | none => (none, self)
  | some _ => (removedOrder, { self with orderIndex := self.orderIndex.erase id })

def removeOrder (self : OrderBook S) (id : OrderId) : Checked (Option Order × OrderBook S) :=
  match self.orderIndex.lookup id with
  | none => pure (none, self)
  | some nodeid =>
    match Slab.get self.arena nodeid with
    | none => pure (none, self)
    | some node =>
      match node.order.price with
      | none => pure (none, self)
      | some price =>
        if node.order.side = .buy then
          match self.bids.get? (toDual price) with
          | none => pure (none, self)
          | some level => do
            let (removedOrder, level, arena) ← level.remove self.arena nodeid
            let bids := if level.isEmpty then self.bids.erase (toDual price)
              else self.bids.insert (toDual price) level
            pure ({ self with arena := arena, bids := bids }.removeEntry id removedOrder)
        else do
          let level ← Checked.unwrap (self.asks.get? price)
          let (removedOrder, level, arena) ← level.remove self.arena nodeid
          let asks := if level.isEmpty then self.asks.erase price else self.asks.insert price level
          pure ({ self with arena := arena, asks := asks }.removeEntry id removedOrder)

def getOrder (self : OrderBook S) (id : OrderId) : Option Order := do
  let nodeid ← self.orderIndex.lookup id
  let node ← Slab.get self.arena nodeid
  pure node.order

def bestLevel (self : OrderBook S) (side : Side) : Option Level :=
  match side with
  | .buy => self.bids.first?.map Prod.snd
  | .sell => self.asks.first?.map Prod.snd

def pruneEmpty (self : OrderBook S) (side : Side) (price : Price) : OrderBook S :=
  match side with
  | .buy =>
    match self.bids.get? (toDual price) with
    | some level => if level.isEmpty then { self with bids := self.bids.erase (toDual price) } else self
    | none => self
  | .sell =>
    match self.asks.get? price with
    | some level => if level.isEmpty then { self with asks := self.asks.erase price } else self
    | none => self

def matchAtBest (pr : Profile) (self : OrderBook S) (oppositeSide : Side) (qty : Qty) :
    Checked (Option FillResult × OrderBook S) :=
  match oppositeSide with
  | .buy =>
    match self.bids.first? with
    | none => pure (none, self)
    | some (price, level) => do
      let (consumed, level, arena) ← level.consumeQty pr qty self.arena
      match consumed with
      | none => pure (none, { self with arena := arena, bids := self.bids.insert price level })
      | some (makerId, filledAmount, filledstatus) =>
        let orderIndex := if filledstatus then self.orderIndex.erase makerId else self.orderIndex
        let bids := if level.isEmpty then self.bids.erase price else self.bids.insert price level
        pure (some { makerOrderId := makerId, price := ofDual price, filledQty := filledAmount,
                     makerFullyFilled := filledstatus },
          { self with arena := arena, bids := bids, orderIndex := orderIndex })
  | .sell =>
    match self.asks.first? with
    | none => pure (none, self)
    | some (price, level) => do
      let (consumed, level, arena) ← level.consumeQty pr qty self.arena
      match consumed with
      | none => pure (none, { self with arena := arena, asks := self.asks.insert price level })
      | some (makerId, filledAmount, filledstatus) =>
        let orderIndex := if filledstatus then self.orderIndex.erase makerId else self.orderIndex
        let asks := if level.isEmpty then self.asks.erase price else self.asks.insert price level
        pure (some { makerOrderId := makerId, price := price, filledQty := filledAmount,
                     makerFullyFilled := filledstatus },
          { self with arena := arena, asks := asks, orderIndex := orderIndex })

/-- The levels of one side, best price first. -/
def iterSide (self : OrderBook S) (side : Side) : List (Price × Level) :=
  match side with
  | .buy => self.bids.entries.map (fun e => (ofDual e.1, e.2))
  | .sell => self.asks.entries

def depth (self : OrderBook S) (side : Side) (n : Nat) : List (Price × Qty) :=
  match side with
  | .buy => (self.bids.entries.take n).map (fun e => (ofDual e.1, e.2.totalQty))
  | .sell => (self.asks.entries.take n).map (fun e => (e.1, e.2.totalQty))

end OrderBook

end Ordust
