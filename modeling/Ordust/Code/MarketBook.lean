import Ordust.Code.Types
import Ordust.Lib.SortedMap
import Mathlib.Order.OrderDual

/-!
# `marketbook.rs`, and the messages of `types.rs`

The book of an exchange as a client sees it: one quantity a price, kept up to date by snapshots
and diffs.
-/

open OrderDual

namespace Ordust

structure DepthUpdate where
  firstUpdateId : UInt64
  finalUpdateId : UInt64
  bids : List (Price × Qty)
  asks : List (Price × Qty)
  deriving DecidableEq, Repr

structure Snapshot where
  lastUpdateId : UInt64
  bids : List (Price × Qty)
  asks : List (Price × Qty)
  deriving DecidableEq, Repr

structure MarketBook where
  bids : SortedMap Priceᵒᵈ Qty
  asks : SortedMap Price Qty
  lastUpdateId : UInt64

namespace MarketBook

def new : MarketBook := { bids := .empty, asks := .empty, lastUpdateId := 0 }

def applySnapshot (_self : MarketBook) (snapshot : Snapshot) : MarketBook :=
  { bids := snapshot.bids.foldl
      (fun bids e => if 0 < e.2.val then bids.insert (toDual e.1) e.2 else bids) .empty
    asks := snapshot.asks.foldl
      (fun asks e => if 0 < e.2.val then asks.insert e.1 e.2 else asks) .empty
    lastUpdateId := snapshot.lastUpdateId }

def applyDiff (self : MarketBook) (update : DepthUpdate) : MarketBook :=
  { bids := update.bids.foldl
      (fun bids e => if 0 < e.2.val then bids.insert (toDual e.1) e.2 else bids.erase (toDual e.1))
      self.bids
    asks := update.asks.foldl
      (fun asks e => if 0 < e.2.val then asks.insert e.1 e.2 else asks.erase e.1) self.asks
    lastUpdateId := update.finalUpdateId }

def depth (self : MarketBook) (side : Side) (n : Nat) : List (Price × Qty) :=
  match side with
  | .sell => self.asks.entries.take n
  | .buy => (self.bids.entries.take n).map (fun e => (ofDual e.1, e.2))

def bestBid (self : MarketBook) : Option (Price × Qty) :=
  self.bids.first?.map (fun e => (ofDual e.1, e.2))

def bestAsk (self : MarketBook) : Option (Price × Qty) := self.asks.first?

end MarketBook

end Ordust
