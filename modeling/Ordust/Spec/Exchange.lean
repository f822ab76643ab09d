import Ordust.Code.Reconciler
import Ordust.Lib.History

/-!
# The exchange

The books that an exchange goes through, one numbered event after the other, and the messages
that it sends about them. Messages may be lost, repeated, delayed and reordered.
-/

open OrderDual

namespace Ordust

/-- What is quoted on a side at a price, or nothing. -/
abbrev Levels := Side × Price → Option Qty

structure Exchange extends History (Side × Price) (Option Qty) where
  pos : ∀ k x n, state k x = some n → 0 < n.val

def Snapshot.entries (s : Snapshot) : Side → List (Price × Qty)
  | .buy => s.bids
  | .sell => s.asks

def DepthUpdate.entries (d : DepthUpdate) : Side → List (Price × Qty)
  | .buy => d.bids
  | .sell => d.asks

def MarketBook.level (b : MarketBook) : Levels := fun x =>
  match x.1 with
  | .buy => b.bids.get? (toDual x.2)
  | .sell => b.asks.get? x.2

/-! ## Genuine messages -/

/-- A snapshot lists the levels of the book that its identifier names, each price once. -/
structure Exchange.GenuineSnapshot (h : Exchange) (s : Snapshot) : Prop where
  id : s.lastUpdateId.toNat < 2 ^ 64 - 1
  once : ∀ side, ((s.entries side).map Prod.fst).Nodup
  levels : ∀ side p n,
    (p, n) ∈ s.entries side ↔ h.state s.lastUpdateId.toNat (side, p) = some n

/-- A diff lists once each level that its events touch, with its quantity after the last of them,
zero if there is none. -/
structure Exchange.GenuineDiff (h : Exchange) (d : DepthUpdate) : Prop where
  range : d.firstUpdateId ≤ d.finalUpdateId
  id : d.finalUpdateId.toNat < 2 ^ 64 - 1
  once : ∀ side, ((d.entries side).map Prod.fst).Nodup
  levels : ∀ side p n, (p, n) ∈ d.entries side ↔
    h.Touches d.firstUpdateId.toNat d.finalUpdateId.toNat (side, p) ∧
      n = (h.state d.finalUpdateId.toNat (side, p)).getD ⟨0⟩

def Exchange.Genuine (h : Exchange) : Message → Prop
  | .diff d => h.GenuineDiff d
  | .snapshot s => h.GenuineSnapshot s

end Ordust
