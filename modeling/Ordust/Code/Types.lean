import Ordust.Lib.Checked
import Mathlib.Order.Lattice
import Mathlib.Order.Nat

/-! # `types.rs` of the core -/

namespace Ordust

/-- Integer ticks. -/
structure Price where
  val : UInt64
  deriving Repr

structure Qty where
  val : UInt64
  deriving DecidableEq, Repr

structure OrderId where
  val : UInt64
  deriving DecidableEq, Repr

structure Timestamp where
  val : UInt64
  deriving DecidableEq, Repr

def Price.toNat (p : Price) : Nat := p.val.toNat

def Qty.toNat (q : Qty) : Nat := q.val.toNat

def Timestamp.toNat (t : Timestamp) : Nat := t.val.toNat

theorem Price.toNat_injective : Function.Injective Price.toNat := by
  rintro ⟨p⟩ ⟨q⟩ h
  exact congrArg Price.mk (UInt64.toNat_inj.mp h)

/-- `derive(PartialOrd, Ord)` on the one field. -/
instance : LinearOrder Price := LinearOrder.lift' Price.toNat Price.toNat_injective

theorem Price.lt_iff (p q : Price) : p < q ↔ p.toNat < q.toNat := Iff.rfl

theorem Price.le_iff (p q : Price) : p ≤ q ↔ p.toNat ≤ q.toNat := Iff.rfl

theorem Qty.toNat_lt (q : Qty) : q.toNat < 2 ^ 64 := q.val.toNat_lt

theorem Qty.eq_of_toNat {q r : Qty} (h : q.toNat = r.toNat) : q = r := by
  cases q
  cases r
  exact congrArg Qty.mk (UInt64.toNat_inj.mp h)

/-- `Price::sub`, on the subtraction of `u64`. -/
def Price.sub (pr : Profile) (p q : Price) : Checked Price := do
  let d ← pr.sub p.val q.val
  pure ⟨d⟩

inductive Side where
  | buy
  | sell
  deriving DecidableEq, Repr

inductive OrderType where
  | limit
  | market
  deriving DecidableEq, Repr

inductive TimeInForce where
  | gtc
  | ioc
  | fok
  deriving DecidableEq, Repr

structure Order where
  id : OrderId
  side : Side
  orderType : OrderType
  tif : TimeInForce
  price : Option Price
  qty : Qty
  remainingQty : Qty
  timestamp : Timestamp
  deriving DecidableEq, Repr

structure Trade where
  makerOrderId : OrderId
  takerOrderId : OrderId
  price : Price
  qty : Qty
  timestamp : Timestamp
  deriving DecidableEq, Repr

structure FillResult where
  makerOrderId : OrderId
  price : Price
  filledQty : Qty
  makerFullyFilled : Bool
  deriving DecidableEq, Repr

inductive EngineError where
  | orderNotFound (id : OrderId)
  | missingPrice
  | zeroQty
  | fokNotFillable
  | duplicateOrderId (id : OrderId)
  | crosses (side : Side) (price : Price)
  | invalidTifForMarket
  deriving DecidableEq, Repr

inductive BookEvent where
  | accepted (orderId : OrderId)
  | rejected (orderId : OrderId) (reason : EngineError)
  | trade (t : Trade)
  | cancelled (orderId : OrderId)
  | restingOnBook (orderId : OrderId) (price : Price) (remainingQty : Qty)
  deriving DecidableEq, Repr

end Ordust
