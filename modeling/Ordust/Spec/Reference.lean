import Ordust.Code.Engine
import Ordust.Lib.Runs
import Mathlib.Logic.Function.Basic

/-!
# The reference engine

Each side of the book is one plain list of resting orders in priority order. Quantities are
summed as numbers, so nothing here overflows.
-/

namespace Ordust

/-! ## Orders -/

/-- What is left of an order. -/
def Order.rem (o : Order) : Nat := o.remainingQty.toNat

/-- The price of an order that has one. -/
def Order.px (o : Order) : Price := o.price.getD ⟨0⟩

/-- The order with `n` left of it. -/
def Order.withRemaining (o : Order) (n : UInt64) : Order := { o with remainingQty := ⟨n⟩ }

def qtySum (os : List Order) : Nat := (os.map Order.rem).sum

/-- On side `s`, the price `p` has priority over `q`. -/
def Side.better (s : Side) (p q : Price) : Prop :=
  match s with
  | .buy => q < p
  | .sell => p < q

instance (s : Side) (p q : Price) : Decidable (s.better p q) := by
  unfold Side.better
  cases s <;> infer_instance

/-- A resting order at `p` crosses the limit of the taker `o`. Any price crosses a market order. -/
def Order.crossesAt (o : Order) (p : Price) : Bool :=
  match o.orderType with
  | .market => true
  | .limit =>
    match o.side with
    | .buy => decide (p ≤ o.px)
    | .sell => decide (o.px ≤ p)

/-- The price filter of the fill-or-kill check. It looks at the price field alone. -/
def Order.admits (o : Order) (p : Price) : Bool :=
  match o.price with
  | none => true
  | some limit =>
    match o.side with
    | .buy => decide (p ≤ limit)
    | .sell => decide (limit ≤ p)

/-! ## The book -/

/-- The resting orders of each side, best price first, and in order of arrival at one price. -/
abbrev RefBook := Side → List Order

namespace RefBook

def new : RefBook := fun _ => []

def ids (r : RefBook) : List OrderId := (r .buy ++ r .sell).map Order.id

/-- Each price of a list of resting orders once, with the sum of what is left there. -/
def perPrice : List Order → List (Price × Nat)
  | [] => []
  | o :: os =>
    match perPrice os with
    | [] => [(o.px, o.rem)]
    | (p, n) :: ls => if p = o.px then (p, o.rem + n) :: ls else (o.px, o.rem) :: (p, n) :: ls

/-- After the orders of equal or better price. -/
def insertOrder (o : Order) (os : List Order) : List Order :=
  os.takeWhile (fun x => ¬ o.side.better o.px x.px) ++
    o :: os.dropWhile (fun x => ¬ o.side.better o.px x.px)

def validate (r : RefBook) (o : Order) : Except EngineError Unit :=
  if o.rem = 0 then .error .zeroQty
  else if o.orderType = .limit ∧ o.price = none then .error .missingPrice
  else if o.orderType = .market ∧ o.tif = .gtc then .error .invalidTifForMarket
  else if o.id ∈ r.ids then .error (.duplicateOrderId o.id)
  else .ok ()

/-- The per-price sums that a fill-or-kill order admits cover it. -/
def canFullyFill (r : RefBook) (o : Order) : Bool :=
  let levels := (perPrice (r (oppositeSide o.side))).takeWhile (fun l => o.admits l.1)
  decide (o.rem ≤ (levels.map Prod.snd).sum)

def tradeOf (taker maker : Order) (qty : Qty) : Trade :=
  { makerOrderId := maker.id, takerOrderId := taker.id, price := maker.px, qty := qty,
    timestamp := taker.timestamp }

/-- Fills the taker against the head of the opposite list while the head crosses. -/
def matchOrders (taker : Order) : List Order → List Trade × Order × List Order
  | [] => ([], taker, [])
  | maker :: makers =>
    if taker.rem = 0 ∨ taker.crossesAt maker.px = false then ([], taker, maker :: makers)
    else if maker.rem ≤ taker.rem then
      -- The head is exhausted.
      let (trades, rest, left) := matchOrders
        (taker.withRemaining (taker.remainingQty.val - maker.remainingQty.val)) makers
      (tradeOf taker maker maker.remainingQty :: trades, rest, left)
    else
      -- The taker is.
      ([tradeOf taker maker taker.remainingQty], taker.withRemaining 0,
        maker.withRemaining (maker.remainingQty.val - taker.remainingQty.val) :: makers)

/-- What becomes of the remainder of a submitted order. -/
def remainder (r : RefBook) (o : Order) : List BookEvent × RefBook :=
  if o.rem = 0 then ([], r)
  else
    match o.tif with
    | .gtc => ([.restingOnBook o.id o.px o.remainingQty],
        Function.update r o.side (insertOrder o (r o.side)))
    | .ioc => ([.cancelled o.id], r)
    | .fok => ([], r)

def submit (r : RefBook) (o : Order) : Response × RefBook :=
  match r.validate o with
  | .error err => (.error err, r)
  | .ok () =>
    if o.tif = .fok ∧ r.canFullyFill o = false then (.error .fokNotFillable, r)
    else
      let (trades, rest, makers) := matchOrders o (r (oppositeSide o.side))
      let (events, r) := remainder (Function.update r (oppositeSide o.side) makers) rest
      (.ok (.accepted o.id :: trades.map .trade ++ events), r)

def cancel (r : RefBook) (id : OrderId) : Response × RefBook :=
  if id ∈ r.ids then (.ok [.cancelled id], fun s => (r s).filter (fun o => o.id ≠ id))
  else (.error (.orderNotFound id), r)

def call (r : RefBook) : Call → Response × RefBook
  | .submit o => r.submit o
  | .cancel id => r.cancel id

def run (r : RefBook) (calls : List Call) : List Response × RefBook := Runs.run call r calls

/-! ## The additions that the code makes -/

/-- The quantity resting opposite to `o` at prices that cross it. -/
def crossingQty (r : RefBook) (o : Order) : Nat :=
  qtySum ((r (oppositeSide o.side)).filter (fun x => o.crossesAt x.px))

/-- The quantity that rests at one price. -/
def levelQty (r : RefBook) (s : Side) (p : Price) : Nat :=
  qtySum ((r s).filter (fun x => x.px = p))

/-- No running sum of the fill-or-kill check, up to where the check stops, leaves `u64`. -/
def ScanFits (o : Order) : Nat → List (Price × Nat) → Prop
  | _, [] => True
  | acc, (p, n) :: levels =>
    o.admits p = true → acc + n < 2 ^ 64 ∧ (acc + n < o.rem → ScanFits o (acc + n) levels)

/-- No addition of a fill-or-kill check leaves `u64`. -/
def CheckFits (r : RefBook) : Call → Prop
  | .submit o => o.tif = .fok → ScanFits o 0 (perPrice (r (oppositeSide o.side)))
  | .cancel _ => True

/-- No addition of the call `c` on the book `r` leaves `u64`. -/
def Fits (r : RefBook) : Call → Prop
  | .submit o => r.validate o = .ok () → r.CheckFits (.submit o) ∧
      (o.tif = .gtc → r.levelQty o.side o.px + (o.rem - r.crossingQty o) < 2 ^ 64)
  | .cancel _ => True

end RefBook

/-! ## What can be seen of the engine -/

section Observe

variable {S : Type} [Slab S OrderNode]

/-- The orders met on the way along `next`, for at most `fuel` nodes. -/
def walk (arena : S) : Nat → Option NodeId → List Order
  | 0, _ => []
  | _, none => []
  | fuel + 1, some k =>
    match Slab.get arena k with
    | none => []
    | some node => node.order :: walk arena fuel node.next

/-- The queue of a level. No list in the arena is longer than its number of occupied slots. -/
def Level.queue (self : Level) (arena : S) : List Order := walk arena (Slab.len arena) self.head

/-- The resting orders of a book: the queues of the levels, best price first. -/
def OrderBook.resting (self : OrderBook S) : RefBook :=
  fun side => (self.iterSide side).flatMap (fun e => e.2.queue self.arena)

end Observe

end Ordust
