import Ordust.Code.Book

/-! # `engine.rs` -/

namespace Ordust

structure Engine (S : Type) where
  book : OrderBook S

/-- `Engine::opposite_side`, and the same function of the book. -/
def oppositeSide (side : Side) : Side :=
  if side = .buy then .sell else .buy

namespace Engine

variable {S : Type} [Slab S OrderNode]

def new : Engine S := { book := OrderBook.new }

def validate (self : Engine S) (order : Order) : Except EngineError Unit := do
  if order.remainingQty.val = 0 then
    throw .zeroQty
  match order.orderType with
  | .limit => if order.price.isNone then throw .missingPrice
  | .market => if order.tif = .gtc then throw .invalidTifForMarket
  match self.book.getOrder order.id with
  | some ord => throw (.duplicateOrderId ord.id)
  | none => pure ()

def crosses (self : Engine S) (order : Order) : Checked Bool :=
  match order.orderType with
  | .market =>
    match order.side with
    | .buy => pure self.book.bestAsk.isSome
    | .sell => pure self.book.bestBid.isSome
  | .limit =>
    match order.side with
    | .buy =>
      match self.book.bestAsk with
      | none => pure false
      | some ask => do
        let price ← Checked.unwrap order.price
        pure (decide (ask ≤ price))
    | .sell =>
      match self.book.bestBid with
      | none => pure false
      | some bid => do
        let price ← Checked.unwrap order.price
        pure (decide (price ≤ bid))

/-- The `while` loop of `match_against_book`, for at most `fuel` iterations. -/
def matchLoop (pr : Profile) (opposite : Side) :
    Nat → Engine S → Order → Checked (List Trade × Order × Engine S)
  | 0, _, _ => .error .outOfFuel
  | fuel + 1, self, taker => do
    if taker.remainingQty.val = 0 then return ([], taker, self)
    if !(← self.crosses taker) then return ([], taker, self)
    let (fill, book) ← self.book.matchAtBest pr opposite taker.remainingQty
    match fill with
    | none => return ([], taker, { self with book := book })
    | some fill =>
      let remaining ← pr.sub taker.remainingQty.val fill.filledQty.val
      let trade : Trade :=
        { makerOrderId := fill.makerOrderId, takerOrderId := taker.id, price := fill.price,
          qty := fill.filledQty, timestamp := taker.timestamp }
      let (trades, taker, self) ←
        matchLoop pr opposite fuel { self with book := book } { taker with remainingQty := ⟨remaining⟩ }
      return (trade :: trades, taker, self)

/-- An iteration either takes something from the taker or empties a slot of the arena, so this
fuel is never used up (`matchAgainstBook_eq`). -/
def matchAgainstBook (pr : Profile) (self : Engine S) (takerOrder : Order) :
    Checked (List Trade × Order × Engine S) :=
  matchLoop pr (oppositeSide takerOrder.side)
    (takerOrder.remainingQty.toNat + Slab.len self.book.arena + 1) self takerOrder

def applyTifToRemainder (pr : Profile) (self : Engine S) (order : Order) :
    Checked (List BookEvent × Engine S) :=
  if order.remainingQty.val = 0 then pure ([], self)
  else
    match order.tif with
    | .gtc => do
      let price ← Checked.unwrap order.price
      let book ← self.book.insertResting pr order
      pure ([.restingOnBook order.id price order.remainingQty], { self with book := book })
    | .ioc => pure ([.cancelled order.id], self)
    | .fok => pure ([], self)

/-- The `for` loop of `can_fully_fill`. -/
def canFullyFillLoop (pr : Profile) (order : Order) :
    UInt64 → List (Price × Level) → Checked Bool
  | _, [] => pure false
  | accumulated, (price, level) :: levels => do
    let stillCrosses := match order.price with
      | none => true
      | some limit =>
        match order.side with
        | .buy => decide (price ≤ limit)
        | .sell => decide (limit ≤ price)
    if !stillCrosses then return false
    let accumulated ← pr.add accumulated level.totalQty.val
    if order.remainingQty.val ≤ accumulated then return true
    canFullyFillLoop pr order accumulated levels

def canFullyFill (pr : Profile) (self : Engine S) (order : Order) : Checked Bool :=
  canFullyFillLoop pr order 0 (self.book.iterSide (oppositeSide order.side))

/-- The part of `submit_order` between the checks and the remainder. -/
def matchOrder (pr : Profile) (self : Engine S) (order : Order) :
    Checked (List Trade × Order × Engine S) := do
  if ← self.crosses order then self.matchAgainstBook pr order
  else return ([], order, self)

def submitOrder (pr : Profile) (self : Engine S) (order : Order) :
    Checked (Except EngineError (List BookEvent) × Engine S) :=
  match self.validate order with
  | .error err => pure (.error err, self)
  | .ok () => do
    let fillable ← if order.tif = .fok then self.canFullyFill pr order else pure true
    if !fillable then return (.error .fokNotFillable, self)
    let (trades, remainder, self) ← self.matchOrder pr order
    let (events, self) ← self.applyTifToRemainder pr remainder
    return (.ok (.accepted order.id :: trades.map .trade ++ events), self)

def cancelOrder (self : Engine S) (id : OrderId) :
    Checked (Except EngineError (List BookEvent) × Engine S) := do
  let (removed, book) ← self.book.removeOrder id
  match removed with
  | some _ => return (.ok [.cancelled id], { self with book := book })
  | none => return (.error (.orderNotFound id), { self with book := book })

end Engine

/-! ## Runs -/

inductive Call where
  | submit (order : Order)
  | cancel (id : OrderId)
  deriving DecidableEq, Repr

/-- What a call returns. -/
abbrev Response := Except EngineError (List BookEvent)

namespace Engine

variable {S : Type} [Slab S OrderNode]

def call (pr : Profile) (self : Engine S) : Call → Checked (Response × Engine S)
  | .submit order => self.submitOrder pr order
  | .cancel id => self.cancelOrder id

def run (pr : Profile) (self : Engine S) : List Call → Checked (List Response × Engine S)
  | [] => pure ([], self)
  | c :: calls => do
    let (response, self) ← self.call pr c
    let (responses, self) ← self.run pr calls
    return (response :: responses, self)

end Engine

end Ordust
