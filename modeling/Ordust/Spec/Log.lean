import Ordust.Spec.Reference

/-!
# The log of a run

The events of the calls that succeeded, one after the other, and what can be read off them alone.
-/

namespace Ordust

/-- A call that fails has no events. -/
def eventsOf : Response → List BookEvent
  | .ok evs => evs
  | .error _ => []

def logOf (rs : List Response) : List BookEvent := rs.flatMap eventsOf

/-! ## A consumer of the log -/

structure Entry where
  id : OrderId
  price : Price
  remaining : Nat
  deriving DecidableEq

def Order.entry (o : Order) : Entry := ⟨o.id, o.px, o.rem⟩

/-- A trade is subtracted from the entry of its maker, which is deleted at zero. The consumer fails
where there is no such entry, and where it has less than the trade. -/
def fillEntry (t : Trade) : List Entry → Option (List Entry)
  | [] => none
  | x :: entries =>
    if x.id = t.makerOrderId then
      if x.remaining < t.qty.toNat then none
      else if x.remaining = t.qty.toNat then some entries
      else some ({ x with remaining := x.remaining - t.qty.toNat } :: entries)
    else (fillEntry t entries).map (fun entries => x :: entries)

def consume (entries : List Entry) : BookEvent → Option (List Entry)
  | .restingOnBook id price remaining => some (entries ++ [⟨id, price, remaining.toNat⟩])
  | .trade t => fillEntry t entries
  | .cancelled id => some (entries.filter (fun x => x.id ≠ id))
  | _ => some entries

def replay (log : List BookEvent) : Option (List Entry) := log.foldlM consume []

/-! ## One order in the log -/

/-- What an event trades with `id` as the maker. -/
def BookEvent.madeBy (id : OrderId) : BookEvent → Nat
  | .trade t => if t.makerOrderId = id then t.qty.toNat else 0
  | _ => 0

/-- What an event trades with `id` as the maker or the taker. -/
def BookEvent.filledOf (id : OrderId) : BookEvent → Nat
  | .trade t => if t.makerOrderId = id ∨ t.takerOrderId = id then t.qty.toNat else 0
  | _ => 0

def madeBy (id : OrderId) (evs : List BookEvent) : Nat := (evs.map (BookEvent.madeBy id)).sum

def filledOf (id : OrderId) (evs : List BookEvent) : Nat := (evs.map (BookEvent.filledOf id)).sum

/-- What an event trades. -/
def BookEvent.traded : BookEvent → Nat
  | .trade t => t.qty.toNat
  | _ => 0

def tradedQty (evs : List BookEvent) : Nat := (evs.map BookEvent.traded).sum

/-- The events of a submission: its own, and the later ones until its identifier is used again. -/
def window (id : OrderId) (own later : List BookEvent) : List BookEvent :=
  own ++ later.takeWhile (fun ev => ev ≠ .accepted id)

/-- An order that rested still does after some events. -/
def StillRests (o : Order) (evs : List BookEvent) : Prop :=
  .cancelled o.id ∉ evs ∧ madeBy o.id evs < o.rem

/-- An order came to rest under `id` and has since been neither cancelled nor filled whole. -/
def Live (log : List BookEvent) (id : OrderId) : Prop :=
  ∃ before after p n, log = before ++ .restingOnBook id p n :: after ∧ .cancelled id ∉ after ∧
    madeBy id after < n.toNat

/-- `a` last came to rest before `b` last did. -/
def RestedEarlier (log : List BookEvent) (a b : OrderId) : Prop :=
  ∃ before after p n, log = before ++ .restingOnBook a p n :: after ∧
    (∀ p n, .restingOnBook a p n ∉ after) ∧ ∃ p n, .restingOnBook b p n ∈ after

end Ordust
