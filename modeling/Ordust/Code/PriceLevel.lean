import Ordust.Code.Types
import Ordust.Lib.Slab

/-!
# `price_level.rs`

A level is a queue of orders in an arena that all levels share. Functions that take
`&mut self` and `&mut Slab<OrderNode>` return both.
-/

namespace Ordust

/-- A key of the arena. -/
abbrev NodeId := Nat

structure OrderNode where
  order : Order
  prev : Option NodeId
  next : Option NodeId
  deriving DecidableEq, Repr

structure Level where
  price : Price
  head : Option NodeId
  tail : Option NodeId
  totalQty : Qty
  deriving DecidableEq, Repr

namespace Level

variable {S : Type} [Slab S OrderNode]

def new (price : Price) : Level :=
  { price := price, head := none, tail := none, totalQty := ⟨0⟩ }

def pushBack (pr : Profile) (self : Level) (arena : S) (order : Order) :
    Checked (NodeId × Level × S) := do
  let total ← pr.add self.totalQty.val order.remainingQty.val
  pr.debugAssert "order price must match this level's price" (order.price = some self.price)
  let (currorderid, arena) := Slab.insert arena { order := order, prev := self.tail, next := none }
  match self.tail with
  | some oldTail =>
    let arena := Slab.modify arena oldTail (fun node => { node with next := some currorderid })
    pure (currorderid, { self with tail := some currorderid, totalQty := ⟨total⟩ }, arena)
  | none =>
    -- The list was empty: the new node is also the head.
    pure (currorderid,
      { self with head := some currorderid, tail := some currorderid, totalQty := ⟨total⟩ }, arena)

def front (self : Level) (arena : S) : Option Order := do
  let head ← self.head
  let node ← Slab.get arena head
  pure node.order

def popFront (pr : Profile) (self : Level) (arena : S) : Checked (Option Order × Level × S) :=
  match self.head with
  | none => pure (none, self, arena)
  | some headId =>
    match Slab.tryRemove arena headId with
    | none => pure (none, self, arena)
    | some (node, arena) => do
      let (self, arena) := match node.next with
        | some newHead =>
          ({ self with head := node.next },
            Slab.modify arena newHead (fun (head : OrderNode) => { head with prev := none }))
        | none => ({ self with head := node.next, tail := none }, arena)
      let total ← pr.sub self.totalQty.val node.order.remainingQty.val
      pure (some node.order, { self with totalQty := ⟨total⟩ }, arena)

def remove (self : Level) (arena : S) (id : NodeId) : Checked (Option Order × Level × S) :=
  match Slab.tryRemove arena id with
  | none => pure (none, self, arena)
  | some (ordernode, arena) => do
    let (self, arena) := match ordernode.prev with
      | some prevId => (self, Slab.modify arena prevId
          (fun (node : OrderNode) => { node with next := ordernode.next }))
      | none => ({ self with head := ordernode.next }, arena)
    let (self, arena) := match ordernode.next with
      | some nextId => (self, Slab.modify arena nextId
          (fun (node : OrderNode) => { node with prev := ordernode.prev }))
      | none => ({ self with tail := ordernode.prev }, arena)
    let total ← Checked.expect "total_qty underflow: level accounting is out of sync"
      (self.totalQty.val.checkedSub ordernode.order.remainingQty.val)
    pure (some ordernode.order, { self with totalQty := ⟨total⟩ }, arena)

def isEmpty (self : Level) : Bool := self.totalQty.val = 0

def getOrderById (_self : Level) (id : NodeId) (arena : S) : Option Order :=
  (Slab.get arena id).map (·.order)

/-- Takes up to `qty` from the front order: its id, the amount, and whether it was all. -/
def consumeQty (pr : Profile) (self : Level) (qty : Qty) (arena : S) :
    Checked (Option (OrderId × Qty × Bool) × Level × S) :=
  match self.head with
  | none => pure (none, self, arena)
  | some headId =>
    match Slab.get arena headId with
    | none => pure (none, self, arena)
    | some node => do
      let fillAmount : UInt64 := min node.order.remainingQty.val qty.val
      let remaining ← pr.sub node.order.remainingQty.val fillAmount
      let arena := Slab.modify arena headId (fun node =>
        { node with order := { node.order with remainingQty := ⟨remaining⟩ } })
      let id := node.order.id
      let filledstatus : Bool := remaining = 0
      let total ← pr.sub self.totalQty.val fillAmount
      let self := { self with totalQty := ⟨total⟩ }
      if filledstatus then
        let (_, self, arena) ← self.popFront pr arena
        pure (some (id, ⟨fillAmount⟩, filledstatus), self, arena)
      else
        pure (some (id, ⟨fillAmount⟩, filledstatus), self, arena)

end Level

end Ordust
