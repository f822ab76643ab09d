import Ordust.Code.WsClient
import Ordust.Code.Reconciler

/-!
# `main.rs` and the loop of `tui.rs`

Three tasks: the client behind `connect_and_spawn`, the background task that feeds the reconciler
and publishes a view, and the loop that draws. A channel leads from the first to the second, a
`watch` from the second to the third. An action lets one of them go on to the next point where
another can see what it did.
-/

namespace Ordust

structure OrderBookView (φ : Type) where
  symbol : String
  isSynced : Bool
  lastUpdateId : UInt64
  bids : List (φ × φ)
  asks : List (φ × φ)
  deriving DecidableEq, Repr

variable {φ : Type}

/-- `OrderBookView { symbol, ..Default::default() }` -/
def OrderBookView.default (symbol : String) : OrderBookView φ :=
  { symbol := symbol, isSynced := false, lastUpdateId := 0, bids := [], asks := [] }

/-- What the background task keeps from one message to the next. -/
structure Background where
  reconciler : Reconciler
  msgCounter : UInt64

namespace Background

def new : Background := { reconciler := Reconciler.new, msgCounter := 0 }

def toFloats (f : F64 φ) (levels : List (Price × Qty)) : List (φ × φ) :=
  levels.map (fun e => (f.ofTicks e.1.val, f.ofTicks e.2.val))

/-- The view that is sent after a depth message. -/
def view (f : F64 φ) (symbol : String) (reconciler : Reconciler) : OrderBookView φ :=
  match reconciler.book with
  | some book =>
    { symbol := symbol
      isSynced := true
      lastUpdateId := book.lastUpdateId
      bids := toFloats f (book.depth .buy 20)
      asks := toFloats f (book.depth .sell 20) }
  | none => { symbol := symbol, isSynced := false, lastUpdateId := 0, bids := [], asks := [] }

/-- The body of the `while let` loop. What `on_snapshot` returns is ignored. -/
def onMessage (pr : Profile) (f : F64 φ) (symbol : String) (self : Background) (msg : RawMessage) :
    Checked (Option (OrderBookView φ) × Background) := do
  let msgCounter ← pr.add self.msgCounter 1
  match msg with
  | .diff depth =>
    let snapshot : Snapshot :=
      { lastUpdateId := depth.finalUpdateId, bids := depth.bids, asks := depth.asks }
    let (_, reconciler) ← self.reconciler.onSnapshot pr snapshot
    return (some (view f symbol reconciler), { reconciler := reconciler, msgCounter := msgCounter })
  | .trade _ => return (none, { self with msgCounter := msgCounter })

end Background

/-- Where the background task is. -/
inductive BackgroundTask where
  /-- At `rx.recv().await`. -/
  | receiving (state : Background)
  /-- It has received a message, and sends what it makes of it to the screen next. -/
  | handling (state : Background) (msg : RawMessage)
  /-- The task is over: its loop ended, or it panicked. -/
  | done

/-- The whole program between two steps of its tasks. -/
structure Terminal (C W : Type) where
  client : ClientTask
  channel : C
  background : BackgroundTask
  /-- The `watch` channel. -/
  shown : W
  /-- The loop of `TerminalUi::run` goes on. -/
  running : Bool

inductive Action where
  | client (event : ClientEvent)
  /-- `rx.recv()` -/
  | recv
  /-- The body of the `while let` loop, up to `ui_tx.send`. -/
  | publish
  /-- `render_interval.tick()` -/
  | tick
  /-- A key, that ends the loop or does not. -/
  | key (quit : Bool)
  deriving DecidableEq, Repr

inductive Blocked where
  | blocked
  deriving DecidableEq, Repr

namespace Terminal

variable {C W : Type} [Channel C RawMessage] [Watch W (OrderBookView φ)]

def start (client : WsClient φ) (symbol : String) : Checked (Terminal C W) := do
  let (task, channel) ← client.connectAndSpawn
  return {
    client := task
    channel := channel
    background := .receiving Background.new
    shown := Watch.channel (OrderBookView.default symbol : OrderBookView φ)
    running := true }

/-- A task that is over drops its end of the channel. -/
def clientGoes (self : Terminal C W) (task : ClientTask) (channel : C) : Terminal C W :=
  { self with
    client := task
    channel := if task.phase = .done then Channel.dropSender channel else channel }

/-- The client takes a step; one that sends waits for the channel. -/
def stepClient (f : F64 φ) (client : WsClient φ) (self : Terminal C W) (event : ClientEvent) :
    Option (Terminal C W) := do
  let task ← client.advance f self.client event
  match event with
  | .sent ok =>
    match self.client.phase with
    | .sending rawMsg =>
      let (taken, channel) ← Channel.send self.channel rawMsg
      if ok = taken then some (self.clientGoes task channel) else none
    | _ => none
  | _ => some (self.clientGoes task self.channel)

/-- A background task that is over drops its ends of both channels. -/
def backgroundEnds (self : Terminal C W) (channel : C) : Terminal C W :=
  { self with
    background := .done
    channel := Channel.dropReceiver channel
    shown := Watch.dropSender self.shown }

/-- The background task receives, or the stream is at its end. -/
def stepRecv (self : Terminal C W) : Option (Terminal C W) :=
  match self.background with
  | .receiving background => do
    let (received, channel) ← Channel.recv self.channel
    match received with
    | some msg => some { self with background := .handling background msg, channel := channel }
    | none => some (self.backgroundEnds channel)
  | _ => none

/-- The background task handles what it has received. A panic ends it. -/
def stepPublish (pr : Profile) (f : F64 φ) (symbol : String) (self : Terminal C W) :
    Option (Terminal C W) :=
  match self.background with
  | .handling background msg =>
    match background.onMessage pr f symbol msg with
    | .ok (view, background) =>
      some { self with
        background := .receiving background
        shown := view.elim self.shown (Watch.send self.shown) }
    | .error _ => some (self.backgroundEnds self.channel)
  | _ => none

/-- What a task does that draws nothing, if it can go on. -/
def quietly (next : Option (Terminal C W)) :
    Except Blocked (Option (OrderBookView φ) × Terminal C W) :=
  match next with
  | some next => .ok (none, next)
  | none => .error .blocked

/-- A step, and the frame that it draws. Quitting ends the process, and every task with it. -/
def step (pr : Profile) (f : F64 φ) (client : WsClient φ) (symbol : String) (self : Terminal C W)
    (action : Action) : Except Blocked (Option (OrderBookView φ) × Terminal C W) :=
  if self.running then
    match action with
    | .client event => quietly (self.stepClient f client event)
    | .recv => quietly self.stepRecv
    | .publish => quietly (self.stepPublish pr f symbol)
    | .tick =>
      let (view, shown) := Watch.borrowAndUpdate self.shown
      .ok (some view, { self with shown := shown })
    | .key quit => .ok (none, { self with running := !quit })
  else .error .blocked

def run (pr : Profile) (f : F64 φ) (client : WsClient φ) (symbol : String) (self : Terminal C W)
    (actions : List Action) : Except Blocked (List (Option (OrderBookView φ)) × Terminal C W) :=
  Runs.exec (step pr f client symbol) self actions

end Terminal

end Ordust
