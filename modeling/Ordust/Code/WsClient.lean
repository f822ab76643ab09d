import Ordust.Code.MarketBook
import Ordust.Lib.Channel

/-!
# `ws_client.rs`, and the rest of the messages of `types.rs`

The task that `connect_and_spawn` spawns. It is written as a machine that stops at every `.await`;
an event says how the wait ended.
-/

namespace Ordust

/-- A `Duration`, in nanoseconds. -/
abbrev Duration := Nat

/-- What the code does with `f64`. -/
structure F64 (φ : Type) where
  /-- `s.parse::<f64>()`, or the text of the error. -/
  parse : String → Except String φ
  /-- `(x * 1e10).round() as u64` -/
  toTicks : φ → UInt64
  /-- `n as f64 / 1e10` -/
  ofTicks : UInt64 → φ
  /-- `Duration::from_secs_f64(d.as_secs_f64() * m)`, or nothing where the conversion panics. -/
  scale : Duration → φ → Option Duration

structure TradeTick where
  price : Price
  qty : Qty
  timestamp : Timestamp
  isBuyerMaker : Bool
  deriving DecidableEq, Repr

inductive WsError where
  | invalidUrl (message : String)
  | connectionFailed (message : String)
  | sendFailed (message : String)
  | parseError (message : String)
  deriving DecidableEq, Repr

inductive RawMessage where
  | diff (depth : DepthUpdate)
  | trade (tick : TradeTick)
  deriving DecidableEq, Repr

structure BackoffConfig (φ : Type) where
  minBackoff : Duration
  maxBackoff : Duration
  multiplier : φ

structure ExchangeAdapter where
  subscriptionPayload : Option String
  parseMessage : String → Except WsError (Option RawMessage)

structure WsClient (φ : Type) where
  url : String
  adapter : ExchangeAdapter
  channelCapacity : Nat
  backoff : BackoffConfig φ

def calculateNextBackoff {φ : Type} (f : F64 φ) (current : Duration) (config : BackoffConfig φ) :
    Option Duration :=
  (f.scale current config.multiplier).map (fun next => min next config.maxBackoff)

/-- The `.await` that the task is at. -/
inductive Phase where
  | connecting
  | subscribing (payload : String)
  | reading
  | sending (rawMsg : RawMessage)
  | sleeping
  /-- The task is over: it returned, or panicked. -/
  | done
  deriving DecidableEq, Repr

structure ClientTask where
  phase : Phase
  currentBackoff : Duration
  deriving DecidableEq, Repr

/-- What `read.next().await` gives. -/
inductive Incoming where
  | text (text : String)
  | ping
  | close
  /-- A frame of another kind. -/
  | other
  | transportError
  | ended
  deriving DecidableEq, Repr

inductive ClientEvent where
  | connected (ok : Bool)
  | subscribed (ok : Bool)
  | received (incoming : Incoming)
  | sent (ok : Bool)
  | slept
  deriving DecidableEq, Repr

namespace WsClient

variable {φ : Type}

/-- `mpsc::channel` panics on a capacity of zero. -/
def connectAndSpawn {C : Type} [Channel C RawMessage] (self : WsClient φ) :
    Checked (ClientTask × C) :=
  if self.channelCapacity = 0 then .error (.assertFailed "mpsc bounded channel requires buffer > 0")
  else
    pure ({ phase := .connecting, currentBackoff := self.backoff.minBackoff },
      Channel.new self.channelCapacity)

/-- What the task makes of a frame. -/
def onIncoming (self : WsClient φ) : Incoming → Phase
  | .text text =>
    match self.adapter.parseMessage text with
    | .ok (some rawMsg) => .sending rawMsg
    | .ok none => .reading
    | .error _ => .reading
  | .ping => .reading
  | .close => .sleeping
  | .other => .reading
  | .transportError => .sleeping
  | .ended => .sleeping

/-- The task goes on to its next `.await`, if the event can end the one that it is at. -/
def advance (f : F64 φ) (self : WsClient φ) (task : ClientTask) :
    ClientEvent → Option ClientTask
  | .connected ok =>
    match task.phase with
    | .connecting =>
      if ok then
        match self.adapter.subscriptionPayload with
        | some payload => some { task with phase := .subscribing payload }
        | none => some { phase := .reading, currentBackoff := self.backoff.minBackoff }
      else some { task with phase := .sleeping }
    | _ => none
  | .subscribed ok =>
    match task.phase with
    | .subscribing _ =>
      if ok then some { phase := .reading, currentBackoff := self.backoff.minBackoff }
      else some { task with phase := .sleeping }
    | _ => none
  | .received incoming =>
    match task.phase with
    | .reading => some { task with phase := self.onIncoming incoming }
    | _ => none
  | .sent ok =>
    match task.phase with
    | .sending _ => some { task with phase := if ok then .reading else .done }
    | _ => none
  | .slept =>
    match task.phase with
    | .sleeping =>
      match calculateNextBackoff f task.currentBackoff self.backoff with
      | some next => some { phase := .connecting, currentBackoff := next }
      | none => some { task with phase := .done }
    | _ => none

end WsClient

end Ordust
