import Ordust.Code.WsClient

/-!
# `hyperliquidadapter.rs`

The JSON is decoded by `serde_json::from_str`, which is a parameter here.
-/

namespace Ordust

structure LevelData where
  px : String
  sz : String
  deriving DecidableEq, Repr

structure L2BookData where
  time : UInt64
  /-- Bids and asks. -/
  levels : List LevelData × List LevelData
  deriving DecidableEq, Repr

structure TradeData where
  px : String
  sz : String
  time : UInt64
  side : String
  deriving DecidableEq, Repr

inductive HyperliquidWsMsg where
  | l2Book (data : L2BookData)
  | trades (data : List TradeData)
  | noise
  deriving DecidableEq, Repr

structure HyperliquidAdapter where
  coin : String

namespace HyperliquidAdapter

variable {φ : Type} (f : F64 φ)

/-- `{"name":value,…}`, without blanks. -/
def jsonObject (fields : List (String × String)) : String :=
  let written := fields.map (fun (name, value) => "\"" ++ name ++ "\":" ++ value)
  String.singleton '{' ++ ",".intercalate written ++ String.singleton '}'

/-- `format!` puts the coin between quotation marks as it is. -/
def jsonString (text : String) : String := "\"" ++ text ++ "\""

def subscriptionPayload (self : HyperliquidAdapter) : Option String :=
  some (jsonObject [
    ("method", jsonString "subscribe"),
    ("subscription", jsonObject [
      ("type", jsonString "l2Book"),
      ("coin", jsonString self.coin)])])

/-- The closure `parse_level`. -/
def parseLevel (l : LevelData) : Option (Price × Qty) := do
  let price ← (f.parse l.px).toOption
  let qty ← (f.parse l.sz).toOption
  return (⟨f.toTicks price⟩, ⟨f.toTicks qty⟩)

/-- The arm of an `l2Book` message. -/
def depthUpdate (data : L2BookData) : DepthUpdate :=
  let bids := data.levels.1.filterMap (parseLevel f)
  let asks := data.levels.2.filterMap (parseLevel f)
  let timestampNs := UInt64.saturatingMul data.time 1000000
  { firstUpdateId := timestampNs, finalUpdateId := timestampNs, bids := bids, asks := asks }

/-- The arm of a `trades` message for its first trade. -/
def tradeTick (trade : TradeData) : Except WsError TradeTick := do
  let price ← (f.parse trade.px).mapError .parseError
  let qty ← (f.parse trade.sz).mapError .parseError
  return {
    timestamp := ⟨trade.time⟩
    price := ⟨f.toTicks price⟩
    qty := ⟨f.toTicks qty⟩
    isBuyerMaker := trade.side == "A" || trade.side == "SELL" }

def parseMessage (fromStr : String → Except String HyperliquidWsMsg) (payload : String) :
    Except WsError (Option RawMessage) := do
  let msg ← (fromStr payload).mapError .invalidUrl
  match msg with
  | .l2Book data => return some (.diff (depthUpdate f data))
  | .trades data =>
    match data.head? with
    | some trade => return some (.trade (← tradeTick f trade))
    | none => return none
  | .noise => return none

/-- The implementation of `ExchangeAdapter`. -/
def exchangeAdapter (fromStr : String → Except String HyperliquidWsMsg) (self : HyperliquidAdapter) :
    ExchangeAdapter :=
  { subscriptionPayload := self.subscriptionPayload
    parseMessage := parseMessage f fromStr }

end HyperliquidAdapter

end Ordust
