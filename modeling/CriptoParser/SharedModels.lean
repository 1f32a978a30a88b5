import CriptoParser.PythonValues

set_option autoImplicit false

namespace CriptoParser

abbrev Fields := List (String × String)

structure PriceTick where
  exchange : String
  symbol : String
  bid : ℚ
  ask : ℚ
  bidVolume : Option ℚ
  askVolume : Option ℚ
  timestamp : ℤ
  receivedAt : ℤ
  latencyMs : ℤ
  deriving DecidableEq, Repr

structure Opportunity where
  id : String
  symbol : String
  buyExchange : String
  sellExchange : String
  buyPrice : ℚ
  sellPrice : ℚ
  grossSpreadPct : ℚ
  buyFeePct : ℚ
  sellFeePct : ℚ
  withdrawalFeeUsd : ℚ
  netSpreadPct : ℚ
  detectedAt : ℤ
  ttlSeconds : ℤ
  deriving DecidableEq, Repr

structure Trade where
  id : String
  opportunityId : String
  symbol : String
  buyExchange : String
  sellExchange : String
  buyPrice : ℚ
  sellPrice : ℚ
  amount : ℚ
  buyFee : ℚ
  sellFee : ℚ
  withdrawalFee : ℚ
  slippageCost : ℚ
  grossPnl : ℚ
  netPnl : ℚ
  status : String
  executedAt : Option ℤ
  durationMs : Option ℤ
  deriving DecidableEq, Repr

section
variable [PyText]

def fieldAt (data : Fields) (key : String) : Except PyExc String :=
  match data.lookup key with
  | some s => .ok s
  | none => .error .keyError

def floatAt (data : Fields) (key : String) : Except PyExc ℚ := do
  match PyText.floatStr (← fieldAt data key) with
  | some q => .ok q
  | none => .error .valueError

def textField (data : Fields) (key : String) : Except PyExc String :=
  match data.lookup key with
  | some s => .ok s
  | none => .error .valueError

/-- A required field holding a number; text that is no number fails the validation. -/
def numberField {α : Type} (read : String → Option α) (data : Fields) (key : String) :
    Except PyExc α := do
  match read (← textField data key) with
  | some x => .ok x
  | none => .error .valueError

def numberFieldOr {α : Type} (read : String → Option α) (default : α) (data : Fields)
    (key : String) : Except PyExc α :=
  match data.lookup key with
  | none => .ok default
  | some _ => numberField read data key

def positiveField (data : Fields) (key : String) : Except PyExc ℚ := do
  let x ← numberField PyText.floatStr data key
  if 0 < x then .ok x else .error .valueError

namespace PriceTick

def optionalFloat : Option ℚ → String
  | none => ""
  | some x => PyText.strFloat x

def toRedis (p : PriceTick) : Fields := [
  ("exchange", p.exchange), ("symbol", p.symbol),
  ("bid", PyText.strFloat p.bid), ("ask", PyText.strFloat p.ask),
  ("bid_volume", optionalFloat p.bidVolume), ("ask_volume", optionalFloat p.askVolume),
  ("timestamp", PyText.strInt p.timestamp), ("received_at", PyText.strInt p.receivedAt),
  ("latency_ms", PyText.strInt p.latencyMs)]

end PriceTick

namespace Opportunity

def toRedis (o : Opportunity) : Fields := [
  ("id", o.id), ("symbol", o.symbol),
  ("buy_exchange", o.buyExchange), ("sell_exchange", o.sellExchange),
  ("buy_price", PyText.strFloat o.buyPrice), ("sell_price", PyText.strFloat o.sellPrice),
  ("gross_spread_pct", PyText.strFloat o.grossSpreadPct),
  ("buy_fee_pct", PyText.strFloat o.buyFeePct), ("sell_fee_pct", PyText.strFloat o.sellFeePct),
  ("withdrawal_fee_usd", PyText.strFloat o.withdrawalFeeUsd),
  ("net_spread_pct", PyText.strFloat o.netSpreadPct),
  ("detected_at", PyText.strInt o.detectedAt), ("ttl_seconds", PyText.strInt o.ttlSeconds)]

def fromRedis (data : Fields) : Except PyExc Opportunity := do
  .ok {
    id := ← textField data "id"
    symbol := ← textField data "symbol"
    buyExchange := ← textField data "buy_exchange"
    sellExchange := ← textField data "sell_exchange"
    buyPrice := ← positiveField data "buy_price"
    sellPrice := ← positiveField data "sell_price"
    grossSpreadPct := ← numberField PyText.floatStr data "gross_spread_pct"
    buyFeePct := ← numberField PyText.floatStr data "buy_fee_pct"
    sellFeePct := ← numberField PyText.floatStr data "sell_fee_pct"
    withdrawalFeeUsd := ← numberFieldOr PyText.floatStr 0 data "withdrawal_fee_usd"
    netSpreadPct := ← numberField PyText.floatStr data "net_spread_pct"
    detectedAt := ← numberField PyText.intStr data "detected_at"
    ttlSeconds := ← numberFieldOr PyText.intStr 5 data "ttl_seconds" }

end Opportunity

namespace Trade

def optionalInt : Option ℤ → String
  | none => ""
  | some n => PyText.strInt n

def toRedis (t : Trade) : Fields := [
  ("id", t.id), ("opportunity_id", t.opportunityId), ("symbol", t.symbol),
  ("buy_exchange", t.buyExchange), ("sell_exchange", t.sellExchange),
  ("buy_price", PyText.strFloat t.buyPrice), ("sell_price", PyText.strFloat t.sellPrice),
  ("amount", PyText.strFloat t.amount),
  ("buy_fee", PyText.strFloat t.buyFee), ("sell_fee", PyText.strFloat t.sellFee),
  ("withdrawal_fee", PyText.strFloat t.withdrawalFee),
  ("slippage_cost", PyText.strFloat t.slippageCost),
  ("gross_pnl", PyText.strFloat t.grossPnl), ("net_pnl", PyText.strFloat t.netPnl),
  ("status", t.status),
  ("executed_at", optionalInt t.executedAt), ("duration_ms", optionalInt t.durationMs)]

def statuses : List String := ["pending", "completed", "failed", "cancelled"]

def statusField (data : Fields) : Except PyExc String :=
  match data.lookup "status" with
  | none => .ok "pending"
  | some s => if s ∈ statuses then .ok s else .error .valueError

def optionalIntField (data : Fields) (key : String) : Except PyExc (Option ℤ) :=
  match data.lookup key with
  | none | some "" => .ok none
  | some _ => some <$> numberField PyText.intStr data key

/-- A text field; the empty string has become `None` and fails the validation. -/
def nonemptyField (data : Fields) (key : String) : Except PyExc String := do
  let s ← textField data key
  if s = "" then .error .valueError else .ok s

/-- The empty string reads as `None`, which no number field accepts. -/
def readFloat (s : String) : Option ℚ := if s = "" then none else PyText.floatStr s

def fromRedis (data : Fields) : Except PyExc Trade := do
  .ok {
    id := ← nonemptyField data "id"
    opportunityId := ← nonemptyField data "opportunity_id"
    symbol := ← nonemptyField data "symbol"
    buyExchange := ← nonemptyField data "buy_exchange"
    sellExchange := ← nonemptyField data "sell_exchange"
    buyPrice := ← numberField readFloat data "buy_price"
    sellPrice := ← numberField readFloat data "sell_price"
    amount := ← numberField readFloat data "amount"
    buyFee := ← numberFieldOr readFloat 0 data "buy_fee"
    sellFee := ← numberFieldOr readFloat 0 data "sell_fee"
    withdrawalFee := ← numberFieldOr readFloat 0 data "withdrawal_fee"
    slippageCost := ← numberFieldOr readFloat 0 data "slippage_cost"
    grossPnl := ← numberField readFloat data "gross_pnl"
    netPnl := ← numberField readFloat data "net_pnl"
    status := ← statusField data
    executedAt := ← optionalIntField data "executed_at"
    durationMs := ← optionalIntField data "duration_ms" }

end Trade

end

end CriptoParser
