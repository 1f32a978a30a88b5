import CriptoParser.FloatDepth
import CriptoParser.FloatOrder
import CriptoParser.ScannerSpreads

set_option autoImplicit false

namespace CriptoParser.Floating

structure Quote where
  bid : Option PyFloat
  ask : Option PyFloat

structure Opportunity where
  id : String
  symbol : String
  buyExchange : String
  sellExchange : String
  buyPrice : PyFloat
  sellPrice : PyFloat
  grossSpreadPct : PyFloat
  buyFeePct : PyFloat
  sellFeePct : PyFloat
  withdrawalFeeUsd : PyFloat
  netSpreadPct : PyFloat
  detectedAt : ℤ
  ttlSeconds : ℤ
  deriving DecidableEq, Repr

/-- `(sell_price - buy_price) / buy_price * 100`. -/
def grossSpread (buyPrice sellPrice : PyFloat) : Except PyExc PyFloat := do
  let ratio ← (sellPrice.sub buyPrice).div buyPrice
  .ok (ratio.mul (.finite 100))

/-- `withdrawal_usd / estimated_notional_usd * 100`. -/
def withdrawalPct (withdrawalUsd notional : PyFloat) : Except PyExc PyFloat := do
  let ratio ← withdrawalUsd.div notional
  .ok (ratio.mul (.finite 100))

def takerFee (cfg : ExchangeConfig) : PyFloat := FloatRounding.round cfg.takerFeePct

def withdrawalUsdt (cfg : ExchangeConfig) : PyFloat := FloatRounding.round cfg.withdrawalUsdt

section
variable [PyText] [PyReader]

def routePrices (notional : PyFloat) (buyDepth sellDepth : Option Depth) (topAsk topBid : PyFloat) :
    Except PyExc (Option (PyFloat × PyFloat)) :=
  match buyDepth, sellDepth with
  | some buy, some sell => do
    match ← walkAsksForNotional buy.asks notional with
    | none => .ok none
    | some (amount, vwapBuy) =>
      match ← walkBidsForAmount sell.bids amount with
      | none => .ok none
      | some vwapSell => .ok (some (vwapBuy, vwapSell))
  | _, _ => .ok (some (topAsk, topBid))

/-- The opportunity of a route; `Field(gt=0)` refuses a price that is not positive. -/
def routeOpportunity (symbol : String) (notional : PyFloat) (now : ℤ) (buyEx sellEx : String)
    (buyPrice sellPrice gross : PyFloat) : Except PyExc Opportunity := do
  let some buy := exchangeConfig buyEx | .error .keyError
  let some sell := exchangeConfig sellEx | .error .keyError
  let share ← withdrawalPct (withdrawalUsdt sell) notional
  let net := ((gross.sub (takerFee buy)).sub (takerFee sell)).sub share
  if (PyFloat.finite 0).lt buyPrice && (PyFloat.finite 0).lt sellPrice then .ok {
    id := opportunityId now buyEx sellEx symbol
    symbol := symbol
    buyExchange := buyEx
    sellExchange := sellEx
    buyPrice := buyPrice
    sellPrice := sellPrice
    grossSpreadPct := gross.round 4
    buyFeePct := takerFee buy
    sellFeePct := takerFee sell
    withdrawalFeeUsd := withdrawalUsdt sell
    netSpreadPct := net.round 4
    detectedAt := now
    ttlSeconds := 5 }
  else .error .valueError

def spreadRoute (symbol : String) (minSpread notional : PyFloat) (depth : List (String × Depth))
    (now : ℤ) (buyEx : String) (topAsk : PyFloat) (sellEx : String) (topBid : PyFloat) :
    Except PyExc (Option Opportunity) := do
  match ← routePrices notional (depth.lookup buyEx) (depth.lookup sellEx) topAsk topBid with
  | none => .ok none
  | some (buyPrice, sellPrice) =>
    let gross ← grossSpread buyPrice sellPrice
    if gross.lt minSpread then .ok none
    else some <$> routeOpportunity symbol notional now buyEx sellEx buyPrice sellPrice gross

def sellLoop (symbol : String) (minSpread notional : PyFloat) (depth : List (String × Depth))
    (now : ℤ) (buyEx : String) (topAsk : PyFloat) :
    List (String × Quote) → Except PyExc (List Opportunity)
  | [] => .ok []
  | (sellEx, quote) :: rest =>
    if sellEx = buyEx ∨ (quote.bid.getD (.finite 0)).le (.finite 0) then
      sellLoop symbol minSpread notional depth now buyEx topAsk rest
    else do
      let found ← spreadRoute symbol minSpread notional depth now buyEx topAsk sellEx
        (quote.bid.getD (.finite 0))
      let more ← sellLoop symbol minSpread notional depth now buyEx topAsk rest
      .ok (found.toList ++ more)

def buyLoop (symbol : String) (minSpread notional : PyFloat) (depth : List (String × Depth))
    (now : ℤ) (known : List (String × Quote)) :
    List (String × Quote) → Except PyExc (List Opportunity)
  | [] => .ok []
  | (buyEx, quote) :: rest =>
    if (quote.ask.getD (.finite 0)).le (.finite 0) then
      buyLoop symbol minSpread notional depth now known rest
    else do
      let found ← sellLoop symbol minSpread notional depth now buyEx
        (quote.ask.getD (.finite 0)) known
      let more ← buyLoop symbol minSpread notional depth now known rest
      .ok (found ++ more)

def calculateSpreads (symbol : String) (prices : List (String × Quote))
    (minSpread notional : PyFloat) (depth : List (String × Depth)) (now : ℤ) :
    Except PyExc (List Opportunity) :=
  let known := prices.filter fun p => (exchangeConfig p.1).isSome
  buyLoop symbol minSpread notional depth now known known

end

end CriptoParser.Floating
