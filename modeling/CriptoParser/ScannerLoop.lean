import CriptoParser.ScannerSpreads
import CriptoParser.ServiceLoop

set_option autoImplicit false

namespace CriptoParser

open Await Streams

def scannerGroup : String := "scanner-cg"

/-- `dedup:opp:{symbol}:{buy}:{sell}`. -/
def dedupKey (opp : Opportunity) : String :=
  "dedup:opp:" ++ opp.symbol ++ ":" ++ opp.buyExchange ++ ":" ++ opp.sellExchange

def isNew (ttl : ℚ) (opp : Opportunity) : Task Bool := do
  Prog.call (S := Service) (.note (.checking opp))
  Prog.call (S := Service) (.setNxEx (dedupKey opp) ttl)

/-- `_opp_record`; the row time is `detected_at` in seconds. -/
def opportunityRecord (opp : Opportunity) : OpportunityRow where
  time := opp.detectedAt / 1000
  id := opp.id
  symbol := opp.symbol
  buyExchange := opp.buyExchange
  sellExchange := opp.sellExchange
  buyPrice := opp.buyPrice
  sellPrice := opp.sellPrice
  grossSpreadPct := opp.grossSpreadPct
  buyFeePct := opp.buyFeePct
  sellFeePct := opp.sellFeePct
  withdrawalFeeUsd := opp.withdrawalFeeUsd
  netSpreadPct := opp.netSpreadPct

section
variable [PyText]

def readTick (data : Fields) : Except PyExc (String × String × Quote) := do
  let symbol ← fieldAt data "symbol"
  let exchange ← fieldAt data "exchange"
  let bid ← floatAt data "bid"
  let ask ← floatAt data "ask"
  .ok (symbol, exchange, ⟨some bid, some ask⟩)

/-- The ticks go into the price table; `updated` is the set of their symbols. -/
def readTicks : List (Entry Fields) → List String → Task (List String)
  | [], updated => pure updated
  | entry :: rest, updated =>
    match readTick entry.payload with
    | .ok (symbol, exchange, quote) => do
      Prog.call (S := Service) (.putQuote symbol exchange quote)
      readTicks rest (if symbol ∈ updated then updated else updated ++ [symbol])
    | .error x =>
      if x = .keyError ∨ x = .valueError then readTicks rest updated
      else Prog.lift (.error x)

/-- `await r.mget(keys) if keys else []`. -/
def readDepths (symbol : String) (book : List (String × Quote)) :
    Task (String → Option String) :=
  if book.isEmpty then pure fun _ => none
  else Prog.call (S := Service) (.mget (book.map fun quote => depthKey quote.1 symbol))

def freshDepths (symbol : String) (nowMs : ℤ) (raws : String → Option String) :
    List (String × Quote) → Except PyExc (List (String × Depth))
  | [] => .ok []
  | (exchange, _) :: rest => do
    let parsed ← parseDepth (raws (depthKey exchange symbol))
    let more ← freshDepths symbol nowMs raws rest
    match parsed with
    | none => .ok more
    | some depth =>
      .ok (if isFresh (some depth) nowMs depthMaxAgeMs then (exchange, depth) :: more else more)

/-- The opportunities of the list that `is_new` lets through. -/
def claimNew (ttl : ℚ) : List Opportunity → Task (List Opportunity)
  | [] => pure []
  | opp :: rest => do
    let new ← isNew ttl opp
    let more ← claimNew ttl rest
    return if new then opp :: more else more

def scanSymbol (ttl : ℚ) (nowMs : ℤ) (symbol : String) : Task (List Opportunity) := do
  let book ← Prog.call (S := Service) (.book symbol)
  let raws ← readDepths symbol book
  let depth ← Prog.lift (freshDepths symbol nowMs raws book)
  let chosen ← Prog.call (S := Service) .scanSettings
  let now ← Prog.call (S := Service) .time
  let opps ← Prog.lift
    (calculateSpreads symbol book chosen.1 chosen.2 depth (pyInt (now * 1000)))
  claimNew ttl opps

def scanSymbols (ttl : ℚ) (nowMs : ℤ) : List String → Task (List Opportunity)
  | [] => pure []
  | symbol :: rest => do
    let found ← scanSymbol ttl nowMs symbol
    let more ← scanSymbols ttl nowMs rest
    return found ++ more

def publishOpportunities : List Opportunity → Task Unit
  | [] => pure ()
  | opp :: rest => do
    Prog.call (S := Service) (.xadd opportunitiesStream opp.toRedis)
    publishOpportunities rest

def publishAndStore (opps : List Opportunity) : Task Unit := do
  publishOpportunities opps
  Prog.call (S := Service) (.copyOpportunities (opps.map opportunityRecord))

def scanBatch (ttl : ℚ) (entries : List (Entry Fields)) : Task (List Opportunity) := do
  let updated ← readTicks entries []
  let now ← Prog.call (S := Service) .time
  let symbols ← Prog.call (S := Service) (.setOrder updated)
  scanSymbols ttl (pyInt (now * 1000)) symbols

def settleScan (entries : List (Entry Fields)) (found : List Opportunity) : Task Unit := do
  awaitIf (!found.isEmpty) (publishAndStore found)
  awaitIf (!entries.isEmpty) (Prog.call (S := Service)
    (.xack pricesStream scannerGroup (entries.map Entry.id)))

def scanTicks (ttl : ℚ) (entries : List (Entry Fields)) : Task Unit := do
  let found ← scanBatch ttl entries
  settleScan entries found

def scanOnce (ttl : ℚ) : Task Unit := do
  let resp ← Prog.call (S := Service) (.xreadgroup scannerGroup [pricesStream] 300)
  match resp with
  | [] => return ()
  | (_, entries) :: _ => scanTicks ttl entries

def scanLoop (ttl : ℚ) (n : ℕ) : Task Unit := loopFor (scanOnce ttl) n

end

end CriptoParser
