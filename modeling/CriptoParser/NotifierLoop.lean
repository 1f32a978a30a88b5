import CriptoParser.CollectorWriter
import CriptoParser.GatewaySettings
import CriptoParser.NotifierQueue

set_option autoImplicit false

namespace CriptoParser

open Await Streams

class PyFormat where
  /-- `s.title()`. -/
  title : String → String
  /-- `f"{x:.nf}"`. -/
  fixed : ℕ → ℚ → String
  /-- `f"{x:,.nf}"`. -/
  grouped : ℕ → ℚ → String
  /-- `strftime("%Y-%m-%d %H:%M:%S UTC")` of the time in UTC. -/
  utcText : ℚ → String

section
variable [PyFormat]

def priceText (value : ℚ) : String := "$" ++ PyFormat.grouped 2 value

def utc (ms : ℤ) : Except PyExc String := PyFormat.utcText <$> fromTimestamp ms

def formatOpportunity (opp : Opportunity) : Except PyExc String := do
  let detected ← utc opp.detectedAt
  return "🚨 Arbitrage Opportunity Detected!\n\n" ++
    "Pair: " ++ opp.symbol ++ "\n" ++
    "Buy: " ++ PyFormat.title opp.buyExchange ++ " @ " ++ priceText opp.buyPrice ++ "\n" ++
    "Sell: " ++ PyFormat.title opp.sellExchange ++ " @ " ++ priceText opp.sellPrice ++ "\n\n" ++
    "Spread: " ++ PyFormat.fixed 3 opp.grossSpreadPct ++ "%\n" ++
    "Net Spread: " ++ PyFormat.fixed 3 opp.netSpreadPct ++ "%\n\n" ++
    "⏱ Detected: " ++ detected

def formatTrade (trade : Trade) : String :=
  (if 0 ≤ trade.netPnl then "🟢" else "🔴") ++ " Paper Trade Executed\n\n" ++
    "Pair: " ++ trade.symbol ++ "\n" ++
    "Buy: " ++ PyFormat.title trade.buyExchange ++ " @ " ++ priceText trade.buyPrice ++ "\n" ++
    "Sell: " ++ PyFormat.title trade.sellExchange ++ " @ " ++ priceText trade.sellPrice ++ "\n" ++
    "Amount: " ++ PyFormat.fixed 6 trade.amount ++ "\n\n" ++
    "Gross P&L: " ++ priceText trade.grossPnl ++ "\n" ++
    "Net P&L: " ++ priceText trade.netPnl ++ "\n" ++
    "Status: " ++ trade.status

end

def notifierGroup : String := "notifier-cg"

inductive NotifierCall where
  | telegram (c : TelegramCall)
  | spreadThreshold | tradeMinPnl
  | countSuppressed
  | xreadgroup (streams : List String) (count : ℕ)
  | xack (stream : String) (ids : List ℕ)
  | sleep (seconds : ℚ)

abbrev NotifierCall.Reply : NotifierCall → Type
  | .telegram c => c.Reply
  | .spreadThreshold | .tradeMinPnl => PyFloat
  | .xreadgroup _ _ => List (String × List (Entry Fields))
  | _ => Unit

/-- Steps inside the process cannot fail; the queue has the faults of its own calls. -/
def NotifierCall.isLocal : NotifierCall → Bool
  | .telegram _ | .spreadThreshold | .tradeMinPnl | .countSuppressed => true
  | _ => false

abbrev Notifier : Signature := ⟨NotifierCall, NotifierCall.Reply, PyExc⟩

/-- What the outside decides about one call. `_refresh_thresholds` sets the thresholds. -/
structure NotifierOutside where
  fault : Option PyExc
  spreadThreshold : PyFloat
  tradeMinPnl : PyFloat
  arrivals : List (String × Fields)

structure NotifierWorld where
  queue : QueueWorld
  streams : String → Log Fields
  tradesSuppressed : ℕ
  outside : ℕ → NotifierOutside
  tick : ℕ

namespace NotifierWorld

def now (w : NotifierWorld) : NotifierOutside := w.outside w.tick

def arrive (w : NotifierWorld) : NotifierWorld :=
  { w with
    streams := fun s =>
      (w.streams s).append ((w.now.arrivals.filter (fun a => a.1 = s)).map Prod.snd) }

def readGroup (w : NotifierWorld) (names : List String) (count : ℕ) :
    List (String × List (Entry Fields)) :=
  (names.map fun s => (s, (w.streams s).fresh notifierGroup count)).filter
    (fun r => !r.2.isEmpty)

def answer (w : NotifierWorld) : (c : NotifierCall) → Except PyExc c.Reply
  | .telegram c => (QueueWorld.serve c w.queue).1
  | .spreadThreshold => .ok w.now.spreadThreshold
  | .tradeMinPnl => .ok w.now.tradeMinPnl
  | .countSuppressed => .ok ()
  | .xreadgroup names count => .ok (w.readGroup names count)
  | .xack _ _ => .ok ()
  | .sleep _ => .ok ()

def effect (w : NotifierWorld) : NotifierCall → NotifierWorld
  | .telegram c => { w with queue := (QueueWorld.serve c w.queue).2 }
  | .spreadThreshold | .tradeMinPnl | .sleep _ => w
  | .countSuppressed => { w with tradesSuppressed := w.tradesSuppressed + 1 }
  | .xreadgroup names count =>
    { w with
      streams := fun s =>
        if s ∈ names then (w.streams s).deliver notifierGroup count else w.streams s }
  | .xack stream ids =>
    { w with
      streams := Function.update w.streams stream ((w.streams stream).ack notifierGroup ids) }

def next (w : NotifierWorld) : NotifierWorld := { w with tick := w.tick + 1 }

def fault (w : NotifierWorld) (c : NotifierCall) : Option PyExc :=
  if c.isLocal then none else w.now.fault

def serve : Server Notifier NotifierWorld := fun c w =>
  match w.fault c with
  | none => (w.arrive.answer c, (w.arrive.effect c).next)
  | some x => (.error x, if x.served then (w.arrive.effect c).next else w.arrive.next)

end NotifierWorld

def overQueue {α : Type} : Prog Telegram α → Prog Notifier α
  | .done r => .done r
  | .await c k => .await (.telegram c) fun r => overQueue (k r)

section
variable [PyText] [PyFormat]

def notifyOpportunity (defaultChat : String) (fields : Fields) : Prog Notifier Unit := do
  let opp ← Prog.lift (Opportunity.fromRedis fields)
  let threshold ← Prog.call (S := Notifier) .spreadThreshold
  if threshold.le (.finite opp.grossSpreadPct) then do
    let text ← Prog.lift (formatOpportunity opp)
    let _ ← overQueue (enqueue defaultChat text none)
    return ()
  else return ()

def notifyTrade (defaultChat : String) (fields : Fields) : Prog Notifier Unit := do
  let trade ← Prog.lift (Trade.fromRedis fields)
  let minPnl ← Prog.call (S := Notifier) .tradeMinPnl
  if minPnl.le (.finite |trade.netPnl|) then do
    let _ ← overQueue (enqueue defaultChat (formatTrade trade) none)
    return ()
  else Prog.call (S := Notifier) .countSuppressed

def handleEntry (defaultChat stream : String) (fields : Fields) : Prog Notifier Unit :=
  (if stream = opportunitiesStream then notifyOpportunity defaultChat fields
    else if stream = tradesStream then notifyTrade defaultChat fields
    else pure ()).handle fun x =>
      if x.isException then pure () else Prog.lift (.error x)

def handleEntries (defaultChat stream : String) : List (Entry Fields) → Prog Notifier Unit
  | [] => pure ()
  | entry :: rest => do
    handleEntry defaultChat stream entry.payload
    handleEntries defaultChat stream rest

def handleStreams (defaultChat : String) :
    List (String × List (Entry Fields)) → Prog Notifier Unit
  | [] => pure ()
  | (stream, entries) :: rest => do
    handleEntries defaultChat stream entries
    if entries = [] then pure ()
    else Prog.call (S := Notifier) (.xack stream (entries.map Entry.id))
    handleStreams defaultChat rest

def notifierBody (defaultChat : String) : Prog Notifier Unit := do
  let resp ← Prog.call (S := Notifier) (.xreadgroup [opportunitiesStream, tradesStream] 50)
  if resp = [] then pure () else handleStreams defaultChat resp

def notifierHandler (x : PyExc) : Prog Notifier Unit :=
  if x.isException then Prog.call (S := Notifier) (.sleep 1) else Prog.lift (.error x)

def notifierLoop (defaultChat : String) : ℕ → Prog Notifier Unit
  | 0 => pure ()
  | n + 1 => do
    (notifierBody defaultChat).handle notifierHandler
    notifierLoop defaultChat n

end

end CriptoParser
