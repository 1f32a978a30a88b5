import CriptoParser.AwaitProgram
import CriptoParser.ConsumerGroup
import CriptoParser.ExpiringKeys
import CriptoParser.SharedModels
import Mathlib.Algebra.BigOperators.Group.List.Basic
import Mathlib.Algebra.Order.Ring.Rat

/-!
What the services share: the calls they make to Redis, to the database, to the
clock and to their own process memory, and the world that answers them.

The world carries one record of outside choices per call: the clocks, the depth
keys as the collector has left them, entries other producers append, and whether
the call fails. Quantifying over worlds quantifies over all of these.
-/

set_option autoImplicit false

namespace CriptoParser

open Await Streams Expiry

structure TradeRow where
  time : ℚ
  id : String
  opportunityId : String
  symbol : String
  buyExchange : String
  sellExchange : String
  buyPrice : ℚ
  sellPrice : ℚ
  amount : ℚ
  buyFee : ℚ
  sellFee : ℚ
  withdrawalFee : ℚ
  slippageCost : ℚ
  grossPnl : ℚ
  netPnl : ℚ
  status : String
  executedAt : ℚ
  durationMs : Option ℤ
  deriving DecidableEq, Repr

structure BalanceRow where
  time : ℚ
  exchange : String
  asset : String
  amount : ℚ
  tradeId : Option String
  changeAmount : Option ℚ
  reason : String
  deriving DecidableEq, Repr

structure OpportunityRow where
  time : ℚ
  id : String
  symbol : String
  buyExchange : String
  sellExchange : String
  buyPrice : ℚ
  sellPrice : ℚ
  grossSpreadPct : ℚ
  buyFeePct : ℚ
  sellFeePct : ℚ
  withdrawalFeeUsd : ℚ
  netSpreadPct : ℚ
  deriving DecidableEq, Repr

structure PriceRow where
  time : ℚ
  exchange : String
  symbol : String
  bid : ℚ
  ask : ℚ
  bidVolume : Option ℚ
  askVolume : Option ℚ
  latencyMs : Option ℤ
  deriving DecidableEq, Repr

/-- One exchange's entry of the scanner's price table. -/
structure Quote where
  bid : Option ℚ
  ask : Option ℚ
  deriving DecidableEq, Repr

structure SetOrder where
  arrange : List String → List String
  perm : ∀ l, (arrange l).Perm l

instance : Inhabited SetOrder := ⟨⟨id, fun _ => .refl _⟩⟩

structure RebalanceResult where
  donor : String
  receiver : String
  grossAmount : ℚ
  fee : ℚ
  netAmount : ℚ
  donorNewBalance : ℚ
  receiverNewBalance : ℚ
  deriving DecidableEq, Repr

structure ExecutionResult where
  trade : Trade
  balanceUpdates : List (String × ℚ × ℚ)
  rebalance : Option RebalanceResult
  deriving DecidableEq, Repr

inductive Note where
  /-- The log line `rebalance_executed`. -/
  | rebalanceExecuted (donor receiver : String) (gross fee net : ℚ) : Note
  /-- `execute_opportunity` is called. -/
  | started : Opportunity → Note
  /-- `execute_opportunity` has returned, with a trade or without. -/
  | returned : Option ExecutionResult → Note
  /-- `POST /killswitch` has responded. -/
  | responded : Bool → Note
  /-- `is_new` is called. -/
  | checking : Opportunity → Note

inductive Call where
  -- the clock and the memory of the process: no await
  | time | uuid4
  | killSwitch
  | setKillSwitch (active : Bool)
  | book (symbol : String)
  | putQuote (symbol exchange : String) (quote : Quote)
  | setOrder (items : List String)
  | scanSettings
  | note (n : Note)
  -- Redis
  | get (key : String)
  | set (key value : String)
  | setNxEx (key : String) (ttl : ℚ)
  | hget (key field : String)
  | hset (key field : String) (value : ℚ)
  | hincrbyfloat (key field : String) (delta : ℚ)
  | mget (keys : List String)
  | xadd (stream : String) (fields : Fields)
  | xreadgroup (group : String) (streams : List String) (count : ℕ)
  | xack (stream group : String) (ids : List ℕ)
  | lpush (key value : String)
  -- the database
  | copyTrades (rows : List TradeRow)
  | copyBalance (rows : List BalanceRow)
  | copyOpportunities (rows : List OpportunityRow)
  | copyPrices (rows : List PriceRow)
  | insertPrice (row : PriceRow)
  | sleep (seconds : ℚ)

namespace Call

/-- `mget` answers with the value under each key; `xreadgroup` lists the streams
that have new entries. -/
abbrev Reply : Call → Type
  | .time => ℚ
  | .uuid4 => String
  | .killSwitch => Bool
  | .book _ => List (String × Quote)
  | .setOrder _ => List String
  | .scanSettings => ℚ × ℚ
  | .get _ => Option String
  | .setNxEx _ _ => Bool
  | .hget _ _ => Option ℚ
  | .hincrbyfloat _ _ _ => ℚ
  | .mget _ => String → Option String
  | .xreadgroup _ _ _ => List (String × List (Entry Fields))
  | _ => Unit

def isLocal : Call → Bool
  | .time | .uuid4 | .killSwitch | .setKillSwitch _ | .book _ | .putQuote _ _ _
  | .setOrder _ | .scanSettings | .note _ => true
  | _ => false

end Call

abbrev Service : Signature := ⟨Call, Call.Reply, PyExc⟩

abbrev Task (α : Type) := Prog Service α

structure Outside where
  /-- The exception the await raises, if it does. -/
  fault : Option PyExc
  /-- `time.time()` of the service. -/
  time : ℚ
  /-- The clock of the Redis server. -/
  clock : ℚ
  uuid : String
  depth : String → Option String
  scanSettings : ℚ × ℚ
  order : SetOrder
  /-- Entries other producers have appended since the previous call. -/
  arrivals : List (String × Fields)

instance : Inhabited Outside := ⟨⟨none, 0, 0, "", fun _ => none, (0, 0), default, []⟩⟩

structure World where
  hashes : String → String → Option ℚ
  strings : String → Option String
  expiring : Keys String ℚ
  streams : String → Log Fields
  lists : String → List String
  trades : List TradeRow
  balance : List BalanceRow
  opportunities : List OpportunityRow
  prices : List PriceRow
  /-- `engine.kill_switch`. -/
  killSwitch : Bool
  /-- The scanner's price table: symbol, then exchange in order of arrival. -/
  books : String → List (String × Quote)
  outside : ℕ → Outside
  tick : ℕ

/-- `d[key] = value` on a dict that keeps the order of insertion. -/
def dictSet {β : Type} (key : String) (value : β) : List (String × β) → List (String × β)
  | [] => [(key, value)]
  | kv :: rest => if kv.1 = key then (key, value) :: rest else kv :: dictSet key value rest

namespace World

def now (w : World) : Outside := w.outside w.tick

/-- The entries of other producers are in their streams. -/
def arrive (w : World) : World :=
  { w with
    streams := fun s =>
      (w.streams s).append ((w.now.arrivals.filter (fun a => a.1 = s)).map Prod.snd) }

def readGroup (w : World) (group : String) (names : List String) (count : ℕ) :
    List (String × List (Entry Fields)) :=
  (names.map fun s => (s, (w.streams s).fresh group count)).filter (fun r => !r.2.isEmpty)

def answer (w : World) : (c : Call) → c.Reply
  | .time => w.now.time
  | .uuid4 => w.now.uuid
  | .killSwitch => w.killSwitch
  | .setKillSwitch _ => ()
  | .book symbol => w.books symbol
  | .putQuote _ _ _ => ()
  | .setOrder items => w.now.order.arrange items
  | .scanSettings => w.now.scanSettings
  | .note _ => ()
  | .get key => w.strings key
  | .set _ _ => ()
  | .setNxEx key ttl => (claim w.expiring key w.now.clock ttl).1
  | .hget key field => w.hashes key field
  | .hset _ _ _ => ()
  | .hincrbyfloat key field delta => (w.hashes key field).getD 0 + delta
  | .mget _ => w.now.depth
  | .xadd _ _ => ()
  | .xreadgroup group names count => w.readGroup group names count
  | .xack _ _ _ => ()
  | .lpush _ _ => ()
  | .copyTrades _ => ()
  | .copyBalance _ => ()
  | .copyOpportunities _ => ()
  | .copyPrices _ => ()
  | .insertPrice _ => ()
  | .sleep _ => ()

def setHash (w : World) (key field : String) (value : ℚ) : World :=
  { w with
    hashes := Function.update w.hashes key
      (Function.update (w.hashes key) field (some value)) }

def setStream (w : World) (name : String) (s : Log Fields) : World :=
  { w with streams := Function.update w.streams name s }

def deliverAll (w : World) (group : String) (names : List String) (count : ℕ) : World :=
  { w with
    streams := fun s =>
      if s ∈ names then (w.streams s).deliver group count else w.streams s }

def effect (w : World) : Call → World
  | .time | .uuid4 | .killSwitch | .book _ | .setOrder _ | .scanSettings | .note _
  | .get _ | .hget _ _ | .mget _ | .sleep _ => w
  | .setKillSwitch active => { w with killSwitch := active }
  | .putQuote symbol exchange quote =>
    { w with
      books := Function.update w.books symbol (dictSet exchange quote (w.books symbol)) }
  | .set key value => { w with strings := Function.update w.strings key (some value) }
  | .setNxEx key ttl => { w with expiring := (claim w.expiring key w.now.clock ttl).2 }
  | .hset key field value => w.setHash key field value
  | .hincrbyfloat key field delta =>
    w.setHash key field ((w.hashes key field).getD 0 + delta)
  | .xadd stream fields => w.setStream stream ((w.streams stream).append [fields])
  | .xreadgroup group names count => w.deliverAll group names count
  | .xack stream group ids => w.setStream stream ((w.streams stream).ack group ids)
  | .lpush key value =>
    { w with lists := Function.update w.lists key (value :: w.lists key) }
  | .copyTrades rows => { w with trades := w.trades ++ rows }
  | .copyBalance rows => { w with balance := w.balance ++ rows }
  | .copyOpportunities rows => { w with opportunities := w.opportunities ++ rows }
  | .copyPrices rows => { w with prices := w.prices ++ rows }
  | .insertPrice row => { w with prices := w.prices ++ [row] }

def next (w : World) : World := { w with tick := w.tick + 1 }

def fault (w : World) (c : Call) : Option PyExc := if c.isLocal then none else w.now.fault

/-- The world as the server of all calls. A call that raises may have been carried out. -/
def serve : Server Service World := fun c w =>
  match w.fault c with
  | none => (.ok (w.arrive.answer c), (w.arrive.effect c).next)
  | some x => (.error x, if x.served then (w.arrive.effect c).next else w.arrive.next)

def start (outside : ℕ → Outside) : World where
  hashes := fun _ _ => none
  strings := fun _ => none
  expiring := fun _ => none
  streams := fun _ => ⟨[], fun _ => ⟨0, []⟩⟩
  lists := fun _ => []
  trades := []
  balance := []
  opportunities := []
  prices := []
  killSwitch := false
  books := fun _ => []
  outside := outside
  tick := 0

def Calm (w : World) : Prop := ∀ n, (w.outside n).fault = none

end World

end CriptoParser
