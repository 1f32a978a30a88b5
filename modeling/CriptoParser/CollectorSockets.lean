import CriptoParser.AwaitRules
import CriptoParser.SharedDepth
import CriptoParser.SharedModels

/-!
The sockets of one exchange. A task watches one symbol, or a chunk of them, and publishes each
book it gets; after an error it waits and tries again. Any await may raise, also by being
cancelled, and the tasks share the status, the counter and the handshake semaphore.
-/

set_option autoImplicit false

namespace CriptoParser

open Await

/-- A book as the exchange library returns it. The library keeps updating its book; it is assumed
not to do so while the book is handled, between the tick and the document. -/
structure OrderBook where
  symbol : Option String
  bids : List (List ℚ)
  asks : List (List ℚ)
  timestamp : Option ℤ
  deriving DecidableEq, Repr

inductive SocketStatus where
  | connecting
  | connected
  | reconnecting
  | disconnected
  deriving DecidableEq, Repr

inductive SocketCall where
  | running
  | setStatus (status : SocketStatus)
  /-- `__aenter__` of the handshake semaphore. -/
  | acquire
  /-- `__aexit__` of the handshake semaphore. -/
  | release
  | watchOrderBook (symbol : String)
  | watchOrderBookForSymbols (symbols : List String)
  | uniform (low high : ℚ)
  | sleep (seconds : ℚ)
  | time
  | xadd (fields : Fields)
  | set (key value : String) (ex : ℕ)
  | countMessage
  deriving DecidableEq, Repr

abbrev SocketCall.Reply : SocketCall → Type
  | .running => Bool
  | .watchOrderBook _ => OrderBook
  | .watchOrderBookForSymbols _ => OrderBook
  | .uniform _ _ => ℚ
  | .time => ℚ
  | _ => Unit

abbrev Sockets : Signature := ⟨SocketCall, SocketCall.Reply, PyExc⟩

structure SocketOutside where
  fault : Option PyExc
  book : OrderBook
  pick : ℕ
  running : Bool
  time : ℚ
  draw : { x : ℚ // 0 ≤ x ∧ x ≤ 1 }

def handshakeConcurrency : ℕ := 2

structure SocketWorld where
  permits : ℕ
  status : SocketStatus
  messageCount : ℕ
  prices : List Fields
  strings : String → Option String
  outside : ℕ → SocketOutside
  tick : ℕ

namespace SocketWorld

def now (w : SocketWorld) : SocketOutside := w.outside w.tick

def next (w : SocketWorld) : SocketWorld := { w with tick := w.tick + 1 }

def fault (w : SocketWorld) : SocketCall → Option PyExc
  | .running | .setStatus _ | .release | .uniform _ _ | .time | .countMessage => none
  | _ => w.now.fault

def answer (w : SocketWorld) : (c : SocketCall) → c.Reply
  | .running => w.now.running
  | .setStatus _ => ()
  | .acquire => ()
  | .release => ()
  | .watchOrderBook _ => w.now.book
  | .watchOrderBookForSymbols symbols => { w.now.book with symbol := symbols[w.now.pick]? }
  | .uniform low high => low + (high - low) * w.now.draw
  | .sleep _ => ()
  | .time => w.now.time
  | .xadd _ => ()
  | .set _ _ _ => ()
  | .countMessage => ()

def effect (w : SocketWorld) : SocketCall → SocketWorld
  | .setStatus status => { w with status := status }
  | .acquire => { w with permits := w.permits - 1 }
  | .release => { w with permits := w.permits + 1 }
  | .xadd fields => { w with prices := w.prices ++ [fields] }
  | .set key value _ => { w with strings := Function.update w.strings key (some value) }
  | .countMessage => { w with messageCount := w.messageCount + 1 }
  | _ => w

/-- A Redis command that raises may have been carried out; a waiter that is cancelled gets no
permit. -/
def failed (w : SocketWorld) (c : SocketCall) (x : PyExc) : SocketWorld :=
  match c with
  | .acquire => w
  | c => if x.served then w.effect c else w

def serve : Server Sockets SocketWorld := fun c w =>
  match w.fault c with
  | none => (.ok (w.answer c), (w.effect c).next)
  | some x => (.error x, (w.failed c x).next)

/-- `acquire` waits for a permit, unless the waiter is cancelled. -/
def ready (c : SocketCall) (w : SocketWorld) : Bool :=
  match c with
  | .acquire => decide (0 < w.permits) || w.now.fault.isSome
  | _ => true

end SocketWorld

def SocketWorld.start (prices : List Fields) (strings : String → Option String)
    (outside : ℕ → SocketOutside) : SocketWorld :=
  ⟨handshakeConcurrency, .connecting, 0, prices, strings, outside, 0⟩

def backoffDelays : List ℚ := [1, 5, 15, 30, 60]

def jitter : ℚ := 1 / 5

def backoffBase (attempt : ℤ) : ℚ :=
  let attempt := if attempt < 0 then 0 else attempt
  backoffDelays.getD (min attempt (backoffDelays.length - 1)).toNat 0

def backoffDelay (attempt : ℤ) : Prog Sockets ℚ := do
  let u ← Prog.call (S := Sockets) (.uniform (1 - jitter) (1 + jitter))
  return backoffBase attempt * u

def staggerDelaySec : ℚ := 1 / 4

def depthTtlSec : ℕ := 10

/-- `MULTIPLEX_CHUNK_SIZE.get(name, DEFAULT_MULTIPLEX_CHUNK_SIZE)`. -/
def multiplexChunkSize (name : String) : ℕ := if name = "bybit" then 10 else 50

def bestPrice : List (List ℚ) → Except PyExc ℚ
  | (p :: _) :: _ => .ok p
  | _ => .error .indexError

/-- `float(side[0][1]) if len(side[0]) > 1 else None`. -/
def bestVolume : List (List ℚ) → Option ℚ
  | (_ :: q :: _) :: _ => some q
  | _ => none

def bookTick (name symbol : String) (book : OrderBook) (now : ℤ) : Except PyExc PriceTick := do
  -- `order_book.get("timestamp") or now`
  let exchangeTs := if book.timestamp.getD 0 = 0 then now else book.timestamp.getD 0
  let bid ← bestPrice book.bids
  let ask ← bestPrice book.asks
  if 0 < bid ∧ 0 < ask then
    .ok {
      exchange := name
      symbol := symbol
      bid := bid
      ask := ask
      bidVolume := bestVolume book.bids
      askVolume := bestVolume book.asks
      timestamp := exchangeTs
      receivedAt := now
      latencyMs := max 0 (now - exchangeTs) }
  else .error .valueError

def SocketCall.publishing : SocketCall → Prop
  | .time | .xadd _ | .set _ _ _ | .countMessage => True
  | _ => False

section
variable [PyText]

def handleOrderBook (name symbol : String) (book : OrderBook) : Prog Sockets Unit :=
  if book.bids = [] ∨ book.asks = [] then pure () else do
    let t ← Prog.call (S := Sockets) .time
    let now := pyInt (t * 1000)
    let tick ← Prog.lift (bookTick name symbol book now)
    Prog.call (S := Sockets) (.xadd tick.toRedis)
    let value ← Prog.lift (dumpDepth book.bids book.asks now depthLevels)
    Prog.call (S := Sockets) (.set (depthKey name symbol) value depthTtlSec)
    Prog.call (S := Sockets) .countMessage

theorem handleOrderBook_uses (name symbol : String) (book : OrderBook) :
    (handleOrderBook name symbol book).Uses SocketCall.publishing := by
  unfold handleOrderBook
  split
  · exact Prog.uses_pure ()
  · refine Prog.uses_bind ((Prog.uses_call _).mpr trivial) fun t => ?_
    refine Prog.uses_bind (Prog.uses_lift _) fun tick => ?_
    refine Prog.uses_bind ((Prog.uses_call _).mpr trivial) fun _ => ?_
    refine Prog.uses_bind (Prog.uses_lift _) fun value => ?_
    refine Prog.uses_bind ((Prog.uses_call _).mpr trivial) fun _ => ?_
    exact (Prog.uses_call _).mpr trivial

/-- `except Exception`: the status, the delay and the next attempt. -/
def reconnect (attempt : ℤ) (x : PyExc) : Prog Sockets ℤ :=
  if x.isException then do
    Prog.call (S := Sockets) (.setStatus .reconnecting)
    let delay ← backoffDelay attempt
    Prog.call (S := Sockets) (.sleep delay)
    return attempt + 1
  else Prog.lift (.error x)

/-- One iteration of `_watch_multiplexed`, with the next `attempt`. -/
def multiplexedPass (name : String) (symbols : List String) (attempt : ℤ) : Prog Sockets ℤ := do
  let reply ← (Prog.call (S := Sockets) (.watchOrderBookForSymbols symbols)).attempt
  match reply with
  | .error x => reconnect attempt x
  | .ok book => do
    Prog.call (S := Sockets) (.setStatus .connected)
    -- from here on `attempt` is 0
    let handled ← (match book.symbol with
      | none | some "" => pure ()
      | some symbol => handleOrderBook name symbol book : Prog Sockets Unit).attempt
    match handled with
    | .error x => reconnect 0 x
    | .ok () => return 0

def watchMultiplexed (name : String) (symbols : List String) : ℕ → ℤ → Prog Sockets Unit
  | 0, _ => pure ()
  | n + 1, attempt => do
    if ← Prog.call (S := Sockets) .running then
      let attempt ← multiplexedPass name symbols attempt
      watchMultiplexed name symbols n attempt

/-- `async with self._handshake_sem`, where the task is not connected. -/
def awaitBook (symbol : String) (connectedOnce : Bool) : Prog Sockets OrderBook :=
  if connectedOnce then Prog.call (S := Sockets) (.watchOrderBook symbol)
  else do
    Prog.call (S := Sockets) .acquire
    (Prog.call (S := Sockets) (.watchOrderBook symbol)).ensure (Prog.call (S := Sockets) .release)

/-- One iteration of `_watch_symbol`, with the next `attempt` and `connected_once`. -/
def symbolPass (name symbol : String) (attempt : ℤ) (connectedOnce : Bool) :
    Prog Sockets (ℤ × Bool) := do
  let reply ← (awaitBook symbol connectedOnce).attempt
  match reply with
  | .error x => return (← reconnect attempt x, false)
  | .ok book => do
    Prog.call (S := Sockets) (.setStatus .connected)
    -- from here on `attempt` is 0 and `connected_once` is set
    let handled ← (handleOrderBook name symbol book).attempt
    match handled with
    | .error x => return (← reconnect 0 x, false)
    | .ok () => return (0, true)

def symbolLoop (name symbol : String) : ℕ → ℤ → Bool → Prog Sockets Unit
  | 0, _, _ => pure ()
  | n + 1, attempt, connectedOnce => do
    if ← Prog.call (S := Sockets) .running then
      let (attempt, connectedOnce) ← symbolPass name symbol attempt connectedOnce
      symbolLoop name symbol n attempt connectedOnce

def watchSymbol (name symbol : String) (initialDelay : ℚ) (n : ℕ) : Prog Sockets Unit :=
  if 0 < initialDelay then do
    Prog.call (S := Sockets) (.sleep initialDelay)
    symbolLoop name symbol n 0 false
  else symbolLoop name symbol n 0 false

/-- `[symbols[i:i + chunk] for i in range(0, len(symbols), chunk)]`. -/
def symbolChunks (chunk : ℕ) (symbols : List String) : List (List String) :=
  (List.range ((symbols.length + (chunk - 1)) / chunk)).map fun i =>
    (symbols.drop (i * chunk)).take chunk

/-- The tasks of `start` where the exchange takes several symbols on one socket. -/
def multiplexedTasks (name : String) (symbols : List String) (n : ℕ) :
    Fin (symbolChunks (multiplexChunkSize name) symbols).length → Prog Sockets Unit :=
  fun i => watchMultiplexed name ((symbolChunks (multiplexChunkSize name) symbols).get i) n 0

def symbolTasks (name : String) (symbols : List String) (n : ℕ) :
    Fin symbols.length → Prog Sockets Unit :=
  fun i => watchSymbol name (symbols.get i) (i.val * staggerDelaySec) n

def taskCount (multiplexed : Bool) (name : String) (symbols : List String) : ℕ :=
  if multiplexed then (symbolChunks (multiplexChunkSize name) symbols).length else symbols.length

/-- The tasks of `start`; `multiplexed` is what the exchange says of `watchOrderBookForSymbols`. -/
def startTasks (multiplexed : Bool) (name : String) (symbols : List String) (n : ℕ) :
    Fin (taskCount multiplexed name symbols) → Prog Sockets Unit :=
  match multiplexed with
  | true => multiplexedTasks name symbols n
  | false => symbolTasks name symbols n

end

end CriptoParser
