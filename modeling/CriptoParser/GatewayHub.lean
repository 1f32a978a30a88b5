import CriptoParser.GatewayFeed
import CriptoParser.PriceSnapshot

/-!
The clients of the gateway: one endpoint for each socket and the two broadcasters, which share the
set of active sockets. The feed of events is the loop of `GatewayFeed`, over this set.
-/

set_option autoImplicit false

namespace CriptoParser

open Await Streams

/-- What the endpoint itself sends: the greeting and the answer to a ping. -/
inductive SystemMessage where
  | connected
  | pong
  deriving DecidableEq, Repr

inductive HubCall where
  | feed (c : FeedCall)
  | decodeToken (token : String)
  | accept (ws : ℕ)
  | close (ws : ℕ)
  | add (ws : ℕ)
  | sendSystem (ws : ℕ) (message : SystemMessage)
  | sendPrices (ws : ℕ) (items : List PriceItem)
  | receiveText (ws : ℕ)
  /-- `xrevrange("prices", count=80)`. -/
  | xrevrange

abbrev HubCall.Reply : HubCall → Type
  | .feed c => c.Reply
  | .receiveText _ => String
  | .xrevrange => List Fields
  | _ => Unit

abbrev Hub : Signature := ⟨HubCall, HubCall.Reply, PyExc⟩

structure SocketOrder where
  arrange : List ℕ → List ℕ
  perm : ∀ l, (arrange l).Perm l

instance : Inhabited SocketOrder := ⟨⟨id, fun _ => .refl _⟩⟩

structure HubOutside where
  fault : Option PyExc
  tokenFault : Option PyExc
  text : String
  window : List Fields
  order : SocketOrder

structure HubWorld where
  active : List ℕ
  feed : FeedWorld
  outside : ℕ → HubOutside
  tick : ℕ

namespace HubWorld

def now (w : HubWorld) : HubOutside := w.outside w.tick

def next (w : HubWorld) : HubWorld := { w with tick := w.tick + 1 }

def reply {α : Type} (w : HubWorld) (a : α) : Except PyExc α :=
  match w.now.fault with
  | none => .ok a
  | some x => .error x

def serve : Server Hub HubWorld := fun c w =>
  match c with
  | .feed .active => (.ok (w.now.order.arrange w.active), w.next)
  | .feed (.disconnect ws) => (.ok (), { w with active := w.active.filter (· ≠ ws) }.next)
  | .feed c => ((FeedWorld.serve c w.feed).1, { w with feed := (FeedWorld.serve c w.feed).2 }.next)
  | .add ws =>
    (.ok (), { w with active := if ws ∈ w.active then w.active else w.active ++ [ws] }.next)
  | .decodeToken _ =>
    (match w.now.tokenFault with
      | none => .ok ()
      | some x => .error x, w.next)
  | .accept _ => (w.reply (), w.next)
  | .close _ => (w.reply (), w.next)
  | .sendSystem _ _ => (w.reply (), w.next)
  | .sendPrices _ _ => (w.reply (), w.next)
  | .receiveText _ => (w.reply w.now.text, w.next)
  | .xrevrange => (w.reply w.now.window, w.next)

end HubWorld

def overFeed {α : Type} : Prog Feed α → Prog Hub α
  | .done r => .done r
  | .await c k => .await (.feed c) fun r => overFeed (k r)

def sendPricesAll (items : List PriceItem) : List ℕ → List ℕ → Prog Hub (List ℕ)
  | [], dead => pure dead
  | ws :: rest, dead => do
    let dead ← (do
      Prog.call (S := Hub) (.sendPrices ws items)
      return dead : Prog Hub (List ℕ)).handle fun x =>
        if x.isException then pure (dead ++ [ws]) else Prog.lift (.error x)
    sendPricesAll items rest dead

def broadcastPrices (items : List PriceItem) : Prog Hub Unit := do
  let active ← Prog.call (S := Hub) (.feed .active)
  let dead ← sendPricesAll items active []
  overFeed (disconnectAll dead)

section
variable [PyText]

def pricesBody : Prog Hub Unit := do
  Prog.call (S := Hub) (.feed (.sleep 1))
  let active ← Prog.call (S := Hub) (.feed .active)
  if active = [] then pure () else do
    let entries ← Prog.call (S := Hub) .xrevrange
    let latest ← Prog.lift (latestPrices entries [])
    if latest = [] then pure () else broadcastPrices (latest.map Prod.snd)

def pricesLoop : ℕ → Prog Hub Unit
  | 0 => pure ()
  | n + 1 => do
    pricesBody.handle fun x => overFeed (eventsHandler x)
    pricesLoop n

/-- `raw and json.loads(raw).get("type") == "ping"`. -/
def isPing (raw : String) : Except PyExc Bool :=
  if raw = "" then .ok false
  else
    match PyText.loads raw with
    | none => .error .valueError
    | some v => do
      match ← v.get "type" with
      | some (.str s) => .ok (s == "ping")
      | _ => .ok false

def answerPing (ws : ℕ) (raw : String) : Prog Hub Unit :=
  match isPing raw with
  | .ok true =>
    Prog.handle (Prog.call (S := Hub) (.sendSystem ws .pong)) fun x =>
      if x = .typeError ∨ x = .attributeError then pure () else Prog.lift (.error x)
  | .ok false => pure ()
  | .error x =>
    if x = .valueError ∨ x = .typeError ∨ x = .attributeError then pure ()
    else Prog.lift (.error x)

def receiveLoop (ws : ℕ) : ℕ → Prog Hub Unit
  | 0 => pure ()
  | n + 1 => do
    let raw ← Prog.call (S := Hub) (.receiveText ws)
    answerPing ws raw
    receiveLoop ws n

def checkToken (ws : ℕ) (token : Option String) : Prog Hub Bool :=
  if token.getD "" = "" then pure true
  else
    (do
      Prog.call (S := Hub) (.decodeToken (token.getD ""))
      return true : Prog Hub Bool).handle fun x =>
        if x.isException then do
          Prog.call (S := Hub) (.close ws)
          return false
        else Prog.lift (.error x)

def keepClient (ws : ℕ) (n : ℕ) : Prog Hub Bool :=
  (do
    Prog.call (S := Hub) (.sendSystem ws .connected)
    receiveLoop ws n
    return false : Prog Hub Bool).handle fun x =>
      if x.isException then do
        Prog.call (S := Hub) (.feed (.disconnect ws))
        return true
      else Prog.lift (.error x)

/-- `ws_endpoint` up to its `n`-th text: whether it has returned. -/
def wsEndpoint (ws : ℕ) (token : Option String) (n : ℕ) : Prog Hub Bool := do
  let admitted ← checkToken ws token
  if admitted then do
    Prog.call (S := Hub) (.accept ws)
    Prog.call (S := Hub) (.add ws)
    keepClient ws n
  else return true

inductive Broadcaster where
  | events
  | prices
  deriving DecidableEq, Repr

inductive HubTask where
  | broadcaster (b : Broadcaster)
  | client (ws : ℕ)
  deriving DecidableEq, Repr

def hubTasks (tokens : ℕ → Option String) (n : ℕ) : HubTask → Prog Hub Bool
  | .broadcaster .events => do
    overFeed (eventsLoop n)
    return false
  | .broadcaster .prices => do
    pricesLoop n
    return false
  | .client ws => wsEndpoint ws (tokens ws) n

end

end CriptoParser
