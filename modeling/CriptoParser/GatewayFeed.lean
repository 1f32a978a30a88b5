import CriptoParser.AwaitTasks
import CriptoParser.ConsumerGroup
import CriptoParser.ServiceLoop

/-!
The feed of the gateway: new entries of two streams are read with one blocking `XREAD` and sent
to every client. A stream is read from its end, `$`, until it has first delivered an entry; `$`
is the end of the stream at the moment of the call.
-/

set_option autoImplicit false

namespace CriptoParser

open Await Streams

/-- A position in a stream: `$`, or the id of an entry. -/
inductive Cursor where
  | newest
  | after (id : ℕ)
  deriving DecidableEq, Repr

inductive FeedCall where
  | xread (count : ℕ)
  | setLast (stream : String) (entry : Entry Fields)
  | active
  | send (client : ℕ) (channel : String) (data : Fields)
  | disconnect (client : ℕ)
  | sleep (seconds : ℚ)

namespace FeedCall

abbrev Reply : FeedCall → Type
  | .xread _ => List (String × List (Entry Fields))
  | .active => List ℕ
  | _ => Unit

def isLocal : FeedCall → Bool
  | .setLast _ _ | .active | .disconnect _ => true
  | _ => false

end FeedCall

abbrev Feed : Signature := ⟨FeedCall, FeedCall.Reply, PyExc⟩

structure FeedOutside where
  fault : Option PyExc
  before : List (String × Fields)
  during : List (String × Fields)
  ready : String → Bool
  clients : List ℕ
  distinct : clients.Nodup

structure FeedWorld where
  entries : String → List Fields
  last : String → Cursor
  /-- The place from which the last `XREAD` has read. -/
  read : String → ℕ
  /-- The clients that were disconnected because a send had failed. -/
  gone : List ℕ
  outside : ℕ → FeedOutside
  tick : ℕ

def feedStreams : List String := [opportunitiesStream, tradesStream]

def appendAll (entries : String → List Fields) (more : List (String × Fields)) :
    String → List Fields :=
  fun s => entries s ++ (more.filter fun a => a.1 = s).map Prod.snd

namespace FeedWorld

def now (w : FeedWorld) : FeedOutside := w.outside w.tick

def arrive (w : FeedWorld) : FeedWorld :=
  { w with entries := appendAll w.entries w.now.before }

def place (w : FeedWorld) (s : String) : ℕ :=
  match w.last s with
  | .newest => (w.entries s).length
  | .after id => id + 1

def look (w : FeedWorld) : FeedWorld :=
  { w with
    read := fun s => if s ∈ feedStreams then w.place s else w.read s
    entries := appendAll w.entries w.now.during }

def behind (w : FeedWorld) (count : ℕ) (s : String) : List (Entry Fields) :=
  entriesFrom (w.read s) (((w.entries s).drop (w.read s)).take count)

def answer (w : FeedWorld) : (c : FeedCall) → c.Reply
  | .xread count =>
    ((feedStreams.filter w.now.ready).map fun s => (s, w.look.behind count s)).filter
      fun r => !r.2.isEmpty
  | .setLast _ _ => ()
  | .active => w.now.clients.filter fun c => decide (c ∉ w.gone)
  | .send _ _ _ => ()
  | .disconnect _ => ()
  | .sleep _ => ()

def effect (w : FeedWorld) : FeedCall → FeedWorld
  | .xread _ => w.look
  | .setLast stream entry => { w with last := Function.update w.last stream (.after entry.id) }
  | .disconnect client => { w with gone := client :: w.gone }
  | .active | .send _ _ _ | .sleep _ => w

def next (w : FeedWorld) : FeedWorld := { w with tick := w.tick + 1 }

def fault (w : FeedWorld) (c : FeedCall) : Option PyExc :=
  if c.isLocal then none else w.now.fault

def serve : Server Feed FeedWorld := fun c w =>
  match w.fault c with
  | none => (.ok (w.arrive.answer c), (w.arrive.effect c).next)
  | some x => (.error x, (w.arrive.effect c).next)

end FeedWorld

/-- The loop of `broadcast`: the clients whose send has failed. -/
def sendAll (channel : String) (data : Fields) : List ℕ → List ℕ → Prog Feed (List ℕ)
  | [], dead => pure dead
  | ws :: rest, dead => do
    let dead ← (do
      Prog.call (S := Feed) (.send ws channel data)
      return dead : Prog Feed (List ℕ)).handle fun x =>
        if x.isException then pure (dead ++ [ws]) else Prog.lift (.error x)
    sendAll channel data rest dead

def disconnectAll : List ℕ → Prog Feed Unit
  | [] => pure ()
  | ws :: rest => do
    Prog.call (S := Feed) (.disconnect ws)
    disconnectAll rest

def broadcast (active : List ℕ) (channel : String) (data : Fields) : Prog Feed Unit := do
  let dead ← sendAll channel data active []
  disconnectAll dead

def tellEntry (stream : String) (entry : Entry Fields) : Prog Feed Unit := do
  Prog.call (S := Feed) (.setLast stream entry)
  -- `manager.count`, and `list(self.active)` in `broadcast`: no await lies between the two
  let active ← Prog.call (S := Feed) .active
  if active = [] then pure () else broadcast active stream entry.payload

def tellEntries (stream : String) : List (Entry Fields) → Prog Feed Unit
  | [] => pure ()
  | entry :: rest => do
    tellEntry stream entry
    tellEntries stream rest

def tellStreams : List (String × List (Entry Fields)) → Prog Feed Unit
  | [] => pure ()
  | (stream, entries) :: rest => do
    tellEntries stream entries
    tellStreams rest

def eventsBody : Prog Feed Unit := do
  let resp ← Prog.call (S := Feed) (.xread 20)
  tellStreams resp

def eventsHandler (x : PyExc) : Prog Feed Unit :=
  if x.isException then Prog.call (S := Feed) (.sleep 1) else Prog.lift (.error x)

def eventsPass : Prog Feed Unit := eventsBody.handle eventsHandler

def eventsLoop : ℕ → Prog Feed Unit
  | 0 => pure ()
  | n + 1 => do
    eventsPass
    eventsLoop n

end CriptoParser
