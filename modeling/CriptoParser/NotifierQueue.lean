import CriptoParser.AwaitTasks
import CriptoParser.PythonValues
import CriptoParser.RetryQueue

/-!
The queue of outgoing Telegram messages: callers push messages at the head of a Redis list,
one sender takes them from the tail and sends them. A text in the list is kept as the document
it spells, and the number of retries stands in the document.
-/

set_option autoImplicit false

namespace CriptoParser

open Await Retry

structure Payload where
  chatId : String
  text : String
  id : String
  retries : Option ℕ
  deriving DecidableEq, Repr

def queueKey : String := "telegram_queue"

def deadLetterKey : String := "telegram_dead_letter"

def maxRetries : ℕ := 3

def minInterval : ℚ := 1 / 20

inductive TelegramCall where
  | time
  | countSent
  | brpop (key : String)
  | lpush (key : String) (payload : Payload)
  | sendMessage (chatId text : String)
  | sleep (seconds : ℚ)
  deriving DecidableEq, Repr

abbrev TelegramCall.Reply : TelegramCall → Type
  | .time => ℚ
  | .brpop _ => Option Payload
  | _ => Unit

abbrev Telegram : Signature := ⟨TelegramCall, TelegramCall.Reply, PyExc⟩

structure QueueOutside where
  fault : Option PyExc
  sendFault : Option PyExc
  time : ℚ

structure QueueWorld where
  lists : String → List Payload
  delivered : List (String × String)
  messagesSent : ℕ
  outside : ℕ → QueueOutside
  tick : ℕ

namespace QueueWorld

def now (w : QueueWorld) : QueueOutside := w.outside w.tick

def fault (w : QueueWorld) : TelegramCall → Option PyExc
  | .time | .countSent => none
  | .sendMessage _ _ => w.now.sendFault
  | _ => w.now.fault

def answer (w : QueueWorld) : (c : TelegramCall) → c.Reply
  | .time => w.now.time
  | .countSent => ()
  | .brpop key => (w.lists key).getLast?
  | .lpush _ _ => ()
  | .sendMessage _ _ => ()
  | .sleep _ => ()

def effect (w : QueueWorld) : TelegramCall → QueueWorld
  | .time | .sleep _ => w
  | .countSent => { w with messagesSent := w.messagesSent + 1 }
  | .brpop key => { w with lists := Function.update w.lists key (w.lists key).dropLast }
  | .lpush key payload =>
    { w with lists := Function.update w.lists key (payload :: w.lists key) }
  | .sendMessage chatId text => { w with delivered := w.delivered ++ [(chatId, text)] }

def next (w : QueueWorld) : QueueWorld := { w with tick := w.tick + 1 }

def serve : Server Telegram QueueWorld := fun c w =>
  match w.fault c with
  | none => (.ok (w.answer c), (w.effect c).next)
  | some x => (.error x, if x.served then (w.effect c).next else w.next)

/-- Redis commands succeed and no await is cancelled; a send may fail. -/
def Reliable (w : QueueWorld) : Prop :=
  ∀ n, (w.outside n).fault = none ∧ ∀ x ∈ (w.outside n).sendFault, x.isException = true

end QueueWorld

def enqueue [PyText] (defaultChat text : String) (chatId : Option String) :
    Prog Telegram String := do
  let now ← Prog.call (S := Telegram) .time
  let messageId := "msg_" ++ PyText.strInt (pyInt (now * 1000))
  -- `chat_id or self._default_chat`
  let chat := if chatId.getD "" = "" then defaultChat else chatId.getD ""
  Prog.call (S := Telegram) (.lpush queueKey ⟨chat, text, messageId, none⟩)
  return messageId

def retryCall (data : Payload) : TelegramCall :=
  if data.retries.getD 0 < maxRetries then
    .lpush queueKey { data with retries := some (data.retries.getD 0 + 1) }
  else .lpush deadLetterKey data

def sendFailed (data : Payload) (x : PyExc) : Prog Telegram Unit :=
  if x.isException then
    if data.retries.getD 0 < maxRetries then
      Prog.call (S := Telegram)
        (.lpush queueKey { data with retries := some (data.retries.getD 0 + 1) })
    else Prog.call (S := Telegram) (.lpush deadLetterKey data)
  else Prog.lift (.error x)

def sendData (data : Payload) : Prog Telegram Unit := do
  Prog.call (S := Telegram) (.sendMessage data.chatId data.text)
  Prog.call (S := Telegram) .countSent

def senderBody : Prog Telegram Unit := do
  let item ← Prog.call (S := Telegram) (.brpop queueKey)
  match item with
  | none => pure ()
  | some data => do
    (sendData data).handle (sendFailed data)
    Prog.call (S := Telegram) (.sleep minInterval)

def senderHandler (x : PyExc) : Prog Telegram Unit :=
  if x.isException then Prog.call (S := Telegram) (.sleep 1) else Prog.lift (.error x)

def senderPass : Prog Telegram Unit := senderBody.handle senderHandler

def senderLoop : ℕ → Prog Telegram Unit
  | 0 => pure ()
  | n + 1 => do
    senderPass
    senderLoop n

inductive QueueTask where
  | sender
  | caller (i : ℕ)
  deriving DecidableEq, Repr

/-- The sender, and calls of `enqueue`; a task that is a call returns its id. -/
def queueTasks [PyText] (defaultChat : String) (n : ℕ)
    (requests : ℕ → String × Option String) : QueueTask → Prog Telegram (Option String)
  | .sender => do
    senderLoop n
    return none
  | .caller i => do
    let messageId ← enqueue defaultChat (requests i).1 (requests i).2
    return some messageId

theorem sendFailed_exception {x : PyExc} (hx : x.isException = true) (data : Payload) :
    ∀ es r, (sendFailed data x).Ends es r →
      ∃ v, es = [⟨retryCall data, v⟩] ∧ (∀ y, v = .error y → r = .error y) ∧
        ((∃ u, v = .ok u) → r = .ok ()) := by
  intro es r h
  unfold sendFailed at h
  unfold retryCall
  rw [if_pos hx] at h
  split at h
  · rename_i hlt
    rw [if_pos hlt]
    obtain ⟨v, es', rfl, rfl, rfl⟩ := h
    exact ⟨r, rfl, fun _ h => h, fun ⟨_, h⟩ => h⟩
  · rename_i hnot
    rw [if_neg hnot]
    obtain ⟨v, es', rfl, rfl, rfl⟩ := h
    exact ⟨r, rfl, fun _ h => h, fun ⟨_, h⟩ => h⟩

end CriptoParser
