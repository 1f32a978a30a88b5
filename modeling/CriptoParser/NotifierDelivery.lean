import CriptoParser.NotifierQueue

/-!
What becomes of every message under any interleaving of the callers with the sender. The
board follows the log and gives every message a number of its own; the lists in Redis are
what the board says.
-/

set_option autoImplicit false

namespace CriptoParser

open Await Retry

structure Message where
  chatId : String
  text : String
  id : String
  deriving DecidableEq, Repr

def Payload.message (data : Payload) : Message := ⟨data.chatId, data.text, data.id⟩

/-- The document of a message that has been retried as often as the ticket says. -/
def Retry.Ticket.payload (t : Ticket Message) : Payload :=
  ⟨t.item.chatId, t.item.text, t.item.id, if t.retries = 0 then none else some t.retries⟩

@[simp] theorem payload_retries (t : Ticket Message) : t.payload.retries.getD 0 = t.retries := by
  unfold Ticket.payload
  split
  · rename_i hzero
    exact hzero.symm
  · rfl

theorem payload_retried (t : Ticket Message) :
    { t.payload with retries := some (t.payload.retries.getD 0 + 1) } =
      ({ t with retries := t.retries + 1 } : Ticket Message).payload := by
  rw [payload_retries]
  rfl

theorem payload_pushed {data : Payload} (h : data.retries = none) (tag : ℕ) :
    (⟨data.message, tag, 0⟩ : Ticket Message).payload = data := by
  cases data
  cases h
  rfl

inductive Phase where
  | idle
  | popped (data : Payload)
  | sent
  | failed (data : Payload)
  | settled
  deriving DecidableEq, Repr

def Phase.next : Phase → Event Telegram → Phase
  | .idle, ⟨.brpop _, .ok (some data)⟩ => .popped data
  | .popped _, ⟨.sendMessage _ _, .ok _⟩ => .sent
  | .popped data, ⟨.sendMessage _ _, .error _⟩ => .failed data
  | .sent, _ => .settled
  | .failed _, _ => .settled
  | .settled, _ => .idle
  | p, _ => p

def Phase.allows : Phase → Event Telegram → Prop
  | .idle, e => e.call = .brpop queueKey
  | .popped data, e => e.call = .sendMessage data.chatId data.text
  | .sent, e => e.call = .countSent
  | .failed data, e => e.call = retryCall data
  | .settled, e => e.call = .sleep minInterval

def Phase.holds : Phase → Flight Message → Prop
  | .popped data, .popped t => t.payload = data
  | .failed data, .failed t => t.payload = data
  | .idle, .none | .sent, .none | .settled, .none => True
  | _, _ => False

/-- The board, where the sender is, how many steps the sender has made since the last message
was enqueued, and the sends: those called, and those that have returned. -/
structure Desk where
  board : Board Message
  phase : Phase
  quiet : ℕ
  sends : List (String × String)
  returned : List (String × String)

def boardNext (b : Board Message) : Event Telegram → Board Message
  | ⟨.brpop _, .ok (some _)⟩ => b.pop
  | ⟨.sendMessage _ _, .ok _⟩ => b.deliver
  | ⟨.sendMessage _ _, .error _⟩ => b.fail
  | ⟨.lpush _ _, _⟩ => b.settle maxRetries
  | _ => b

def sendOf : Event Telegram → List (String × String)
  | ⟨.sendMessage chatId text, _⟩ => [(chatId, text)]
  | _ => []

def returnedOf : Event Telegram → List (String × String)
  | ⟨.sendMessage chatId text, .ok _⟩ => [(chatId, text)]
  | _ => []

theorem boardNext_pushed (b : Board Message) (e : Event Telegram) :
    (boardNext b e).pushed = b.pushed := by
  unfold boardNext
  split <;> simp

def Desk.next (d : Desk) : QueueTask × Event Telegram → Desk
  | (.sender, e) =>
    { board := boardNext d.board e
      phase := d.phase.next e
      quiet := d.quiet + 1
      sends := d.sends ++ sendOf e
      returned := d.returned ++ returnedOf e }
  | (.caller _, ⟨.lpush _ data, _⟩) =>
    { d with board := d.board.push data.message, quiet := 0 }
  | (.caller _, _) => d

def Desk.start : Desk := ⟨Board.empty, .idle, 0, [], []⟩

def deskOf (log : List (QueueTask × Event Telegram)) : Desk := log.foldl Desk.next .start

def Dependable (es : List (Event Telegram)) : Prop :=
  ∀ e ∈ es, ∀ x, e.reply = .error x →
    (∃ chatId text, e.call = .sendMessage chatId text) ∧ x.isException = true

@[simp] theorem dependable_cons (e : Event Telegram) (es : List (Event Telegram)) :
    Dependable (e :: es) ↔ (∀ x, e.reply = .error x →
      (∃ chatId text, e.call = .sendMessage chatId text) ∧ x.isException = true) ∧
        Dependable es := by
  simp [Dependable]

@[simp] theorem dependable_append (es fs : List (Event Telegram)) :
    Dependable (es ++ fs) ↔ Dependable es ∧ Dependable fs := by
  simp only [Dependable, List.mem_append]
  constructor
  · intro h
    exact ⟨fun e he => h e (.inl he), fun e he => h e (.inr he)⟩
  · intro h e he
    rcases he with he | he
    · exact h.1 e he
    · exact h.2 e he

theorem Dependable.answered {c : TelegramCall} {v : Except PyExc c.Reply}
    {es : List (Event Telegram)} (h : Dependable (⟨c, v⟩ :: es))
    (hc : ∀ chatId text, c ≠ .sendMessage chatId text) : ∃ u, v = .ok u := by
  cases v with
  | ok u => exact ⟨u, rfl⟩
  | error x =>
    obtain ⟨⟨chatId, text, hsend⟩, -⟩ := ((dependable_cons _ _).mp h).1 x rfl
    exact absurd hsend (hc chatId text)

theorem retryCall_ne (data : Payload) (chatId text : String) :
    retryCall data ≠ .sendMessage chatId text := by
  unfold retryCall
  split <;> simp

@[reducible] def senderMonitor : Monitor (Event Telegram) where
  State := Phase
  next := Phase.next
  allows := Phase.allows

def TelegramCall.enqueues (c : TelegramCall) : Prop :=
  c = .time ∨ ∃ data, c = .lpush queueKey data ∧ data.retries = none

@[reducible] def callerMonitor : Monitor (Event Telegram) where
  State := Unit
  next _ _ := ()
  allows _ e := e.call.enqueues

theorem sendData_accepts {data : Payload} {es : List (Event Telegram)} {r : Except PyExc Unit}
    (h : ((sendData data).handle (sendFailed data)).Ends es r) (hes : Dependable es) :
    senderMonitor.Accepts (.popped data) es ∧
      senderMonitor.after (.popped data) es = .settled ∧ r = .ok () := by
  rcases (Prog.ends_handle _ _ _ _).mp h with ⟨a, hsend, rfl⟩ | ⟨x, es₁, es₂, rfl, hsend, hfail⟩
  · rcases (Prog.ends_call_bind _ _ _ _).mp hsend with ⟨v, es', rfl, hcount⟩ | ⟨y, -, hy⟩
    · obtain ⟨u, es'', rfl, rfl, -⟩ := hcount
      exact ⟨⟨rfl, rfl, trivial⟩, rfl, rfl⟩
    · cases hy
  · obtain ⟨hes₁, hes₂⟩ := (dependable_append _ _).mp hes
    rcases (Prog.ends_call_bind _ _ _ _).mp hsend with ⟨v, es', rfl, hcount⟩ | ⟨y, rfl, hy⟩
    · -- the counter cannot fail
      obtain ⟨u, es'', rfl, rfl, hu⟩ := hcount
      obtain ⟨w, hw⟩ := Dependable.answered ((dependable_cons _ _).mp hes₁).2 (by simp)
      rw [hw] at hu
      cases hu
    · obtain ⟨-, hx⟩ := ((dependable_cons _ _).mp hes₁).1 y rfl
      cases hy
      obtain ⟨v, rfl, -, hr⟩ := sendFailed_exception hx data _ _ hfail
      obtain ⟨u, rfl⟩ := hes₂.answered (retryCall_ne data)
      exact ⟨⟨rfl, rfl, trivial⟩, rfl, hr ⟨u, rfl⟩⟩

theorem senderBody_accepts {es : List (Event Telegram)} {r : Except PyExc Unit}
    (h : senderBody.Ends es r) (hes : Dependable es) :
    senderMonitor.Accepts .idle es ∧ senderMonitor.after .idle es = .idle ∧ r = .ok () ∧
      es ≠ [] := by
  rcases (Prog.ends_call_bind _ _ _ _).mp h with ⟨item, es', rfl, hrest⟩ | ⟨x, rfl, -⟩
  · have hes' := ((dependable_cons _ _).mp hes).2
    cases item with
    | none =>
      obtain ⟨rfl, rfl⟩ := (Prog.ends_pure _ _ _).mp hrest
      exact ⟨⟨rfl, trivial⟩, rfl, rfl, by simp⟩
    | some data =>
      rcases (Prog.ends_bind _ _ _ _).mp hrest with ⟨u, es₁, es₂, rfl, hsend, hsleep⟩ | ⟨x, hsend, -⟩
      · obtain ⟨hes₁, hes₂⟩ := (dependable_append _ _).mp hes'
        obtain ⟨hacc, hafter, -⟩ := sendData_accepts hsend hes₁
        obtain ⟨v, es', rfl, rfl, rfl⟩ := hsleep
        obtain ⟨u', rfl⟩ := hes₂.answered (by simp)
        refine ⟨⟨rfl, (senderMonitor.accepts_append _ _ _).mpr ⟨hacc, ?_⟩⟩, ?_, rfl, by simp⟩
        · change senderMonitor.Accepts (senderMonitor.after (.popped data) es₁) _
          rw [hafter]
          exact ⟨rfl, trivial⟩
        · change senderMonitor.after (.popped data) (es₁ ++ _) = _
          rw [senderMonitor.after_append, hafter]
          rfl
      · obtain ⟨-, -, hr⟩ := sendData_accepts hsend hes'
        cases hr
  · obtain ⟨u, hu⟩ := hes.answered (by simp)
    cases hu

theorem senderPass_accepts {es : List (Event Telegram)} {r : Except PyExc Unit}
    (h : senderPass.Ends es r) (hes : Dependable es) :
    senderMonitor.Accepts .idle es ∧ senderMonitor.after .idle es = .idle ∧ r = .ok () ∧
      es ≠ [] := by
  rcases (Prog.ends_handle _ _ _ _).mp h with ⟨a, hends, rfl⟩ | ⟨x, es₁, es₂, rfl, hends, -⟩
  · exact senderBody_accepts hends hes
  · obtain ⟨-, -, hr, -⟩ := senderBody_accepts hends ((dependable_append _ _).mp hes).1
    cases hr

theorem senderLoop_accepts {n : ℕ} {es : List (Event Telegram)} {r : Except PyExc Unit}
    (h : (senderLoop n).Ends es r) (hes : Dependable es) :
    senderMonitor.Accepts .idle es ∧ n ≤ es.length := by
  induction n generalizing es with
  | zero =>
    obtain ⟨rfl, -⟩ := (Prog.ends_pure _ _ _).mp h
    exact ⟨trivial, le_refl _⟩
  | succ n ih =>
    rw [senderLoop, Prog.bind_eq, Prog.ends_bind] at h
    rcases h with ⟨u, es₁, es₂, rfl, hpass, hrest⟩ | ⟨x, hpass, -⟩
    · obtain ⟨hes₁, hes₂⟩ := (dependable_append _ _).mp hes
      obtain ⟨hacc, hafter, -, hne⟩ := senderPass_accepts hpass hes₁
      obtain ⟨hacc', hlen⟩ := ih hrest hes₂
      have hpos : 0 < es₁.length := List.length_pos_iff.mpr hne
      refine ⟨(senderMonitor.accepts_append _ _ _).mpr ⟨hacc, ?_⟩, ?_⟩
      · rw [hafter]
        exact hacc'
      · rw [List.length_append]
        omega
    · obtain ⟨-, -, hr, -⟩ := senderPass_accepts hpass hes
      cases hr

section Calls
variable [PyText] {defaultChat : String} {n : ℕ} {requests : ℕ → String × Option String}
  {es : List (Event Telegram)}

theorem senderTask_accepts {r : Except PyExc (Option String)}
    (h : (queueTasks defaultChat n requests .sender).Ends es r) (hes : Dependable es) :
    senderMonitor.Accepts .idle es ∧ n ≤ es.length := by
  rcases (Prog.ends_bind _ _ _ _).mp h with ⟨u, es₁, es₂, rfl, hloop, hend⟩ | ⟨x, hloop, -⟩
  · obtain ⟨rfl, -⟩ := (Prog.ends_pure _ _ _).mp hend
    rw [List.append_nil] at hes ⊢
    exact senderLoop_accepts hloop hes
  · exact senderLoop_accepts hloop hes

theorem callerTask_accepts {i : ℕ} {r : Except PyExc (Option String)}
    (h : (queueTasks defaultChat n requests (.caller i)).Ends es r) :
    callerMonitor.Accepts () es := by
  have huses : (queueTasks defaultChat n requests (.caller i)).Uses TelegramCall.enqueues := by
    refine Prog.uses_bind ?_ fun _ => Prog.uses_pure _
    refine Prog.uses_bind ((Prog.uses_call (S := Telegram) _).mpr (.inl rfl)) fun _ => ?_
    refine Prog.uses_bind ((Prog.uses_call (S := Telegram) _).mpr ?_) fun _ => Prog.uses_pure _
    exact .inr ⟨_, rfl, rfl⟩
  exact (callerMonitor.accepts_still fun e he => ⟨huses.ends h e he, rfl⟩).1

/-- What a request stands in the queue as, once it has its id. -/
def requested (defaultChat : String) (request : String × Option String) (id : String) : Message :=
  ⟨if request.2.getD "" = "" then defaultChat else request.2.getD "", request.1, id⟩

def pushesOf : QueueTask × Event Telegram → List (ℕ × Message)
  | (.caller i, ⟨.lpush _ data, _⟩) => [(i, data.message)]
  | _ => []

/-- The calls of `enqueue` that have pushed, in that order, each with what it pushed. -/
def enqueued (log : List (QueueTask × Event Telegram)) : List (ℕ × Message) :=
  log.flatMap pushesOf

theorem callerTask_reaches {i : ℕ} {q : Prog Telegram (Option String)}
    (h : (queueTasks defaultChat n requests (.caller i)).Reaches es q) (hes : Dependable es) :
    es.flatMap (fun e => pushesOf (.caller i, e)) = [] ∧ q.isDone = false ∨
      ∃ id, es.flatMap (fun e => pushesOf (.caller i, e)) =
          [(i, requested defaultChat (requests i) id)] ∧ q = .done (.ok (some id)) := by
  cases es with
  | nil =>
    cases h
    exact .inl ⟨rfl, rfl⟩
  | cons e es =>
    obtain ⟨k, hk, h⟩ := h
    obtain ⟨c, v⟩ := e
    obtain ⟨rfl, hk⟩ := Prog.await.inj hk
    obtain rfl := eq_of_heq hk
    obtain ⟨now, rfl⟩ := hes.answered (by simp)
    cases es with
    | nil =>
      cases h
      exact .inl ⟨rfl, rfl⟩
    | cons e es =>
      obtain ⟨k, hk, h⟩ := h
      obtain ⟨c, v⟩ := e
      obtain ⟨rfl, hk⟩ := Prog.await.inj hk
      obtain rfl := eq_of_heq hk
      obtain ⟨u, rfl⟩ := ((dependable_cons _ _).mp hes).2.answered (by simp)
      cases es with
      | nil =>
        cases h
        exact .inr ⟨_, rfl, rfl⟩
      | cons e es =>
        obtain ⟨k, hk, -⟩ := h
        cases hk

end Calls

theorem pushed_enqueued (d : Desk) (log : List (QueueTask × Event Telegram)) :
    (log.foldl Desk.next d).board.pushed = d.board.pushed ++ (enqueued log).map Prod.snd := by
  induction log generalizing d with
  | nil => simp [enqueued]
  | cons te log ih =>
    have hone : (d.next te).board.pushed = d.board.pushed ++ (pushesOf te).map Prod.snd := by
      obtain ⟨i, c, v⟩ := te
      cases i with
      | sender => simpa [pushesOf, Desk.next] using boardNext_pushed d.board ⟨c, v⟩
      | caller i => cases c <;> simp [Desk.next, pushesOf, Board.push]
    have hsplit : enqueued (te :: log) = pushesOf te ++ enqueued log := List.flatMap_cons ..
    rw [List.foldl_cons, ih, hone, hsplit, List.map_append, List.append_assoc]

theorem enqueued_own (i : ℕ) (log : List (QueueTask × Event Telegram)) :
    (enqueued log).filter (fun p => p.1 = i) =
      (own (.caller i) log).flatMap fun e => pushesOf (.caller i, e) := by
  induction log with
  | nil => rfl
  | cons te log ih =>
    obtain ⟨j, e⟩ := te
    rw [enqueued, List.flatMap_cons, List.filter_append]
    by_cases hj : j = .caller i
    · subst hj
      rw [own_cons_self, List.flatMap_cons, ← ih]
      congr 1
      obtain ⟨c, v⟩ := e
      cases c <;> simp [pushesOf]
    · rw [own_cons_other hj, ← ih]
      have hnone : (pushesOf (j, e)).filter (fun p => p.1 = i) = [] := by
        obtain ⟨c, v⟩ := e
        cases j with
        | sender => rfl
        | caller j =>
          have hne : j ≠ i := fun h => hj (congrArg QueueTask.caller h)
          cases c <;> simp [pushesOf, hne]
      rw [hnone]
      rfl

def Desk.load (d : Desk) : ℕ :=
  match d.phase with
  | .idle => 4 * d.board.left maxRetries
  | .popped _ => 4 * d.board.left maxRetries - 1
  | .failed _ | .sent => 4 * d.board.left maxRetries + 2
  | .settled => 4 * d.board.left maxRetries + 1

/-- The steps of the sender that are enough for one message. -/
def messageSteps : ℕ := 4 * (maxRetries + 1)

theorem messageSteps_eq : messageSteps = 16 := rfl

theorem maxRetries_succ : maxRetries + 1 = 4 := rfl

def address (t : Ticket Message) : String × String := (t.item.chatId, t.item.text)

structure Mirrors (w : QueueWorld) (d : Desk) : Prop where
  reliable : w.Reliable
  queue : w.lists queueKey = d.board.waiting.map Ticket.payload
  dead : w.lists deadLetterKey = (d.board.dead.map Ticket.payload).reverse
  sound : d.board.Sound maxRetries
  flight : d.phase.holds d.board.flight
  counted : w.messagesSent + (if d.phase = .sent then 1 else 0) = d.board.delivered.length
  light : d.load ≤ messageSteps * d.board.pushed.length - d.quiet
  sends : d.sends = d.board.attempts.map address
  returned : d.returned = d.board.delivered.map address

theorem deadLetterKey_ne : deadLetterKey ≠ queueKey := by decide

section Step
variable {w : QueueWorld} {d : Desk}

theorem serve_reliable {c : TelegramCall} (h : w.Reliable)
    (hc : ∀ chatId text, c ≠ .sendMessage chatId text) :
    QueueWorld.serve c w = (.ok (w.answer c), (w.effect c).next) := by
  have hfault : w.fault c = none := by
    have hnone := (h w.tick).1
    cases c with
    | sendMessage chatId text => exact absurd rfl (hc chatId text)
    | time | countSent => rfl
    | _ => exact hnone
  simp only [QueueWorld.serve, hfault]

theorem serve_keeps_reliable (h : w.Reliable) (c : TelegramCall) :
    (QueueWorld.serve c w).2.Reliable := by
  have houtside : (QueueWorld.serve c w).2.outside = w.outside := by
    unfold QueueWorld.serve
    split
    · cases c <;> rfl
    · split
      · cases c <;> rfl
      · rfl
  intro n
  rw [houtside]
  exact h n

theorem dependable_of_follows {es : List (Event Telegram)} {w' : QueueWorld}
    (hf : Follows QueueWorld.serve w es w') (h : w.Reliable) : Dependable es := by
  induction es generalizing w with
  | nil => simp [Dependable]
  | cons e es ih =>
    obtain ⟨hr, hf⟩ := hf
    refine (dependable_cons _ _).mpr ⟨fun x hx => ?_, ih hf (serve_keeps_reliable h _)⟩
    by_cases hsend : ∃ chatId text, e.call = .sendMessage chatId text
    · refine ⟨hsend, ?_⟩
      obtain ⟨chatId, text, hcall⟩ := hsend
      have hfault : w.fault e.call = w.now.sendFault := by rw [hcall]; rfl
      cases hs : w.now.sendFault with
      | none =>
        simp only [QueueWorld.serve, hfault, hs] at hr
        rw [hr] at hx
        cases hx
      | some y =>
        simp only [QueueWorld.serve, hfault, hs] at hr
        rw [hr] at hx
        rw [← Except.error.inj hx]
        exact (h w.tick).2 y hs
    · rw [serve_reliable h fun chatId text hcall => hsend ⟨chatId, text, hcall⟩, hx] at hr
      cases hr

theorem mirrors_start (h : w.Reliable) (hqueue : w.lists queueKey = [])
    (hdead : w.lists deadLetterKey = []) (hsent : w.messagesSent = 0) : Mirrors w .start :=
  ⟨h, hqueue, hdead, Board.empty_sound _, trivial, hsent, Nat.le_refl 0, rfl, rfl⟩

theorem Mirrors.caller (h : Mirrors w d) {c : TelegramCall} (hc : c.enqueues) (i : ℕ) :
    Mirrors (QueueWorld.serve c w).2
      (d.next (.caller i, ⟨c, (QueueWorld.serve c w).1⟩)) := by
  have hkeep := serve_keeps_reliable h.reliable c
  rcases hc with rfl | ⟨data, rfl, hfresh⟩
  · exact ⟨hkeep, h.queue, h.dead, h.sound, h.flight, h.counted, h.light,
      h.sends, h.returned⟩
  · rw [serve_reliable h.reliable (by simp)] at hkeep ⊢
    refine ⟨hkeep, ?_, ?_, h.sound.push data.message, h.flight, h.counted, ?_,
      h.sends, h.returned⟩
    · change Function.update w.lists queueKey (data :: w.lists queueKey) queueKey = _
      rw [Function.update_self, h.queue, Desk.next, Board.push, List.map_cons,
        payload_pushed hfresh]
    · change Function.update w.lists queueKey (data :: w.lists queueKey) deadLetterKey = _
      rw [Function.update_of_ne deadLetterKey_ne]
      exact h.dead
    · have hlight := h.light
      have hlength : (d.board.push data.message).pushed.length = d.board.pushed.length + 1 := by
        simp [Board.push]
      simp only [Desk.next, Desk.load, Board.left_push, hlength, messageSteps_eq,
        maxRetries_succ] at hlight ⊢
      cases hphase : d.phase <;> simp only [hphase] at hlight ⊢ <;> omega

theorem Mirrors.lighter (h : Mirrors w d) {b : Board Message} {p : Phase}
    {sends returned : List (String × String)}
    (hload : Desk.load ⟨b, p, d.quiet + 1, sends, returned⟩ ≤ d.load - 1)
    (hpushed : b.pushed = d.board.pushed) :
    Desk.load ⟨b, p, d.quiet + 1, sends, returned⟩ ≤
      messageSteps * b.pushed.length - (d.quiet + 1) := by
  have hlight := h.light
  rw [hpushed]
  omega

theorem Mirrors.take (h : Mirrors w d) (hphase : d.phase = .idle) :
    Mirrors (QueueWorld.serve (.brpop queueKey) w).2
      (d.next (.sender, ⟨.brpop queueKey, (QueueWorld.serve (.brpop queueKey) w).1⟩)) := by
  have hkeep := serve_keeps_reliable h.reliable (.brpop queueKey)
  have hflight := h.flight
  rw [serve_reliable h.reliable (by simp)] at hkeep ⊢
  have hnone : d.board.flight = .none := by
    cases hf : d.board.flight <;> simp [hphase, hf, Phase.holds] at hflight ⊢
  have hlists : ∀ key, ((w.effect (.brpop queueKey)).next).lists key =
      Function.update w.lists queueKey (w.lists queueKey).dropLast key := fun _ => rfl
  have hother := Function.update_of_ne deadLetterKey_ne (w.lists queueKey).dropLast w.lists
  have hcounted := h.counted
  rw [hphase] at hcounted
  rcases List.eq_nil_or_concat d.board.waiting with hwaiting | ⟨rest, t, hwaiting⟩
  · have hanswer : w.answer (.brpop queueKey) = none := by
      change (w.lists queueKey).getLast? = none
      rw [h.queue, hwaiting]
      rfl
    rw [hanswer]
    refine ⟨hkeep, ?_, ?_, h.sound, ?_, ?_, ?_, ?_, ?_⟩
    · rw [hlists, Function.update_self, h.queue]
      simp [Desk.next, boardNext, hwaiting]
    · rw [hlists, hother]
      exact h.dead
    · simp [Desk.next, boardNext, hphase, Phase.next, hnone, Phase.holds]
    · rw [Desk.next, hphase]
      exact hcounted
    · refine h.lighter ?_ rfl
      simp [Desk.load, boardNext, hphase, Phase.next, Board.left, hnone, hwaiting, Flight.left]
    · simpa [Desk.next, sendOf, boardNext] using h.sends
    · simpa [Desk.next, returnedOf, boardNext] using h.returned
  · rw [List.concat_eq_append] at hwaiting
    have hanswer : w.answer (.brpop queueKey) = some t.payload := by
      change (w.lists queueKey).getLast? = some t.payload
      rw [h.queue, hwaiting, List.map_append, List.map_singleton, List.getLast?_concat]
    rw [hanswer]
    have hpop := Board.pop_eq hnone hwaiting
    refine ⟨hkeep, ?_, ?_, h.sound.pop, ?_, ?_, ?_, ?_, ?_⟩
    · rw [hlists, Function.update_self, h.queue, hwaiting, List.map_append, List.map_singleton,
        List.dropLast_concat, Desk.next, boardNext, hpop]
    · rw [hlists, hother]
      simpa [Desk.next, boardNext, hpop] using h.dead
    · simp [Desk.next, boardNext, hphase, Phase.next, hpop, Phase.holds]
    · change w.messagesSent + _ = _
      simpa [Desk.next, boardNext, hphase, Phase.next, hpop] using hcounted
    · refine h.lighter ?_ ?_
      · simp only [Desk.load, boardNext, hphase, Phase.next, Board.left_pop]
        exact le_refl _
      · simp [boardNext, hpop]
    · simpa [Desk.next, sendOf, boardNext, hpop] using h.sends
    · simpa [Desk.next, returnedOf, boardNext, hpop] using h.returned

theorem Mirrors.send (h : Mirrors w d) {data : Payload} (hphase : d.phase = .popped data) :
    Mirrors (QueueWorld.serve (.sendMessage data.chatId data.text) w).2
      (d.next (.sender, ⟨.sendMessage data.chatId data.text,
        (QueueWorld.serve (.sendMessage data.chatId data.text) w).1⟩)) := by
  have hkeep := serve_keeps_reliable h.reliable (.sendMessage data.chatId data.text)
  have hflight := h.flight
  have hcounted := h.counted
  rw [hphase] at hflight hcounted
  obtain ⟨t, hpopped, hdata⟩ : ∃ t, d.board.flight = .popped t ∧ t.payload = data := by
    cases hf : d.board.flight with
    | popped t => exact ⟨t, rfl, by simpa [hf, Phase.holds] using hflight⟩
    | _ => simp [hf, Phase.holds] at hflight
  have hle : t.retries ≤ maxRetries := h.sound.bounded t (by simp [hpopped, Flight.tickets])
  have hsame : (QueueWorld.serve (.sendMessage data.chatId data.text) w).2.lists = w.lists ∧
      (QueueWorld.serve (.sendMessage data.chatId data.text) w).2.messagesSent =
        w.messagesSent := by
    unfold QueueWorld.serve
    split
    · exact ⟨rfl, rfl⟩
    · split <;> exact ⟨rfl, rfl⟩
  obtain ⟨hlists, hmessages⟩ := hsame
  have hleft : 1 ≤ d.board.left maxRetries := by
    simp only [Board.left, hpopped, Flight.left]
    omega
  cases hreply : (QueueWorld.serve (.sendMessage data.chatId data.text) w).1 with
  | ok u =>
    have hdeliver : d.board.deliver = { d.board with
        flight := .none
        attempts := d.board.attempts ++ [t]
        delivered := d.board.delivered ++ [t] } := by
      simp [Board.deliver, hpopped]
    have hload := Board.left_deliver hpopped hle
    refine ⟨hkeep, ?_, ?_, h.sound.deliver, ?_, ?_, h.lighter ?_ ?_, ?_, ?_⟩
    · rw [hlists, h.queue]
      simp [Desk.next, boardNext, hdeliver]
    · rw [hlists, h.dead]
      simp [Desk.next, boardNext, hdeliver]
    · simp [Desk.next, boardNext, hphase, Phase.next, hdeliver, Phase.holds]
    · rw [hmessages]
      simpa [Desk.next, boardNext, hphase, Phase.next, hdeliver] using hcounted
    · simp only [Desk.load, boardNext, hphase, Phase.next]
      omega
    · simp [boardNext, hdeliver]
    · simp [Desk.next, sendOf, boardNext, hdeliver, h.sends, address, ← hdata, Ticket.payload]
    · simp [Desk.next, returnedOf, boardNext, hdeliver, h.returned, address, ← hdata,
        Ticket.payload]
  | error x =>
    have hfail : d.board.fail = { d.board with
        flight := .failed t
        attempts := d.board.attempts ++ [t]
        failures := d.board.failures ++ [t] } := by
      simp [Board.fail, hpopped]
    have hload := Board.left_fail hpopped hle
    refine ⟨hkeep, ?_, ?_, h.sound.fail, ?_, ?_, h.lighter ?_ ?_, ?_, ?_⟩
    · rw [hlists, h.queue]
      simp [Desk.next, boardNext, hfail]
    · rw [hlists, h.dead]
      simp [Desk.next, boardNext, hfail]
    · simp [Desk.next, boardNext, hphase, Phase.next, hfail, Phase.holds, hdata]
    · rw [hmessages]
      simpa [Desk.next, boardNext, hphase, Phase.next, hfail] using hcounted
    · simp only [Desk.load, boardNext, hphase, Phase.next]
      omega
    · simp [boardNext, hfail]
    · simp [Desk.next, sendOf, boardNext, hfail, h.sends, address, ← hdata, Ticket.payload]
    · simpa [Desk.next, returnedOf, boardNext, hfail] using h.returned

theorem Mirrors.pushBack (h : Mirrors w d) {data payload : Payload} {key : String}
    (hphase : d.phase = .failed data)
    (hnone : (d.board.settle maxRetries).flight = .none)
    (hattempts : (d.board.settle maxRetries).attempts = d.board.attempts)
    (hdelivered : (d.board.settle maxRetries).delivered = d.board.delivered)
    (hqueue : Function.update w.lists key (payload :: w.lists key) queueKey =
      (d.board.settle maxRetries).waiting.map Ticket.payload)
    (hdead : Function.update w.lists key (payload :: w.lists key) deadLetterKey =
      ((d.board.settle maxRetries).dead.map Ticket.payload).reverse) :
    Mirrors (QueueWorld.serve (.lpush key payload) w).2
      (d.next (.sender, ⟨.lpush key payload, (QueueWorld.serve (.lpush key payload) w).1⟩)) := by
  have hkeep := serve_keeps_reliable h.reliable (.lpush key payload)
  have hcounted := h.counted
  have hload := @Board.left_settle _ maxRetries d.board
  rw [hphase] at hcounted
  rw [serve_reliable h.reliable (by simp)] at hkeep ⊢
  refine ⟨hkeep, hqueue, hdead, h.sound.settle, ?_, ?_, h.lighter ?_ (by simp [boardNext]), ?_, ?_⟩
  · simp [Desk.next, boardNext, hphase, Phase.next, hnone, Phase.holds]
  · simpa [Desk.next, boardNext, hphase, Phase.next, hdelivered, QueueWorld.effect,
      QueueWorld.next] using hcounted
  · simp only [Desk.load, boardNext, hphase, Phase.next]
    omega
  · simpa [Desk.next, sendOf, boardNext, hattempts] using h.sends
  · simpa [Desk.next, returnedOf, boardNext, hdelivered] using h.returned

theorem Mirrors.requeue (h : Mirrors w d) {data : Payload} (hphase : d.phase = .failed data) :
    Mirrors (QueueWorld.serve (retryCall data) w).2
      (d.next (.sender, ⟨retryCall data, (QueueWorld.serve (retryCall data) w).1⟩)) := by
  have hflight := h.flight
  rw [hphase] at hflight
  obtain ⟨t, hfailed, rfl⟩ : ∃ t, d.board.flight = .failed t ∧ t.payload = data := by
    cases hf : d.board.flight with
    | failed t => exact ⟨t, rfl, by simpa [hf, Phase.holds] using hflight⟩
    | _ => simp [hf, Phase.holds] at hflight
  unfold retryCall
  by_cases hlt : t.retries < maxRetries
  · have hsettle : d.board.settle maxRetries = { d.board with
        flight := .none
        waiting := { t with retries := t.retries + 1 } :: d.board.waiting } := by
      simp [Board.settle, hfailed, hlt]
    rw [payload_retried, payload_retries, if_pos hlt]
    refine h.pushBack hphase ?_ ?_ ?_ ?_ ?_
    · simp [hsettle]
    · simp [hsettle]
    · simp [hsettle]
    · simp [hsettle, h.queue]
    · simp [hsettle, h.dead, deadLetterKey_ne]
  · have hsettle : d.board.settle maxRetries = { d.board with
        flight := .none
        dead := d.board.dead ++ [t] } := by
      simp [Board.settle, hfailed, hlt]
    rw [payload_retries, if_neg hlt]
    refine h.pushBack hphase ?_ ?_ ?_ ?_ ?_
    · simp [hsettle]
    · simp [hsettle]
    · simp [hsettle]
    · simp [hsettle, h.queue, deadLetterKey_ne.symm]
    · simp [hsettle, h.dead]

theorem Mirrors.quiet (h : Mirrors w d) {c : TelegramCall}
    (hc : d.phase = .sent ∧ c = .countSent ∨ d.phase = .settled ∧ c = .sleep minInterval) :
    Mirrors (QueueWorld.serve c w).2
      (d.next (.sender, ⟨c, (QueueWorld.serve c w).1⟩)) := by
  have hkeep := serve_keeps_reliable h.reliable c
  have hflight := h.flight
  have hcounted := h.counted
  rcases hc with ⟨hphase, rfl⟩ | ⟨hphase, rfl⟩
  all_goals
    rw [hphase] at hflight hcounted
    rw [serve_reliable h.reliable (by simp)] at hkeep ⊢
    refine ⟨hkeep, h.queue, h.dead, h.sound, ?_, ?_, h.lighter ?_ rfl, ?_, ?_⟩
    · cases hf : d.board.flight <;>
        simp [Desk.next, boardNext, hphase, Phase.next, hf, Phase.holds] at hflight ⊢
    · simpa [Desk.next, boardNext, hphase, Phase.next, QueueWorld.effect, QueueWorld.next]
        using hcounted
    · simp only [Desk.load, boardNext, hphase, Phase.next]
      omega
    · simpa [Desk.next, sendOf, boardNext] using h.sends
    · simpa [Desk.next, returnedOf, boardNext] using h.returned

theorem Mirrors.sender (h : Mirrors w d) {c : TelegramCall}
    (hc : d.phase.allows ⟨c, (QueueWorld.serve c w).1⟩) :
    Mirrors (QueueWorld.serve c w).2
      (d.next (.sender, ⟨c, (QueueWorld.serve c w).1⟩)) := by
  cases hphase : d.phase with
  | idle =>
    obtain rfl : c = .brpop queueKey := by simpa [hphase, Phase.allows] using hc
    exact h.take hphase
  | popped data =>
    obtain rfl : c = .sendMessage data.chatId data.text := by
      simpa [hphase, Phase.allows] using hc
    exact h.send hphase
  | sent =>
    obtain rfl : c = .countSent := by simpa [hphase, Phase.allows] using hc
    exact h.quiet (.inl ⟨hphase, rfl⟩)
  | failed data =>
    obtain rfl : c = retryCall data := by simpa [hphase, Phase.allows] using hc
    exact h.requeue hphase
  | settled =>
    obtain rfl : c = .sleep minInterval := by simpa [hphase, Phase.allows] using hc
    exact h.quiet (.inr ⟨hphase, rfl⟩)

end Step

def queueMonitor : QueueTask → Monitor (Event Telegram)
  | .sender => senderMonitor
  | .caller _ => callerMonitor

@[reducible] def deskMonitor : Monitor (QueueTask × Event Telegram) where
  State := Desk
  next := Desk.next
  allows _ _ := True

@[reducible] def anyLog : Monitor (QueueTask × Event Telegram) where
  State := Unit
  next _ _ := ()
  allows _ _ := True

theorem anyLog_accepts (log : List (QueueTask × Event Telegram)) : anyLog.Accepts () log :=
  (anyLog.accepts_still fun _ _ => ⟨trivial, rfl⟩).1

def Followed (w : QueueWorld) (q : (i : QueueTask) → (queueMonitor i).State) (_ : Unit)
    (d : Desk) : Prop :=
  q .sender = d.phase ∧ Mirrors w d

theorem followed_step (w : QueueWorld) (q : (i : QueueTask) → (queueMonitor i).State) (u : Unit)
    (d : Desk) (i : QueueTask) (c : TelegramCall) (h : Followed w q u d)
    (hi : (queueMonitor i).allows (q i) ⟨c, (QueueWorld.serve c w).1⟩) :
    Followed (QueueWorld.serve c w).2
      (Function.update q i ((queueMonitor i).next (q i) ⟨c, (QueueWorld.serve c w).1⟩)) u
      (d.next (i, ⟨c, (QueueWorld.serve c w).1⟩)) := by
  obtain ⟨hphase, hmirror⟩ := h
  cases i with
  | sender =>
    refine ⟨?_, hmirror.sender (hphase ▸ hi)⟩
    rw [Function.update_self]
    change Phase.next (q .sender) _ = d.phase.next _
    rw [hphase]
  | caller i =>
    refine ⟨?_, hmirror.caller hi i⟩
    rw [Function.update_of_ne (by simp), hphase]
    cases c <;> rfl

theorem quiet_sender (d : Desk) (es : List (Event Telegram)) :
    ((es.map (Prod.mk QueueTask.sender)).foldl Desk.next d).quiet = d.quiet + es.length := by
  induction es generalizing d with
  | nil => rfl
  | cons e es ih =>
    rw [List.map_cons, List.foldl_cons, ih, List.length_cons]
    change d.quiet + 1 + es.length = _
    omega

theorem pushed_sender (d : Desk) (es : List (Event Telegram)) :
    ((es.map (Prod.mk QueueTask.sender)).foldl Desk.next d).board.pushed = d.board.pushed := by
  induction es generalizing d with
  | nil => rfl
  | cons e es ih =>
    rw [List.map_cons, List.foldl_cons, ih]
    exact boardNext_pushed d.board e

section Interleaved
variable [PyText] (defaultChat : String) (n : ℕ)
  (requests : ℕ → String × Option String) (schedule : List QueueTask) {w : QueueWorld}

theorem mirrors_interleaved (h : w.Reliable) (hqueue : w.lists queueKey = [])
    (hdead : w.lists deadLetterKey = []) (hsent : w.messagesSent = 0) :
    Mirrors (runTasks QueueWorld.serve schedule (queueTasks defaultChat n requests) w).state
      (deskOf (runTasks QueueWorld.serve schedule (queueTasks defaultChat n requests) w).log) := by
  have hf := follows_runTasks QueueWorld.serve schedule (queueTasks defaultChat n requests) w
  let q : (i : QueueTask) → (queueMonitor i).State
    | .sender => Phase.idle
    | .caller _ => ()
  have hown : ∀ i, (queueMonitor i).Accepts (q i)
      (own i (runTasks QueueWorld.serve schedule (queueTasks defaultChat n requests) w).log) := by
    intro i
    obtain ⟨rest, w', r, hrest, hends⟩ :=
      ends_runTasks QueueWorld.serve schedule (queueTasks defaultChat n requests) w i
    cases i with
    | sender =>
      have hall := dependable_of_follows ((follows_append _ _ _ _ _).mpr ⟨_, hf, hrest⟩) h
      obtain ⟨hmerged, hlater⟩ := (dependable_append _ _).mp hall
      have hes := (dependable_append _ _).mpr
        ⟨fun e he => hmerged e (own_subset .sender _ e he), hlater⟩
      exact ((senderMonitor.accepts_append _ _ _).mp (senderTask_accepts hends hes).1).1
    | caller i =>
      exact ((callerMonitor.accepts_append _ _ _).mp (callerTask_accepts hends)).1
  obtain ⟨-, q', u, -, hend⟩ := accepts_of_tasks QueueWorld.serve queueMonitor anyLog deskMonitor
    Followed (fun w q u d i c hinv hi _ => ⟨trivial, followed_step w q u d i c hinv hi⟩) hf
    ⟨rfl, mirrors_start h hqueue hdead hsent⟩ hown (anyLog_accepts _)
  exact hend

theorem sender_running (h : w.Reliable) (hn : schedule.length < n) :
    ((runTasks QueueWorld.serve schedule (queueTasks defaultChat n requests) w).tasks
      .sender).isDone = false := by
  by_contra hdone
  have hdone := Bool.eq_true_of_not_eq_false hdone
  obtain ⟨r, hends⟩ := ends_of_isDone QueueWorld.serve schedule _ w .sender hdone
  have hmerged := dependable_of_follows
    (follows_runTasks QueueWorld.serve schedule (queueTasks defaultChat n requests) w) h
  have hlength := (senderTask_accepts hends
    fun e he => hmerged e (own_subset .sender _ e he)).2
  have hown := own_length .sender
    (runTasks QueueWorld.serve schedule (queueTasks defaultChat n requests) w).log
  have hlog := runTasks_length QueueWorld.serve schedule (queueTasks defaultChat n requests) w
  omega

theorem queue_empties (h : w.Reliable) (hqueue : w.lists queueKey = [])
    (hdead : w.lists deadLetterKey = []) (hsent : w.messagesSent = 0) {k : ℕ}
    (hn : schedule.length + k < n)
    (hk : messageSteps * (deskOf (runTasks QueueWorld.serve schedule
      (queueTasks defaultChat n requests) w).log).board.pushed.length ≤ k) :
    (runTasks QueueWorld.serve (schedule ++ List.replicate k .sender)
      (queueTasks defaultChat n requests) w).state.lists queueKey = [] := by
  have hmirror := mirrors_interleaved defaultChat n requests
    (schedule ++ List.replicate k .sender) h hqueue hdead hsent
  have hrunning := sender_running defaultChat n requests
    (schedule ++ List.replicate k .sender) h (by simpa using hn)
  rw [runTasks_append] at hrunning
  obtain ⟨es, hlog, hlength⟩ :=
    runTasks_replicate QueueWorld.serve k QueueTask.sender _ _ hrunning
  have hdesk : deskOf (runTasks QueueWorld.serve (schedule ++ List.replicate k .sender)
      (queueTasks defaultChat n requests) w).log = (es.map (Prod.mk QueueTask.sender)).foldl
        Desk.next (deskOf (runTasks QueueWorld.serve schedule
          (queueTasks defaultChat n requests) w).log) := by
    rw [runTasks_append, deskOf, List.foldl_append, hlog, deskOf]
  rw [hdesk] at hmirror
  have hlight := hmirror.light
  rw [quiet_sender, pushed_sender, hlength] at hlight
  generalize (es.map (Prod.mk QueueTask.sender)).foldl Desk.next _ = d at hmirror hlight
  have hleft : d.board.left maxRetries = 0 := by
    unfold Desk.load at hlight
    cases hphase : d.phase <;> simp only [hphase] at hlight <;> omega
  rw [hmirror.queue, hmirror.sound.waiting_nil hleft]
  rfl

theorem enqueued_returned (h : w.Reliable) (i : ℕ) :
    let run := runTasks QueueWorld.serve schedule (queueTasks defaultChat n requests) w
    (enqueued run.log).filter (fun p => p.1 = i) = [] ∧ (run.tasks (.caller i)).isDone = false ∨
      ∃ id, (enqueued run.log).filter (fun p => p.1 = i) =
          [(i, requested defaultChat (requests i) id)] ∧
        run.tasks (.caller i) = .done (.ok (some id)) := by
  have hall := dependable_of_follows
    (follows_runTasks QueueWorld.serve schedule (queueTasks defaultChat n requests) w) h
  simp only [enqueued_own]
  exact callerTask_reaches
    (reaches_runTasks QueueWorld.serve schedule (queueTasks defaultChat n requests) w (.caller i))
    fun e he => hall e (own_subset (.caller i) _ e he)

/-- A call has pushed its request, once, exactly where it has returned its id; what has ended
has returned one. -/
theorem enqueued_once (h : w.Reliable) :
    let run := runTasks QueueWorld.serve schedule (queueTasks defaultChat n requests) w
    ((enqueued run.log).map Prod.fst).Nodup ∧
      (∀ i m, (i, m) ∈ enqueued run.log ↔ m = requested defaultChat (requests i) m.id ∧
        run.tasks (.caller i) = .done (.ok (some m.id))) ∧
      ∀ i r, run.tasks (.caller i) = .done r → ∃ id, r = .ok (some id) := by
  intro run
  have hcall := enqueued_returned defaultChat n requests schedule h
  refine ⟨List.nodup_iff_count.mpr fun i => ?_, fun i m => ?_, fun i r hr => ?_⟩
  · have hcount : ((enqueued run.log).map Prod.fst).count i =
        ((enqueued run.log).filter fun p => p.1 = i).length := by
      rw [List.count, List.countP_map, List.countP_eq_length_filter]
      rfl
    rw [hcount]
    rcases hcall i with ⟨hnone, -⟩ | ⟨id, hone, -⟩
    · rw [hnone]
      exact Nat.zero_le 1
    · rw [hone]
      exact le_refl 1
  · have hmem : (i, m) ∈ enqueued run.log ↔
        (i, m) ∈ (enqueued run.log).filter fun p => p.1 = i := by
      simp
    rw [hmem]
    rcases hcall i with ⟨hnone, hrunning⟩ | ⟨id, hone, hdone⟩
    · rw [hnone]
      refine iff_of_false List.not_mem_nil fun hm => ?_
      rw [hm.2] at hrunning
      cases hrunning
    · rw [hone, List.mem_singleton, hdone]
      constructor
      · intro hm
        obtain rfl := (Prod.mk.inj hm).2
        exact ⟨rfl, rfl⟩
      · rintro ⟨hm, hid⟩
        obtain rfl := Option.some.inj (Except.ok.inj (Prog.done.inj hid))
        exact congrArg (Prod.mk i) hm
  · rcases hcall i with ⟨-, hrunning⟩ | ⟨id, -, hdone⟩
    · rw [hr] at hrunning
      cases hrunning
    · rw [hdone] at hr
      exact ⟨id, (Prog.done.inj hr).symm⟩

/-- Whatever the interleaving: every call that has returned has pushed its message, once, under
the id it returned, and nothing else was pushed; every message is at one place of the board, the
lists in Redis are what the board says, the attempts are the sends, the counter counts the
returned ones, and the sender alone empties the queue. -/
theorem queue_conserved (h : w.Reliable) (hqueue : w.lists queueKey = [])
    (hdead : w.lists deadLetterKey = []) (hsent : w.messagesSent = 0) :
    let run := runTasks QueueWorld.serve schedule (queueTasks defaultChat n requests) w
    let desk := deskOf run.log
    desk.board.pushed = (enqueued run.log).map Prod.snd ∧
      ((enqueued run.log).map Prod.fst).Nodup ∧
      (∀ i m, (i, m) ∈ enqueued run.log ↔ m = requested defaultChat (requests i) m.id ∧
        run.tasks (.caller i) = .done (.ok (some m.id))) ∧
      (∀ i r, run.tasks (.caller i) = .done r → ∃ id, r = .ok (some id)) ∧
      desk.board.Lawful maxRetries ∧
      run.state.lists queueKey = desk.board.waiting.map Ticket.payload ∧
      run.state.lists deadLetterKey = (desk.board.dead.map Ticket.payload).reverse ∧
      desk.sends = desk.board.attempts.map address ∧
      desk.returned = desk.board.delivered.map address ∧
      run.state.messagesSent + (if desk.phase = .sent then 1 else 0) =
        desk.board.delivered.length ∧
      ∀ k, messageSteps * desk.board.pushed.length ≤ k → schedule.length + k < n →
        (runTasks QueueWorld.serve (schedule ++ List.replicate k .sender)
          (queueTasks defaultChat n requests) w).state.lists queueKey = [] := by
  have hmirror := mirrors_interleaved defaultChat n requests schedule h hqueue hdead hsent
  obtain ⟨hnodup, hpushes, hended⟩ := enqueued_once defaultChat n requests schedule h
  exact ⟨pushed_enqueued .start _, hnodup, hpushes, hended, hmirror.sound.lawful, hmirror.queue,
    hmirror.dead, hmirror.sends, hmirror.returned, hmirror.counted, fun k hk hn =>
      queue_empties defaultChat n requests schedule h hqueue hdead hsent hn hk⟩

end Interleaved

def flakyTelegram : QueueWorld where
  lists := fun _ => []
  delivered := []
  messagesSent := 0
  outside := fun k => ⟨none, if k < 8 then some (.callFailed false) else none, 0⟩
  tick := 0

theorem flakyTelegram_reliable : flakyTelegram.Reliable := by
  intro k
  refine ⟨rfl, fun x hx => ?_⟩
  simp only [flakyTelegram] at hx
  split at hx
  · obtain rfl := Option.some.inj hx
    rfl
  · cases hx

def flakyRequests : ℕ → String × Option String
  | 0 => ("spread", none)
  | _ => ("trade", some "desk")

/-- The second call overtakes the first; the text of the first is sent twice. -/
theorem queue_conserved_flaky :
    let schedule := [.caller 0, .caller 1, .caller 1, .sender, .caller 0, .sender]
    let tasks := @queueTasks (PyText.ofTables [] []) "chat" 60 flakyRequests
    let run := runTasks QueueWorld.serve schedule tasks flakyTelegram
    ((deskOf run.log).board.pushed = (enqueued run.log).map Prod.snd ∧
      (deskOf run.log).board.Lawful maxRetries) ∧
    enqueued run.log = [(1, ⟨"desk", "trade", "msg_0"⟩), (0, ⟨"chat", "spread", "msg_0"⟩)] ∧
    (runTasks QueueWorld.serve (schedule ++ List.replicate 32 .sender) tasks
      flakyTelegram).state.lists queueKey = [] := by
  have hall := @queue_conserved (PyText.ofTables [] []) "chat" 60 flakyRequests
    [.caller 0, .caller 1, .caller 1, .sender, .caller 0, .sender] flakyTelegram
    flakyTelegram_reliable rfl rfl rfl
  obtain ⟨hpushed, -, -, -, hlawful, -, -, -, -, -, hempty⟩ := hall
  exact ⟨⟨hpushed, hlawful⟩, by decide +kernel, hempty 32 (by decide +kernel) (by decide)⟩

end CriptoParser
