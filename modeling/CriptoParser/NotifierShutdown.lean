import CriptoParser.NotifierDelivery
import Mathlib.Algebra.Order.Group.Multiset

set_option autoImplicit false

namespace CriptoParser

open Await Retry

def queued (w : QueueWorld) : Multiset Message :=
  (w.lists queueKey ++ w.lists deadLetterKey).map Payload.message

/-- What was queued and has not been delivered in between is still queued. -/
def Kept (w w' : QueueWorld) : Prop :=
  ∃ ds : List Message, w'.delivered = w.delivered ++ ds.map (fun m => (m.chatId, m.text)) ∧
    queued w ≤ queued w' + ds

theorem Kept.refl (w : QueueWorld) : Kept w w := ⟨[], by simp, by simp⟩

theorem Kept.trans {a b c : QueueWorld} (h : Kept a b) (h' : Kept b c) : Kept a c := by
  obtain ⟨ds, hds, hle⟩ := h
  obtain ⟨es, hes, hle'⟩ := h'
  refine ⟨ds ++ es, by rw [hes, hds, List.map_append, List.append_assoc], ?_⟩
  calc queued a ≤ queued b + ds := hle
    _ ≤ queued c + es + ds := add_le_add hle' (le_refl _)
    _ = queued c + ((ds : Multiset Message) + es) := by rw [add_assoc, add_comm (es : Multiset Message)]
    _ = queued c + ((ds ++ es : List Message) : Multiset Message) := by rw [Multiset.coe_add]

theorem Kept.queued_le {w w' : QueueWorld} (h : Kept w w') (hsame : w'.delivered = w.delivered) :
    queued w ≤ queued w' := by
  obtain ⟨ds, hds, hle⟩ := h
  rw [hsame] at hds
  have hnone : ds = [] := by simpa using congrArg List.length hds
  simpa [hnone] using hle

def Alike (w w' : QueueWorld) : Prop := w'.lists = w.lists ∧ w'.delivered = w.delivered

theorem Alike.trans {a b c : QueueWorld} (h : Alike a b) (h' : Alike b c) : Alike a c :=
  ⟨h'.1.trans h.1, h'.2.trans h.2⟩

theorem Alike.queued {w w' : QueueWorld} (h : Alike w w') : queued w' = queued w := by
  rw [CriptoParser.queued, CriptoParser.queued, h.1]

theorem Alike.kept_iff {a b c : QueueWorld} (h : Alike b c) : Kept a c ↔ Kept a b := by
  rw [Kept, Kept, h.queued, h.2]

/-- The message an iteration takes is not lost: the `BRPOP` does not raise after it has taken
it, and a send that fails undelivered is no cancellation and is followed by an `LPUSH` that is
carried out. -/
def Safe (w : QueueWorld) : Prop :=
  ∀ data, (w.lists queueKey).getLast? = some data →
    (∀ x ∈ (w.outside w.tick).fault, x.served = false) ∧
      ((w.outside w.tick).fault = none → ∀ x ∈ (w.outside (w.tick + 1)).sendFault,
        x.served = false → x.isException = true ∧
          carried (w.outside (w.tick + 2)).fault = true)

section Pass
variable (w : QueueWorld)

theorem queue_serve_snd (c : TelegramCall) :
    (QueueWorld.serve c w).2 = if carried (w.fault c) then (w.effect c).next else w.next := by
  unfold QueueWorld.serve
  cases w.fault c <;> rfl

theorem serve_alike {c : TelegramCall} (hc : Alike w (w.effect c).next) :
    Alike w (QueueWorld.serve c w).2 := by
  rw [queue_serve_snd]
  split
  · exact hc
  · exact ⟨rfl, rfl⟩

theorem senderHandler_alike (x : PyExc) :
    Alike w ((senderHandler x).run QueueWorld.serve w).2 := by
  unfold senderHandler
  split
  · exact serve_alike w ⟨rfl, rfl⟩
  · exact ⟨rfl, rfl⟩

theorem afterwards_alike (attempt : Prog Telegram Unit) :
    Alike (attempt.run QueueWorld.serve w).2
      (((attempt >>= fun _ => Prog.call (S := Telegram) (.sleep minInterval)).handle
        senderHandler).run QueueWorld.serve w).2 := by
  rw [Prog.run_handle, Prog.run_bind]
  cases (attempt.run QueueWorld.serve w).1 with
  | ok u =>
    have hsleep : Alike (attempt.run QueueWorld.serve w).2
        ((Prog.call (S := Telegram) (.sleep minInterval) : Prog Telegram Unit).run
          QueueWorld.serve (attempt.run QueueWorld.serve w).2).2 :=
      serve_alike (attempt.run QueueWorld.serve w).2 (c := .sleep minInterval) ⟨rfl, rfl⟩
    generalize (Prog.call (S := Telegram) (.sleep minInterval) : Prog Telegram Unit).run
      QueueWorld.serve (attempt.run QueueWorld.serve w).2 = out at hsleep ⊢
    obtain ⟨reply, w'⟩ := out
    cases reply with
    | ok u => exact hsleep
    | error x => exact hsleep.trans (senderHandler_alike w' x)
  | error x => exact senderHandler_alike _ x

theorem retry_queued (data : Payload) :
    queued (w.effect (retryCall data)).next = data.message ::ₘ queued w := by
  unfold retryCall
  split
  · simp [queued, QueueWorld.effect, QueueWorld.next, deadLetterKey_ne, Payload.message]
  · simp [queued, QueueWorld.effect, QueueWorld.next, deadLetterKey_ne.symm]

theorem retry_delivered (data : Payload) :
    (w.effect (retryCall data)).next.delivered = w.delivered := by
  unfold retryCall
  split <;> rfl

theorem retry_fault (data : Payload) : w.fault (retryCall data) = (w.outside w.tick).fault := by
  unfold retryCall
  split <;> rfl

/-- A message whose send raised is queued again, if the exception is caught and the push is
carried out. -/
theorem sendFailed_run (data : Payload) (x : PyExc) :
    ((sendFailed data x).run QueueWorld.serve w).2 =
      if x.isException = true ∧ carried (w.outside w.tick).fault = true then
        (w.effect (retryCall data)).next
      else if x.isException = true then w.next else w := by
  have hserve := queue_serve_snd w (retryCall data)
  rw [retry_fault] at hserve
  unfold sendFailed
  cases hx : x.isException with
  | false => rfl
  | true =>
    have hcall : ((if data.retries.getD 0 < maxRetries then
        Prog.call (S := Telegram)
          (.lpush queueKey { data with retries := some (data.retries.getD 0 + 1) })
        else Prog.call (S := Telegram) (.lpush deadLetterKey data) : Prog Telegram Unit).run
          QueueWorld.serve w).2 = (QueueWorld.serve (retryCall data) w).2 := by
      by_cases hlt : data.retries.getD 0 < maxRetries
      · have hretry : retryCall data = _ := if_pos hlt
        rw [hretry, if_pos hlt]
        rfl
      · have hretry : retryCall data = _ := if_neg hlt
        rw [hretry, if_neg hlt]
        rfl
    rw [if_pos rfl, hcall, hserve]
    simp

theorem sendData_run (data : Payload) :
    (sendData data).run QueueWorld.serve w =
      match w.now.sendFault with
      | none => (.ok (), ((w.effect (.sendMessage data.chatId data.text)).next.effect
          .countSent).next)
      | some x => (.error x, if x.served then (w.effect (.sendMessage data.chatId data.text)).next
          else w.next) := by
  rw [sendData, Prog.run_bind]
  have hserve : (Prog.call (S := Telegram) (.sendMessage data.chatId data.text) :
      Prog Telegram Unit).run QueueWorld.serve w =
        match w.now.sendFault with
        | none => (.ok (), (w.effect (.sendMessage data.chatId data.text)).next)
        | some x => (.error x, if x.served then
            (w.effect (.sendMessage data.chatId data.text)).next else w.next) := rfl
  rw [hserve]
  cases w.now.sendFault <;> rfl

theorem attempt_delivers {data : Payload} (h : carried w.now.sendFault = true) :
    (((sendData data).handle (sendFailed data)).run QueueWorld.serve w).2.delivered =
        w.delivered ++ [(data.chatId, data.text)] ∧
      queued w ≤ queued (((sendData data).handle (sendFailed data)).run QueueWorld.serve w).2 := by
  rw [Prog.run_handle, sendData_run]
  cases hf : w.now.sendFault with
  | none => exact ⟨rfl, le_refl _⟩
  | some x =>
    have hx : x.served = true := by simpa [carried, hf] using h
    simp only [hx, if_true, sendFailed_run]
    split
    · rw [retry_delivered, retry_queued]
      exact ⟨rfl, Multiset.le_cons_self _ _⟩
    · split <;> exact ⟨rfl, le_refl _⟩

theorem attempt_fails {data : Payload} {x : PyExc} (hf : w.now.sendFault = some x)
    (hx : x.served = false) :
    (((sendData data).handle (sendFailed data)).run QueueWorld.serve w).2.delivered =
        w.delivered ∧
      queued (((sendData data).handle (sendFailed data)).run QueueWorld.serve w).2 =
        if x.isException = true ∧ carried (w.outside (w.tick + 1)).fault = true then
          data.message ::ₘ queued w
        else queued w := by
  rw [Prog.run_handle, sendData_run]
  simp only [hf, hx, Bool.false_eq_true, if_false, sendFailed_run]
  have hfault : (w.next.outside w.next.tick).fault = (w.outside (w.tick + 1)).fault := rfl
  rw [hfault]
  split
  · rw [retry_delivered, retry_queued]
    exact ⟨rfl, rfl⟩
  · split <;> exact ⟨rfl, rfl⟩

theorem senderPass_run :
    senderPass.run QueueWorld.serve w =
      match w.now.fault with
      | some x => (senderHandler x).run QueueWorld.serve
          (if x.served then (w.effect (.brpop queueKey)).next else w.next)
      | none =>
        match (w.lists queueKey).getLast? with
        | none => (.ok (), (w.effect (.brpop queueKey)).next)
        | some data => (((sendData data).handle (sendFailed data) >>= fun _ =>
            Prog.call (S := Telegram) (.sleep minInterval)).handle senderHandler).run
              QueueWorld.serve (w.effect (.brpop queueKey)).next := by
  have hserve : (Prog.call (S := Telegram) (.brpop queueKey) :
      Prog Telegram (Option Payload)).run QueueWorld.serve w =
        match w.now.fault with
        | none => (.ok (w.lists queueKey).getLast?, (w.effect (.brpop queueKey)).next)
        | some x => (.error x, if x.served then (w.effect (.brpop queueKey)).next
            else w.next) := rfl
  rw [senderPass, senderBody, Prog.run_handle, Prog.run_bind, hserve]
  cases w.now.fault with
  | some x => rfl
  | none =>
    cases (w.lists queueKey).getLast? with
    | none => rfl
    | some data => exact (Prog.run_handle QueueWorld.serve _ _ _).symm

theorem take_none (h : (w.lists queueKey).getLast? = none) :
    Alike w (w.effect (.brpop queueKey)).next := by
  have hempty : w.lists queueKey = [] := List.getLast?_eq_none_iff.mp h
  refine ⟨?_, rfl⟩
  change Function.update w.lists queueKey (w.lists queueKey).dropLast = w.lists
  rw [hempty, List.dropLast_nil, ← hempty, Function.update_eq_self]

theorem take_some {data : Payload} (h : (w.lists queueKey).getLast? = some data) :
    queued w = data.message ::ₘ queued (w.effect (.brpop queueKey)).next := by
  obtain ⟨rest, hrest⟩ := List.getLast?_eq_some_iff.mp h
  simp [queued, QueueWorld.effect, QueueWorld.next, hrest, deadLetterKey_ne]

theorem not_kept {w' : QueueWorld} {m : Message} (hsame : w'.delivered = w.delivered)
    (h : queued w = m ::ₘ queued w') : ¬Kept w w' := by
  intro hkept
  have hle := Multiset.card_le_card (hkept.queued_le hsame)
  rw [h, Multiset.card_cons] at hle
  omega

theorem delivered_kept {data : Payload}
    (h : queued w = data.message ::ₘ queued (w.effect (.brpop queueKey)).next)
    (hcarried : carried (w.effect (.brpop queueKey)).next.now.sendFault = true) :
    Kept w (((sendData data).handle (sendFailed data)).run QueueWorld.serve
      (w.effect (.brpop queueKey)).next).2 := by
  obtain ⟨hdelivered, hle⟩ := attempt_delivers (w.effect (.brpop queueKey)).next hcarried
  refine ⟨[data.message], hdelivered, ?_⟩
  rw [h, ← Multiset.singleton_add, add_comm]
  exact add_le_add hle (le_refl _)

theorem pass_kept_iff : Kept w (senderPass.run QueueWorld.serve w).2 ↔ Safe w := by
  rw [senderPass_run]
  cases hlast : (w.lists queueKey).getLast? with
  | none =>
    have hsafe : Safe w := fun data h => by rw [hlast] at h; cases h
    have htake := take_none w hlast
    refine iff_of_true ?_ hsafe
    cases hf : w.now.fault with
    | none => exact htake.kept_iff.mpr (Kept.refl w)
    | some x =>
      refine (senderHandler_alike _ x).kept_iff.mpr ?_
      split
      · exact htake.kept_iff.mpr (Kept.refl w)
      · exact Kept.refl w
  | some data =>
    have htake := take_some w hlast
    have hfault : (w.outside w.tick).fault = w.now.fault := rfl
    simp only [Safe, hlast, Option.some.injEq, forall_eq', hfault]
    cases hf : w.now.fault with
    | some x =>
      simp only [(senderHandler_alike _ x).kept_iff]
      cases hx : x.served with
      | true =>
        refine iff_of_false (not_kept w rfl htake) ?_
        simp [hx]
      | false =>
        refine iff_of_true (Kept.refl w) ?_
        simp [hx]
    | none =>
      simp only [(afterwards_alike _ _).kept_iff]
      have hsends : (w.effect (.brpop queueKey)).next.now.sendFault =
          (w.outside (w.tick + 1)).sendFault := rfl
      cases hcarried : carried (w.outside (w.tick + 1)).sendFault with
      | true =>
        refine iff_of_true (delivered_kept w htake (hsends ▸ hcarried)) ⟨nofun, ?_⟩
        intro _ x hx hserved
        simp [carried, Option.mem_def.mp hx, hserved] at hcarried
      | false =>
        obtain ⟨x, hx, hserved⟩ : ∃ x, (w.outside (w.tick + 1)).sendFault = some x ∧
            x.served = false := by
          cases hs : (w.outside (w.tick + 1)).sendFault with
          | none => simp [carried, hs] at hcarried
          | some x => exact ⟨x, rfl, by simpa [carried, hs] using hcarried⟩
        obtain ⟨hsame, hqueued⟩ :=
          @attempt_fails (w.effect (.brpop queueKey)).next data x (hsends.trans hx) hserved
        have hretry : ((w.effect (.brpop queueKey)).next.outside
            ((w.effect (.brpop queueKey)).next.tick + 1)).fault =
              (w.outside (w.tick + 2)).fault := rfl
        rw [hretry] at hqueued
        by_cases hpush : x.isException = true ∧ carried (w.outside (w.tick + 2)).fault = true
        · rw [if_pos hpush, ← htake] at hqueued
          refine iff_of_true ⟨[], hsame.trans (List.append_nil w.delivered).symm, by simp [hqueued]⟩
            ⟨nofun, ?_⟩
          intro _ y hy _
          rw [hx] at hy
          cases hy
          exact hpush
        · rw [if_neg hpush] at hqueued
          refine iff_of_false (not_kept w hsame (by rw [hqueued, ← htake])) ?_
          intro hsafe
          exact hpush (hsafe.2 trivial x hx hserved)

end Pass

def SafeRun : ℕ → QueueWorld → Prop
  | 0, _ => True
  | n + 1, w => Safe w ∧ ((senderPass.run QueueWorld.serve w).1 = .ok () →
      SafeRun n (senderPass.run QueueWorld.serve w).2)

theorem loop_kept {n : ℕ} {w : QueueWorld} (h : SafeRun n w) :
    Kept w ((senderLoop n).run QueueWorld.serve w).2 := by
  induction n generalizing w with
  | zero => exact Kept.refl w
  | succ n ih =>
    have hpass := (pass_kept_iff w).mpr h.1
    rw [senderLoop, Prog.run_bind]
    cases hreply : (senderPass.run QueueWorld.serve w).1 with
    | ok u => exact hpass.trans (ih (h.2 hreply))
    | error x => exact hpass

/-- What is cut short at any await of an iteration keeps every message exactly when the
iteration is safe; a run of safe iterations, however it ends, keeps every message. -/
theorem kept_iff_safe (w : QueueWorld) :
    (Kept w (senderPass.run QueueWorld.serve w).2 ↔ Safe w) ∧
      ∀ n, SafeRun n w → Kept w ((senderLoop n).run QueueWorld.serve w).2 :=
  ⟨pass_kept_iff w, fun _ h => loop_kept h⟩

/-- One message in the queue; the task is cancelled while it is sent. -/
def stoppedWorld : QueueWorld where
  lists key := if key = queueKey then [⟨"chat", "text", "msg_0", none⟩] else []
  delivered := []
  messagesSent := 0
  outside n := ⟨none, if n = 1 then some (.cancelled false) else none, 0⟩
  tick := 0

theorem stopped_loses : ¬Kept stoppedWorld (senderPass.run QueueWorld.serve stoppedWorld).2 := by
  intro h
  have hle : queued stoppedWorld ≤
      queued (senderPass.run QueueWorld.serve stoppedWorld).2 := h.queued_le rfl
  exact absurd hle (by decide +kernel)

/-- The same message; the send fails and the push is carried out. -/
def pushedWorld : QueueWorld :=
  { stoppedWorld with
    outside := fun n => ⟨none, if n = 1 then some (.callFailed false) else none, 0⟩ }

theorem kept_iff_safe_pushed :
    Kept pushedWorld ((senderLoop 1).run QueueWorld.serve pushedWorld).2 := by
  refine (kept_iff_safe pushedWorld).2 1 ⟨fun data _ => ⟨nofun, ?_⟩, fun _ => trivial⟩
  intro _ x hx _
  obtain rfl := Option.some.inj hx
  exact ⟨rfl, rfl⟩

end CriptoParser
