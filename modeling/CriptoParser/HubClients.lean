import CriptoParser.AwaitRules
import CriptoParser.GatewayHub
import Mathlib.Data.List.TakeWhile

/-!
The clients of the hub over any interleaving of the endpoints and the broadcasters: who is in the
set of active sockets, and what is still sent to a socket that has been taken out of it.
-/

set_option autoImplicit false

namespace CriptoParser

open Await Streams

def HubCall.sendsTo : HubCall → Option ℕ
  | .feed (.send ws _ _) | .sendSystem ws _ | .sendPrices ws _ => some ws
  | _ => none

def HubCall.drops (ws : ℕ) : HubCall → Bool
  | .feed (.disconnect k) => k == ws
  | _ => false

def admits (ws : ℕ) : Event Hub → Bool
  | ⟨.accept k, .ok _⟩ => k == ws
  | _ => false

/-- The sockets of the last snapshot, and those of them that have not been sent to yet. -/
structure Fan where
  seen : List ℕ
  pending : List ℕ

def Fan.step (q : Fan) : Event Hub → Fan
  | ⟨.feed .active, .ok clients⟩ => ⟨clients, clients⟩
  | ⟨.feed (.send _ _ _), _⟩ | ⟨.sendPrices _ _, _⟩ => { q with pending := q.pending.tail }
  | _ => q

/-- A broadcaster sends to the sockets of its snapshot, to each once, and takes out only such. -/
def Fan.allows (q : Fan) : HubCall → Prop
  | .feed (.send ws _ _) | .sendPrices ws _ => ∃ rest, q.pending = ws :: rest
  | .feed (.disconnect ws) => ws ∈ q.seen
  | .feed _ | .xrevrange => True
  | _ => False

abbrev fanning {S : Signature} (inHub : Event S → Event Hub) : Monitor (Event S) where
  State := Fan
  next q e := q.step (inHub e)
  allows q e := q.allows (inHub e).call

def feedInHub (e : Event Feed) : Event Hub := ⟨.feed e.call, e.reply⟩

theorem overFeed_meets {α : Type} {p : Prog Feed α} {q : Fan}
    {post : Except PyExc α → Fan → Prop}
    (h : p.Meets (fanning feedInHub) (fun _ _ => True) q post) :
    (overFeed p).Meets (fanning id) (fun _ _ => True) q post := by
  induction p generalizing q with
  | done r => exact h
  | await c k ih => exact fun a _ => ⟨(h a trivial).1, ih a (h a trivial).2⟩

section
variable {C : Type} {R : C → Type} {inHub : Event ⟨C, R, PyExc⟩ → Event Hub} {send : C} {ws : ℕ}
  {seen rest dead : List ℕ}

theorem trySend_fanning
    (hsend : ∀ a rest, (Fan.mk seen (ws :: rest)).allows (inHub ⟨send, a⟩).call ∧
      (Fan.mk seen (ws :: rest)).step (inHub ⟨send, a⟩) = ⟨seen, rest⟩)
    (hws : ws ∈ seen) (hdead : ∀ k ∈ dead, k ∈ seen) :
    (Prog.handle (do
        let _ ← Prog.call (S := ⟨C, R, PyExc⟩) send
        return dead : Prog ⟨C, R, PyExc⟩ (List ℕ)) fun x =>
          if x.isException then pure (dead ++ [ws]) else Prog.lift (.error x)).Meets (fanning inHub)
      (fun _ _ => True) ⟨seen, ws :: rest⟩
      (Prog.OnOk fun dead' q' => q' = ⟨seen, rest⟩ ∧ ∀ k ∈ dead', k ∈ seen) := by
  refine (Prog.meets_handle _ _ _).mpr ((Prog.meets_call_bind _ _ _).mpr ⟨?_, ?_⟩)
  · exact fun v _ => ⟨(hsend (.ok v) rest).1, (hsend (.ok v) rest).2, hdead⟩
  · intro x _
    refine ⟨(hsend (.error x) rest).1, ?_⟩
    change Prog.Meets _ _ (if x.isException then _ else _) _ _
    split
    · refine ⟨(hsend (.error x) rest).2, fun k hk => ?_⟩
      rcases List.mem_append.mp hk with hk | hk
      · exact hdead k hk
      · rwa [List.mem_singleton.mp hk]
    · trivial

end

theorem sendAll_fanning {channel : String} {data : Fields} {seen : List ℕ} (rest dead : List ℕ)
    (hrest : ∀ ws ∈ rest, ws ∈ seen) (hdead : ∀ ws ∈ dead, ws ∈ seen) :
    (sendAll channel data rest dead).Meets (fanning feedInHub) (fun _ _ => True) ⟨seen, rest⟩
      (Prog.OnOk fun dead' q' => q'.seen = seen ∧ ∀ ws ∈ dead', ws ∈ seen) := by
  induction rest generalizing dead with
  | nil => exact ⟨rfl, hdead⟩
  | cons ws rest ih =>
    have hone := @trySend_fanning FeedCall FeedCall.Reply feedInHub (.send ws channel data) ws seen rest dead
      (fun _ rest => ⟨⟨rest, rfl⟩, rfl⟩) (hrest ws List.mem_cons_self) hdead
    refine hone.next ?_
    rintro dead' _ ⟨rfl, hdead'⟩
    exact ih dead' (fun k hk => hrest k (List.mem_cons_of_mem _ hk)) hdead'

theorem sendPricesAll_fanning {items : List PriceItem} {seen : List ℕ} (rest dead : List ℕ)
    (hrest : ∀ ws ∈ rest, ws ∈ seen) (hdead : ∀ ws ∈ dead, ws ∈ seen) :
    (sendPricesAll items rest dead).Meets (fanning id) (fun _ _ => True) ⟨seen, rest⟩
      (Prog.OnOk fun dead' q' => q'.seen = seen ∧ ∀ ws ∈ dead', ws ∈ seen) := by
  induction rest generalizing dead with
  | nil => exact ⟨rfl, hdead⟩
  | cons ws rest ih =>
    have hone := @trySend_fanning HubCall HubCall.Reply id (.sendPrices ws items) ws seen rest dead
      (fun _ rest => ⟨⟨rest, rfl⟩, rfl⟩) (hrest ws List.mem_cons_self) hdead
    refine hone.next ?_
    rintro dead' _ ⟨rfl, hdead'⟩
    exact ih dead' (fun k hk => hrest k (List.mem_cons_of_mem _ hk)) hdead'

theorem disconnectAll_fanning {dead : List ℕ} {q : Fan} (hdead : ∀ ws ∈ dead, ws ∈ q.seen) :
    (disconnectAll dead).Meets (fanning feedInHub) (fun _ _ => True) q
      (Prog.OnOk fun _ _ => True) := by
  induction dead with
  | nil => trivial
  | cons ws rest ih =>
    refine (Prog.meets_call_bind _ _ _).mpr
      ⟨fun _ _ => ⟨hdead ws List.mem_cons_self, ?_⟩,
        fun _ _ => ⟨hdead ws List.mem_cons_self, trivial⟩⟩
    exact ih fun k hk => hdead k (List.mem_cons_of_mem _ hk)

theorem tellEntry_fanning (stream : String) (entry : Entry Fields) (q : Fan) :
    (tellEntry stream entry).Meets (fanning feedInHub) (fun _ _ => True) q
      (Prog.OnOk fun _ _ => True) := by
  refine (Prog.meets_call_bind _ _ _).mpr ⟨fun _ _ => ⟨trivial, ?_⟩, fun _ _ => ⟨trivial, trivial⟩⟩
  refine (Prog.meets_call_bind _ _ _).mpr
    ⟨fun active _ => ⟨trivial, ?_⟩, fun _ _ => ⟨trivial, trivial⟩⟩
  split
  · trivial
  · refine (sendAll_fanning active [] (fun _ h => h) (by simp)).next ?_
    rintro dead q' ⟨hseen, hdead⟩
    refine disconnectAll_fanning ?_
    rwa [hseen]

theorem tellStreams_fanning (resp : List (String × List (Entry Fields))) (q : Fan) :
    (tellStreams resp).Meets (fanning feedInHub) (fun _ _ => True) q
      (Prog.OnOk fun _ _ => True) := by
  have htell : ∀ (stream : String) (entries : List (Entry Fields)) (q : Fan),
      (tellEntries stream entries).Meets (fanning feedInHub) (fun _ _ => True) q
        (Prog.OnOk fun _ _ => True) := by
    intro stream entries
    induction entries with
    | nil => exact fun _ => trivial
    | cons entry rest ih =>
      exact fun q => (tellEntry_fanning stream entry q).next fun _ q' _ => ih q'
  induction resp generalizing q with
  | nil => trivial
  | cons read rest ih => exact (htell read.1 read.2 q).next fun _ q' _ => ih q'

theorem eventsHandler_fanning (x : PyExc) (q : Fan) :
    (eventsHandler x).Meets (fanning feedInHub) (fun _ _ => True) q
      (Prog.OnOk fun _ _ => True) := by
  unfold eventsHandler
  split
  · exact (Prog.meets_call _ _).mpr fun a _ => ⟨trivial, by cases a <;> trivial⟩
  · trivial

theorem eventsLoop_fanning (n : ℕ) (q : Fan) :
    (eventsLoop n).Meets (fanning feedInHub) (fun _ _ => True) q (Prog.OnOk fun _ _ => True) := by
  induction n generalizing q with
  | zero => trivial
  | succ n ih =>
    have hbody : eventsBody.Meets (fanning feedInHub) (fun _ _ => True) q
        (Prog.OnOk fun _ _ => True) :=
      (Prog.meets_call_bind _ _ _).mpr
        ⟨fun resp _ => ⟨trivial, tellStreams_fanning resp _⟩, fun _ _ => ⟨trivial, trivial⟩⟩
    have hpass : eventsPass.Meets (fanning feedInHub) (fun _ _ => True) q
        (Prog.OnOk fun _ _ => True) := by
      refine (Prog.meets_handle _ _ _).mpr (hbody.mono ?_)
      rintro (x | u) q' -
      · exact eventsHandler_fanning x q'
      · trivial
    exact hpass.next fun _ q' _ => ih q'

section
variable [PyText]

theorem pricesBody_fanning (q : Fan) :
    pricesBody.Meets (fanning id) (fun _ _ => True) q (Prog.OnOk fun _ _ => True) := by
  refine (Prog.meets_call_bind _ _ _).mpr ⟨fun _ _ => ⟨trivial, ?_⟩, fun _ _ => ⟨trivial, trivial⟩⟩
  refine (Prog.meets_call_bind _ _ _).mpr ⟨fun active _ => ⟨trivial, ?_⟩, fun _ _ => ⟨trivial, trivial⟩⟩
  split
  · trivial
  refine (Prog.meets_call_bind _ _ _).mpr ⟨fun entries _ => ⟨trivial, ?_⟩, fun _ _ => ⟨trivial, trivial⟩⟩
  rcases latestPrices entries [] with x | latest
  · trivial
  change Prog.Meets _ _ (if latest = [] then _ else _) _ _
  split
  · trivial
  refine (Prog.meets_call_bind _ _ _).mpr ⟨fun active _ => ⟨trivial, ?_⟩, fun _ _ => ⟨trivial, trivial⟩⟩
  refine (sendPricesAll_fanning active [] (fun _ h => h) (by simp)).next ?_
  rintro dead q' ⟨hseen, hdead⟩
  refine overFeed_meets (disconnectAll_fanning ?_)
  rwa [hseen]

theorem pricesLoop_fanning (n : ℕ) (q : Fan) :
    (pricesLoop n).Meets (fanning id) (fun _ _ => True) q (Prog.OnOk fun _ _ => True) := by
  induction n generalizing q with
  | zero => trivial
  | succ n ih =>
    have hpass : (pricesBody.handle fun x => overFeed (eventsHandler x)).Meets (fanning id)
        (fun _ _ => True) q (Prog.OnOk fun _ _ => True) := by
      refine (Prog.meets_handle _ _ _).mpr ((pricesBody_fanning q).mono ?_)
      rintro (x | u) q' -
      · exact overFeed_meets (eventsHandler_fanning x q')
      · trivial
    exact hpass.next fun _ q' _ => ih q'

inductive Seat where
  | outside
  | accepted
  | seated
  | gone
  deriving DecidableEq

def Seat.step : Seat → Event Hub → Seat
  | .outside, ⟨.accept _, .ok _⟩ => .accepted
  | .accepted, ⟨.add _, _⟩ => .seated
  | .seated, ⟨.feed (.disconnect _), _⟩ => .gone
  | q, _ => q

/-- An endpoint accepts its socket, puts it into the set, serves it and takes it out. -/
def Seat.allows (ws : ℕ) : Seat → HubCall → Prop
  | .outside, c => (∃ token, c = .decodeToken token) ∨ c = .close ws ∨ c = .accept ws
  | .accepted, c => c = .add ws
  | .seated, c => (∃ message, c = .sendSystem ws message) ∨ c = .receiveText ws ∨
      c = .feed (.disconnect ws)
  | .gone, _ => False

abbrev seating (ws : ℕ) : Monitor (Event Hub) where
  State := Seat
  next := Seat.step
  allows q e := q.allows ws e.call

abbrev staysSeated {α : Type} : Except PyExc α → Seat → Prop := fun _ q => q = .seated

theorem answerPing_seating (ws : ℕ) (raw : String) :
    (answerPing ws raw).Meets (seating ws) (fun _ _ => True) .seated staysSeated := by
  have hstay : ∀ (p : Prop) [Decidable p] (x : PyExc),
      Prog.Meets (seating ws) (fun _ _ => True) (if p then pure () else Prog.lift (.error x))
        Seat.seated staysSeated := by
    intro p _ x
    split
    · exact (rfl : Seat.seated = .seated)
    · exact (rfl : Seat.seated = .seated)
  unfold answerPing
  split
  · refine (Prog.meets_handle _ _ _).mpr ((Prog.meets_call _ _).mpr fun a _ => ⟨.inl ⟨_, rfl⟩, ?_⟩)
    rcases a with x | u
    · exact hstay _ x
    · exact (rfl : Seat.seated = .seated)
  · exact (rfl : Seat.seated = .seated)
  · exact hstay _ _

theorem receiveLoop_seating (ws : ℕ) (n : ℕ) :
    (receiveLoop ws n).Meets (seating ws) (fun _ _ => True) .seated staysSeated := by
  induction n with
  | zero => exact (rfl : Seat.seated = .seated)
  | succ n ih =>
    refine (Prog.meets_call_bind _ _ _).mpr
      ⟨fun raw _ => ⟨.inr (.inl rfl), ?_⟩, fun x _ => ⟨.inr (.inl rfl), rfl⟩⟩
    refine (Prog.meets_bind _ _ _).mpr ((answerPing_seating ws raw).mono ?_)
    rintro (x | u) q' rfl
    · rfl
    · exact ih

def returnedUnseated : Except PyExc Bool → Seat → Prop
  | .ok true, q => q = .outside ∨ q = .gone
  | _, _ => True

theorem keepClient_seating (ws : ℕ) (n : ℕ) :
    (keepClient ws n).Meets (seating ws) (fun _ _ => True) .seated returnedUnseated := by
  have hserve : (do
      Prog.call (S := Hub) (.sendSystem ws .connected)
      receiveLoop ws n
      return false : Prog Hub Bool).Meets (seating ws) (fun _ _ => True) .seated
        fun r q => q = .seated ∧ r ≠ .ok true := by
    refine (Prog.meets_call_bind _ _ _).mpr
      ⟨fun _ _ => ⟨.inl ⟨_, rfl⟩, ?_⟩, fun x _ => ⟨.inl ⟨_, rfl⟩, rfl, by simp⟩⟩
    refine (Prog.meets_bind _ _ _).mpr ((receiveLoop_seating ws n).mono ?_)
    rintro (x | u) q' rfl
    · exact ⟨rfl, by simp⟩
    · exact ⟨rfl, by simp⟩
  refine (Prog.meets_handle _ _ _).mpr (hserve.mono ?_)
  rintro (x | b) q' ⟨rfl, hr⟩
  · change Prog.Meets _ _ (if x.isException then _ else _) _ _
    split
    · exact (Prog.meets_call_bind _ _ _).mpr
        ⟨fun _ _ => ⟨.inr (.inr rfl), .inr rfl⟩, fun _ _ => ⟨.inr (.inr rfl), trivial⟩⟩
    · trivial
  · cases b with
    | true => exact absurd rfl hr
    | false => trivial

omit [PyText] in
theorem checkToken_seating (ws : ℕ) (token : Option String) :
    (checkToken ws token).Meets (seating ws) (fun _ _ => True) .outside
      fun _ q => q = .outside := by
  unfold checkToken
  split
  · exact (rfl : Seat.outside = .outside)
  refine (Prog.meets_handle _ _ _).mpr ((Prog.meets_call_bind _ _ _).mpr
    ⟨fun _ _ => ⟨.inl ⟨_, rfl⟩, rfl⟩, fun x _ => ⟨.inl ⟨_, rfl⟩, ?_⟩⟩)
  change Prog.Meets _ _ (if x.isException then _ else _) _ _
  split
  · exact (Prog.meets_call_bind _ _ _).mpr
      ⟨fun _ _ => ⟨.inr (.inl rfl), rfl⟩, fun _ _ => ⟨.inr (.inl rfl), rfl⟩⟩
  · exact (rfl : Seat.outside = .outside)

theorem wsEndpoint_seating (ws : ℕ) (token : Option String) (n : ℕ) :
    (wsEndpoint ws token n).Meets (seating ws) (fun _ _ => True) .outside returnedUnseated := by
  refine (Prog.meets_bind _ _ _).mpr ((checkToken_seating ws token).mono ?_)
  rintro (x | admitted) q' rfl
  · trivial
  cases admitted with
  | false => exact Or.inl rfl
  | true =>
    refine (Prog.meets_call_bind _ _ _).mpr
      ⟨fun _ _ => ⟨.inr (.inr rfl), ?_⟩, fun _ _ => ⟨.inr (.inr rfl), trivial⟩⟩
    refine (Prog.meets_call_bind _ _ _).mpr ⟨fun _ _ => ⟨rfl, ?_⟩, fun _ _ => ⟨rfl, trivial⟩⟩
    exact keepClient_seating ws n

end

abbrev HubLog := List (HubTask × Event Hub)

def Joined (ws : ℕ) (log : HubLog) : Prop := ∃ e ∈ log, e.2.call = .add ws

def Dropped (ws : ℕ) (log : HubLog) : Prop := ∃ e ∈ log, e.2.call.drops ws = true

def Admitted (ws : ℕ) (log : HubLog) : Prop := ∃ e ∈ log, admits ws e.2 = true

def sendsAs (b : Broadcaster) (ws : ℕ) (e : HubTask × Event Hub) : Bool :=
  e.1 = .broadcaster b && e.2.call.sendsTo = some ws

def lateSends (b : Broadcaster) (ws : ℕ) (log : HubLog) : ℕ :=
  (log.dropWhile fun e => !e.2.call.drops ws).countP (sendsAs b ws)

section
variable {ws : ℕ} {log : HubLog} {e : HubTask × Event Hub}

theorem joined_snoc : Joined ws (log ++ [e]) ↔ Joined ws log ∨ e.2.call = .add ws := by
  simp [Joined, or_and_right, exists_or]

theorem dropped_snoc : Dropped ws (log ++ [e]) ↔ Dropped ws log ∨ e.2.call.drops ws = true := by
  simp [Dropped, or_and_right, exists_or]

theorem admitted_snoc : Admitted ws (log ++ [e]) ↔ Admitted ws log ∨ admits ws e.2 = true := by
  simp [Admitted, or_and_right, exists_or]

theorem lateSends_none {b : Broadcaster} (h : ¬Dropped ws log) : lateSends b ws log = 0 := by
  have hall : log.dropWhile (fun e => !e.2.call.drops ws) = [] := by
    refine List.dropWhile_eq_nil_iff.mpr fun e he => ?_
    by_contra hdrops
    exact h ⟨e, he, by simpa using hdrops⟩
  rw [lateSends, hall]
  rfl

theorem lateSends_snoc (b : Broadcaster) :
    lateSends b ws (log ++ [e]) ≤ lateSends b ws log + if sendsAs b ws e then 1 else 0 := by
  rw [lateSends, lateSends, List.dropWhile_append]
  split
  · rename_i hnone
    rw [List.isEmpty_iff.mp hnone, List.countP_nil, Nat.zero_add]
    refine ((List.dropWhile_sublist _).countP_le).trans ?_
    rw [List.countP_singleton]
  · rw [List.countP_append, List.countP_singleton]

theorem countP_le_lateSends (b : Broadcaster) (before after : HubLog)
    (h : e.2.call.drops ws = true) :
    after.countP (sendsAs b ws) ≤ lateSends b ws (before ++ e :: after) := by
  induction before with
  | nil =>
    rw [List.nil_append, lateSends, List.dropWhile_cons_of_neg (by simp [h]), List.countP_cons]
    exact Nat.le_add_right _ _
  | cons d before ih =>
    rw [List.cons_append, lateSends, List.dropWhile_cons]
    split
    · exact ih
    · refine List.Sublist.countP_le ?_
      refine List.Sublist.cons _ ?_
      exact (List.sublist_cons_self e after).trans (List.sublist_append_right _ _)

end

abbrev hubMonitor : HubTask → Monitor (Event Hub)
  | .broadcaster _ => fanning id
  | .client ws => seating ws

/-- A socket is in the set from when its endpoint has put it there to when anyone takes it out. -/
structure Hubbed (w : HubWorld) (q : (i : HubTask) → (hubMonitor i).State) (log : HubLog) :
    Prop where
  nodup : w.active.Nodup
  active : ∀ ws, ws ∈ w.active ↔ q (.client ws) = .seated ∧ ¬Dropped ws log
  joined : ∀ ws, Joined ws log ↔ q (.client ws) = .seated ∨ q (.client ws) = .gone
  gone : ∀ ws, q (.client ws) = .gone → Dropped ws log
  dropped : ∀ ws, Dropped ws log → Joined ws log
  admitted : ∀ ws, q (.client ws) ≠ .outside → Admitted ws log
  seen : ∀ b, ∀ ws ∈ (q (.broadcaster b)).seen, Joined ws log
  distinct : ∀ b, (q (.broadcaster b)).seen.Nodup
  pending : ∀ b, (q (.broadcaster b)).pending.Sublist (q (.broadcaster b)).seen
  late : ∀ b ws, lateSends b ws log + (q (.broadcaster b)).pending.count ws ≤ 1

section
variable {w w' : HubWorld} {q : (i : HubTask) → (hubMonitor i).State} {log : HubLog}
  {b : Broadcaster} {ws : ℕ}

theorem Hubbed.still (h : Hubbed w q log) (hw : w'.active = w.active) {e : HubTask × Event Hub}
    (hadd : ∀ ws, e.2.call ≠ .add ws) (hdrop : ∀ ws, e.2.call.drops ws = false)
    (hsend : ∀ b ws, sendsAs b ws e = true →
      lateSends b ws log + (q (.broadcaster b)).pending.count ws = 0) :
    Hubbed w' q (log ++ [e]) where
  nodup := by rw [hw]; exact h.nodup
  active ws := by rw [hw, h.active, dropped_snoc]; simp [hdrop]
  joined ws := by rw [← h.joined, joined_snoc]; simp [hadd]
  gone ws hgone := dropped_snoc.mpr (.inl (h.gone ws hgone))
  dropped ws hdropped := by
    rw [dropped_snoc] at hdropped
    rcases hdropped with hdropped | hnow
    · exact joined_snoc.mpr (.inl (h.dropped ws hdropped))
    · rw [hdrop] at hnow
      cases hnow
  admitted ws hseat := admitted_snoc.mpr (.inl (h.admitted ws hseat))
  seen b ws hws := joined_snoc.mpr (.inl (h.seen b ws hws))
  distinct := h.distinct
  pending := h.pending
  late b ws := by
    have hlate := @lateSends_snoc ws log e b
    have hbefore := h.late b ws
    split at hlate
    · rename_i hsends
      have hnone := hsend b ws hsends
      omega
    · omega

theorem serve_active {c : HubCall} (hadd : ∀ ws, c ≠ .add ws) (hdrop : ∀ ws, c.drops ws = false) :
    (HubWorld.serve c w).2.active = w.active := by
  cases c with
  | feed c =>
    cases c with
    | disconnect ws => exact absurd (hdrop ws) (by simp [HubCall.drops])
    | _ => rfl
  | add ws => exact absurd rfl (hadd ws)
  | _ => rfl

theorem Hubbed.quiet (h : Hubbed w q log) (i : HubTask) {c : HubCall} (hadd : ∀ ws, c ≠ .add ws)
    (hdrop : ∀ ws, c.drops ws = false) (hsend : ∀ b, i = .broadcaster b → c.sendsTo = none) :
    Hubbed (HubWorld.serve c w).2 q (log ++ [(i, ⟨c, (HubWorld.serve c w).1⟩)]) := by
  refine h.still (serve_active hadd hdrop) hadd hdrop fun b ws hsends => ?_
  obtain ⟨hi, hto⟩ : i = .broadcaster b ∧ c.sendsTo = some ws := by
    simpa [sendsAs] using hsends
  rw [hsend b hi] at hto
  cases hto

theorem Hubbed.refan (h : Hubbed w q log) (f : Fan) (hseen : ∀ ws ∈ f.seen, Joined ws log)
    (hdistinct : f.seen.Nodup) (hpending : f.pending.Sublist f.seen)
    (hlate : ∀ ws, lateSends b ws log + f.pending.count ws ≤ 1) :
    Hubbed w (Function.update q (.broadcaster b) f) log := by
  have hfan : ∀ (P : Broadcaster → Fan → Prop), P b f → (∀ b', P b' (q (.broadcaster b'))) →
      ∀ b', P b' (Function.update q (.broadcaster b) f (.broadcaster b')) := by
    intro P hnew hold b'
    by_cases hb : b' = b
    · subst hb
      rw [Function.update_self]
      exact hnew
    · rw [Function.update_of_ne (by simpa using hb)]
      exact hold b'
  refine ⟨h.nodup, h.active, h.joined, h.gone, h.dropped, h.admitted, ?_, ?_, ?_, ?_⟩
  · exact hfan (fun _ g => ∀ ws ∈ g.seen, Joined ws log) hseen h.seen
  · exact hfan (fun _ g => g.seen.Nodup) hdistinct h.distinct
  · exact hfan (fun _ g => g.pending.Sublist g.seen) hpending h.pending
  · exact hfan (fun b' g => ∀ ws, lateSends b' ws log + g.pending.count ws ≤ 1) hlate h.late

theorem Hubbed.snapshot (h : Hubbed w q log) {clients : List ℕ} (hclients : clients.Perm w.active) :
    Hubbed w (Function.update q (.broadcaster b) ⟨clients, clients⟩) log := by
  have hnodup : clients.Nodup := hclients.nodup_iff.mpr h.nodup
  refine h.refan ⟨clients, clients⟩ (fun ws hws => ?_) hnodup (List.Sublist.refl _) fun ws => ?_
  · exact (h.joined ws).mpr (.inl ((h.active ws).mp (hclients.mem_iff.mp hws)).1)
  · by_cases hws : ws ∈ clients
    · have hactive := (h.active ws).mp (hclients.mem_iff.mp hws)
      rw [lateSends_none hactive.2, Nat.zero_add]
      exact List.nodup_iff_count_le_one.mp hnodup ws
    · rw [List.count_eq_zero_of_not_mem hws]
      exact (Nat.le_add_right _ _).trans (h.late b ws)

theorem Hubbed.send (h : Hubbed w q log) {c : HubCall} {rest : List ℕ} (hc : c.sendsTo = some ws)
    (hpending : (q (.broadcaster b)).pending = ws :: rest) :
    Hubbed (HubWorld.serve c w).2
      (Function.update q (.broadcaster b) ⟨(q (.broadcaster b)).seen, rest⟩)
      (log ++ [(.broadcaster b, ⟨c, (HubWorld.serve c w).1⟩)]) := by
  have hrest := h.pending b
  rw [hpending] at hrest
  have hlate := h.late b
  rw [hpending] at hlate
  have hfan := h.refan (b := b) ⟨(q (.broadcaster b)).seen, rest⟩ (h.seen b) (h.distinct b)
    ((List.sublist_cons_self ws rest).trans hrest)
    fun k => (Nat.add_le_add_left (List.count_le_count_cons) _).trans (hlate k)
  have hadd : ∀ k, c ≠ .add k := by
    rintro k rfl
    cases hc
  have hdrop : ∀ k, c.drops k = false := by
    intro k
    cases c with
    | feed c => cases c <;> first | rfl | cases hc
    | _ => rfl
  refine hfan.still (serve_active hadd hdrop) hadd hdrop ?_
  intro b' k hsends
  obtain ⟨hb, hk⟩ : b = b' ∧ ws = k := by simpa [sendsAs, hc] using hsends
  subst hb hk
  have hone := hlate ws
  rw [List.count_cons_self] at hone
  rw [Function.update_self]
  change _ + rest.count ws = 0
  omega

theorem Hubbed.drop (h : Hubbed w q log) (hw : w'.active = w.active.filter (· ≠ ws))
    (hjoined : Joined ws log) {i : HubTask} {a : Except PyExc Unit} :
    Hubbed w' q (log ++ [(i, ⟨.feed (.disconnect ws), a⟩)]) := by
  have hdrops : ∀ k, (HubCall.feed (.disconnect ws)).drops k = true ↔ ws = k := by
    simp [HubCall.drops]
  refine ⟨?_, ?_, ?_, ?_, ?_, ?_, ?_, h.distinct, h.pending, ?_⟩
  · rw [hw]
    exact h.nodup.filter _
  · intro k
    rw [hw, List.mem_filter, h.active, dropped_snoc, hdrops]
    simp only [ne_eq, decide_not, Bool.not_eq_eq_eq_not, Bool.not_true, decide_eq_false_iff_not]
    constructor
    · rintro ⟨⟨hseat, hnot⟩, hk⟩
      exact ⟨hseat, by rintro (hdropped | rfl) <;> contradiction⟩
    · rintro ⟨hseat, hnot⟩
      exact ⟨⟨hseat, fun hdropped => hnot (.inl hdropped)⟩, fun hk => hnot (.inr hk.symm)⟩
  · intro k
    rw [joined_snoc, ← h.joined]
    simp
  · exact fun k hgone => dropped_snoc.mpr (.inl (h.gone k hgone))
  · intro k hdropped
    rw [dropped_snoc, hdrops] at hdropped
    rcases hdropped with hdropped | rfl
    · exact joined_snoc.mpr (.inl (h.dropped k hdropped))
    · exact joined_snoc.mpr (.inl hjoined)
  · exact fun k hseat => admitted_snoc.mpr (.inl (h.admitted k hseat))
  · exact fun b k hk => joined_snoc.mpr (.inl (h.seen b k hk))
  · intro b k
    have hlate := @lateSends_snoc k log (i, ⟨.feed (.disconnect ws), a⟩) b
    rw [show sendsAs b k (i, ⟨.feed (.disconnect ws), a⟩) = false by
      simp [sendsAs, HubCall.sendsTo]] at hlate
    exact (Nat.add_le_add_right hlate _).trans (h.late b k)

theorem Hubbed.reseat (h : Hubbed w q log) (s : Seat)
    (hjoined : (s = .seated ∨ s = .gone) ↔ q (.client ws) = .seated ∨ q (.client ws) = .gone)
    (hactive : (s = .seated ∧ ¬Dropped ws log) ↔
      (q (.client ws) = .seated ∧ ¬Dropped ws log))
    (hgone : s = .gone → Dropped ws log)
    (hadmitted : s ≠ .outside → Admitted ws log) :
    Hubbed w (Function.update q (.client ws) s) log := by
  have hother : ∀ {k}, k ≠ ws → Function.update q (.client ws) s (.client k) = q (.client k) :=
    fun hk => Function.update_of_ne (by simpa using hk) _ _
  refine ⟨h.nodup, ?_, ?_, ?_, h.dropped, ?_, h.seen, h.distinct, h.pending, h.late⟩
  · intro k
    by_cases hk : k = ws
    · subst hk
      rw [h.active, Function.update_self]
      exact hactive.symm
    · rw [hother hk]
      exact h.active k
  · intro k
    by_cases hk : k = ws
    · subst hk
      rw [h.joined, Function.update_self]
      exact hjoined.symm
    · rw [hother hk]
      exact h.joined k
  · intro k
    by_cases hk : k = ws
    · subst hk
      rw [Function.update_self]
      exact hgone
    · rw [hother hk]
      exact h.gone k
  · intro k
    by_cases hk : k = ws
    · subst hk
      rw [Function.update_self]
      exact hadmitted
    · rw [hother hk]
      exact h.admitted k

theorem Hubbed.join (h : Hubbed w q log) (hseat : q (.client ws) = .accepted)
    (hw : w'.active = if ws ∈ w.active then w.active else w.active ++ [ws]) {i : HubTask}
    {a : Except PyExc Unit} :
    Hubbed w' (Function.update q (.client ws) .seated) (log ++ [(i, ⟨.add ws, a⟩)]) := by
  have hother : ∀ {k}, k ≠ ws →
      Function.update q (.client ws) Seat.seated (.client k) = q (.client k) :=
    fun hk => Function.update_of_ne (by simpa using hk) _ _
  have habsent : ws ∉ w.active := fun hmem => by
    have hseated := ((h.active ws).mp hmem).1
    rw [hseat] at hseated
    cases hseated
  have hfresh : ¬Dropped ws log := fun hdropped => by
    rcases (h.joined ws).mp (h.dropped ws hdropped) with hk | hk
    · rw [hseat] at hk
      cases hk
    · rw [hseat] at hk
      cases hk
  have hsame : ∀ k, Dropped k (log ++ [(i, ⟨.add ws, a⟩)]) ↔
      Dropped k log := fun k => by simp [dropped_snoc, HubCall.drops]
  rw [if_neg habsent] at hw
  refine ⟨?_, ?_, ?_, ?_, ?_, ?_, ?_, h.distinct, h.pending, ?_⟩
  · rw [hw]
    exact List.nodup_append.mpr ⟨h.nodup, List.nodup_singleton ws, fun k hk l hl => by
      rw [List.mem_singleton.mp hl]
      rintro rfl
      exact habsent hk⟩
  · intro k
    rw [hw, hsame, List.mem_append, List.mem_singleton]
    by_cases hk : k = ws
    · subst hk
      simp [hfresh]
    · rw [hother hk]
      simp [hk, h.active]
  · intro k
    rw [joined_snoc, h.joined]
    by_cases hk : k = ws
    · subst hk
      simp
    · rw [hother hk]
      simp [Ne.symm hk]
  · intro k
    rw [hsame]
    by_cases hk : k = ws
    · subst hk
      simp
    · rw [hother hk]
      exact h.gone k
  · intro k hdropped
    rw [hsame] at hdropped
    exact joined_snoc.mpr (.inl (h.dropped k hdropped))
  · intro k hk
    refine admitted_snoc.mpr (.inl (h.admitted k ?_))
    by_cases hk' : k = ws
    · subst hk'
      rw [hseat]
      exact fun heq => (by cases heq)
    · rwa [hother hk'] at hk
  · exact fun b k hk => joined_snoc.mpr (.inl (h.seen b k hk))
  · intro b k
    have hlate := @lateSends_snoc k log (i, ⟨.add ws, a⟩) b
    rw [show sendsAs b k (i, ⟨.add ws, a⟩) = false by simp [sendsAs, HubCall.sendsTo]] at hlate
    exact (Nat.add_le_add_right hlate _).trans (h.late b k)

theorem Hubbed.broadcaster_step (h : Hubbed w q log) {c : HubCall}
    (hallows : (q (.broadcaster b)).allows c) :
    Hubbed (HubWorld.serve c w).2
      (Function.update q (.broadcaster b)
        ((q (.broadcaster b)).step ⟨c, (HubWorld.serve c w).1⟩))
      (log ++ [(.broadcaster b, ⟨c, (HubWorld.serve c w).1⟩)]) := by
  have hrest : (q (.broadcaster b)).step ⟨c, (HubWorld.serve c w).1⟩ = q (.broadcaster b) →
      Hubbed (HubWorld.serve c w).2 q (log ++ [(.broadcaster b, ⟨c, (HubWorld.serve c w).1⟩)]) →
      Hubbed (HubWorld.serve c w).2
        (Function.update q (.broadcaster b)
          ((q (.broadcaster b)).step ⟨c, (HubWorld.serve c w).1⟩))
        (log ++ [(.broadcaster b, ⟨c, (HubWorld.serve c w).1⟩)]) := by
    intro hstep hsame
    rw [hstep]
    exact (Function.update_eq_self (HubTask.broadcaster b) q).symm ▸ hsame
  cases c with
  | feed c =>
    cases c with
    | active =>
      exact (h.snapshot (w.now.order.perm w.active)).quiet (.broadcaster b) (c := .feed .active)
        (fun _ => by simp) (fun _ => rfl) fun _ _ => rfl
    | disconnect ws => exact hrest rfl (h.drop rfl (h.seen b ws hallows))
    | send ws channel data =>
      obtain ⟨rest, hpending⟩ := hallows
      have hstep : (q (.broadcaster b)).step ⟨.feed (.send ws channel data),
          (HubWorld.serve (.feed (.send ws channel data)) w).1⟩ =
            ⟨(q (.broadcaster b)).seen, rest⟩ := by
        simp [Fan.step, hpending]
      rw [hstep]
      exact h.send rfl hpending
    | _ =>
      exact hrest rfl (h.quiet _ (fun _ => by simp) (fun _ => rfl) fun _ _ => rfl)
  | sendPrices ws items =>
    obtain ⟨rest, hpending⟩ := hallows
    have hstep : (q (.broadcaster b)).step ⟨.sendPrices ws items,
        (HubWorld.serve (.sendPrices ws items) w).1⟩ = ⟨(q (.broadcaster b)).seen, rest⟩ := by
      simp [Fan.step, hpending]
    rw [hstep]
    exact h.send rfl hpending
  | xrevrange =>
    exact hrest rfl (h.quiet _ (fun _ => by simp) (fun _ => rfl) fun _ _ => rfl)
  | _ => exact hallows.elim

theorem Hubbed.client_step (h : Hubbed w q log) {c : HubCall}
    (hallows : (q (.client ws)).allows ws c) :
    Hubbed (HubWorld.serve c w).2
      (Function.update q (.client ws) ((q (.client ws)).step ⟨c, (HubWorld.serve c w).1⟩))
      (log ++ [(.client ws, ⟨c, (HubWorld.serve c w).1⟩)]) := by
  have hsame : ∀ {log'}, (q (.client ws)).step ⟨c, (HubWorld.serve c w).1⟩ = q (.client ws) →
      Hubbed (HubWorld.serve c w).2 q log' → Hubbed (HubWorld.serve c w).2
        (Function.update q (.client ws) ((q (.client ws)).step ⟨c, (HubWorld.serve c w).1⟩))
        log' := by
    intro log' hstep hquiet
    rw [hstep]
    exact (Function.update_eq_self (HubTask.client ws) q).symm ▸ hquiet
  have hquiet : (∀ ws, c ≠ .add ws) → (∀ ws, c.drops ws = false) →
      Hubbed (HubWorld.serve c w).2 q (log ++ [(.client ws, ⟨c, (HubWorld.serve c w).1⟩)]) :=
    fun hadd hdrop => h.quiet (.client ws) hadd hdrop fun _ hi => by cases hi
  cases hseat : q (.client ws) with
  | outside =>
    rw [hseat] at hallows hsame
    rcases hallows with ⟨token, rfl⟩ | rfl | rfl
    · exact hsame rfl (hquiet (fun _ => by simp) fun _ => rfl)
    · exact hsame rfl (hquiet (fun _ => by simp) fun _ => rfl)
    · have hlater := hquiet (fun _ => by simp) fun _ => rfl
      cases hr : (HubWorld.serve (.accept ws) w).1 with
      | error x =>
        rw [hr] at hsame hlater
        exact hsame rfl hlater
      | ok u =>
        rw [hr] at hlater
        refine hlater.reseat .accepted ?_ ?_ (fun hgone => by cases hgone) fun _ => ?_
        · simp [hseat]
        · simp [hseat]
        · exact admitted_snoc.mpr (.inr (by simp [admits]))
  | accepted =>
    rw [hseat] at hallows
    obtain rfl := hallows
    exact h.join hseat rfl
  | seated =>
    rw [hseat] at hallows hsame
    rcases hallows with ⟨message, rfl⟩ | rfl | rfl
    · exact hsame rfl (hquiet (fun _ => by simp) fun _ => rfl)
    · exact hsame rfl (hquiet (fun _ => by simp) fun _ => rfl)
    · have hnow : Dropped ws (log ++ [(.client ws, ⟨.feed (.disconnect ws),
          (HubWorld.serve (.feed (.disconnect ws)) w).1⟩)]) :=
        dropped_snoc.mpr (.inr (by simp [HubCall.drops]))
      have hdropped : Hubbed (HubWorld.serve (.feed (.disconnect ws)) w).2 q
          (log ++ [(.client ws, ⟨.feed (.disconnect ws),
            (HubWorld.serve (.feed (.disconnect ws)) w).1⟩)]) :=
        h.drop rfl ((h.joined ws).mpr (.inl hseat))
      refine hdropped.reseat .gone ?_ ?_ (fun _ => hnow) fun _ => ?_
      · simp [hseat]
      · simp [hnow]
      · exact admitted_snoc.mpr (.inl (h.admitted ws (by simp [hseat])))
  | gone =>
    rw [hseat] at hallows
    exact hallows.elim

end

abbrev afterAccept : Monitor (HubTask × Event Hub) :=
  .history fun log e => ∀ ws, e.2.call.sendsTo = some ws → Admitted ws log

def hubStart : (i : HubTask) → (hubMonitor i).State
  | .broadcaster _ => (⟨[], []⟩ : Fan)
  | .client _ => Seat.outside

theorem hubbed_start {w : HubWorld} (hw : w.active = []) : Hubbed w hubStart [] where
  nodup := by simp [hw]
  active ws := by simp [hw, hubStart]
  joined ws := by simp [Joined, hubStart]
  gone ws hgone := by cases hgone
  dropped ws hdropped := by simp [Dropped] at hdropped
  admitted ws hseat := absurd rfl hseat
  seen b := by simp [hubStart]
  distinct b := by simp [hubStart]
  pending b := by simp [hubStart]
  late b ws := by simp [lateSends, hubStart]

def hubEnd : (i : HubTask) → Except PyExc Bool → (hubMonitor i).State → Prop
  | .broadcaster _, _, _ => True
  | .client _, r, q => returnedUnseated r q

theorem hubTasks_meets [PyText] (tokens : ℕ → Option String) (n : ℕ) (i : HubTask) :
    (hubTasks tokens n i).Meets (hubMonitor i) (fun _ _ => True) (hubStart i) (hubEnd i) := by
  have hfree : ∀ {p : Prog Hub Unit}, (∀ q, p.Meets (fanning id) (fun _ _ => True) q
      (Prog.OnOk fun _ _ => True)) → (do
        p
        return false : Prog Hub Bool).Meets (fanning id) (fun _ _ => True) ⟨[], []⟩
          fun _ _ => True := by
    intro p hp
    refine (Prog.meets_bind _ _ _).mpr ((hp _).mono ?_)
    rintro (x | u) q' - <;> trivial
  cases i with
  | broadcaster b =>
    cases b with
    | events => exact hfree fun q => overFeed_meets (eventsLoop_fanning n q)
    | prices => exact hfree fun q => pricesLoop_fanning n q
  | client ws => exact wsEndpoint_seating ws (tokens ws) n

theorem Hubbed.send_admitted {w : HubWorld} {q : (i : HubTask) → (hubMonitor i).State}
    {log : HubLog} (h : Hubbed w q log) {i : HubTask} {e : Event Hub}
    (hallows : (hubMonitor i).allows (q i) e) {ws : ℕ} (hto : e.call.sendsTo = some ws) :
    Admitted ws log := by
  obtain ⟨c, a⟩ := e
  cases i with
  | broadcaster b =>
    have hpending : ws ∈ (q (.broadcaster b)).pending := by
      cases c with
      | feed c =>
        cases c with
        | send k channel data =>
          cases hto
          obtain ⟨rest, hrest⟩ := hallows
          rw [hrest]
          exact List.mem_cons_self
        | _ => cases hto
      | sendPrices k items =>
        cases hto
        obtain ⟨rest, hrest⟩ := hallows
        rw [hrest]
        exact List.mem_cons_self
      | sendSystem k message => exact hallows.elim
      | _ => cases hto
    refine h.admitted ws fun hseat => ?_
    rcases (h.joined ws).mp (h.seen b ws ((h.pending b).subset hpending)) with hk | hk
    · rw [hseat] at hk
      cases hk
    · rw [hseat] at hk
      cases hk
  | client k =>
    change (q (.client k)).allows k c at hallows
    cases hseat : q (.client k) with
    | outside =>
      rw [hseat] at hallows
      rcases hallows with ⟨token, rfl⟩ | rfl | rfl <;> cases hto
    | accepted =>
      rw [hseat] at hallows
      obtain rfl := hallows
      cases hto
    | seated =>
      rw [hseat] at hallows
      rcases hallows with ⟨message, rfl⟩ | rfl | rfl
      · cases hto
        exact h.admitted ws (by simp [hseat])
      · cases hto
      · cases hto
    | gone =>
      rw [hseat] at hallows
      exact hallows.elim

/-- Over any interleaving of any endpoints and both broadcasters, whatever fails: nothing is sent
to a socket before it was accepted; a socket is active exactly from when its endpoint has added it
to when it is discarded, and not any more once its endpoint has returned; and after it was
discarded each broadcaster sends to it once at most. -/
theorem clients_consistent [PyText] (tokens : ℕ → Option String) (n : ℕ)
    (schedule : List HubTask) (w : HubWorld) (hw : w.active = []) (ws : ℕ) :
    let run := runTasks HubWorld.serve schedule (hubTasks tokens n) w
    (∀ before e after, run.log = before ++ e :: after → e.2.call.sendsTo = some ws →
      Admitted ws before) ∧
    (ws ∈ run.state.active ↔ Joined ws run.log ∧ ¬Dropped ws run.log) ∧
    (run.tasks (.client ws) = .done (.ok true) → ws ∉ run.state.active) ∧
    ∀ b before e after, run.log = before ++ e :: after → e.2.call.drops ws = true →
      after.countP (sendsAs b ws) ≤ 1 := by
  intro run
  have hreached := fun i => (hubTasks_meets tokens n i).reaches
    (reaches_runTasks HubWorld.serve schedule (hubTasks tokens n) w i) fun _ _ => trivial
  obtain ⟨haccepts, hend⟩ := states_of_tasks HubWorld.serve hubMonitor afterAccept Hubbed
    (fun w q log i c hinv hallows => by
      refine ⟨fun k hto => hinv.send_admitted hallows hto, ?_⟩
      cases i with
      | broadcaster b => exact hinv.broadcaster_step hallows
      | client k => exact hinv.client_step hallows)
    (follows_runTasks HubWorld.serve schedule (hubTasks tokens n) w) (hubbed_start hw)
    fun i => (hreached i).1
  rw [Monitor.history_after, List.nil_append] at hend
  refine ⟨fun before e after hlog hto => ?_, ?_, fun hreturned hactive => ?_,
    fun b before e after hlog hdrops => ?_⟩
  · change Monitor.Accepts afterAccept [] run.log at haccepts
    rw [hlog] at haccepts
    exact Monitor.history_split haccepts ws hto
  · rw [hend.active, hend.joined]
    constructor
    · exact fun ⟨hseated, hnot⟩ => ⟨.inl hseated, hnot⟩
    · rintro ⟨hseated | hgone, hnot⟩
      · exact ⟨hseated, hnot⟩
      · exact absurd (hend.gone ws hgone) hnot
  · have hclient := (hreached (.client ws)).2
    rw [show (runTasks HubWorld.serve schedule (hubTasks tokens n) w).tasks (.client ws) =
      .done (.ok true) from hreturned] at hclient
    have hseated := ((hend.active ws).mp hactive).1
    rcases hclient with hout | hgone
    · rw [hout] at hseated
      cases hseated
    · rw [hgone] at hseated
      cases hseated
  · have hlate := hend.late b ws
    change lateSends b ws run.log + _ ≤ 1 at hlate
    have hafter := @countP_le_lateSends ws e b before after hdrops
    rw [← hlog] at hafter
    omega

def emptyHub : HubWorld where
  active := []
  feed := ⟨fun _ => [], fun _ => .newest, fun _ => 0, [],
    fun _ => ⟨none, [], [], fun _ => false, [], List.nodup_nil⟩, 0⟩
  outside := fun _ => ⟨none, none, "", [], default⟩
  tick := 0

/-- A client comes while the prices are about to be sent. -/
def oneClientRun : Interleaved Hub HubWorld HubTask Bool :=
  runTasks HubWorld.serve [.broadcaster .prices, .client 7, .client 7, .broadcaster .prices]
    (@hubTasks plainText (fun _ => none) 1) emptyHub

theorem clients_consistent_one : Joined 7 oneClientRun.log ∧ ¬Dropped 7 oneClientRun.log :=
  ((@clients_consistent plainText (fun _ => none) 1 _ emptyHub rfl 7).2.1).mp
    (show 7 ∈ oneClientRun.state.active by decide)

end CriptoParser
