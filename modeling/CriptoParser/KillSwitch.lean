import CriptoParser.AwaitTasks
import CriptoParser.ExecutorLoop
import CriptoParser.BalanceLedger

/-!
The kill switch: its request handler beside the consume loop, two tasks that share
`engine.kill_switch` and its copy in Redis.
-/

set_option autoImplicit false

namespace CriptoParser

open Await Streams

structure KillSwitchRequest where
  reason : String := "manual"
  active : Bool := true
  deriving DecidableEq, Repr

structure KillSwitchResponse where
  status : String
  reason : String
  timestamp : ℚ
  killSwitchActive : Bool
  deriving DecidableEq, Repr

def killswitch (req : KillSwitchRequest) : Task KillSwitchResponse := do
  Prog.call (S := Service) (.setKillSwitch req.active)
  Prog.call (S := Service) (.set killSwitchKey (if req.active then "1" else "0"))
  let timestamp ← Prog.call (S := Service) .time
  Prog.call (S := Service) (.note (.responded req.active))
  return {
    status := if req.active then "activated" else "deactivated"
    reason := req.reason
    timestamp := timestamp
    killSwitchActive := req.active }

/-- The requests one after the other; one whose `SET` raises gets an error response. -/
def serveRequests : List KillSwitchRequest → Task Unit
  | [] => pure ()
  | req :: rest => do
    (do let _ ← killswitch req; pure ()).handle (fun _ => pure ())
    serveRequests rest

inductive ExecutorTask where
  | loop | handler
  deriving DecidableEq, Repr

def executorTasks [PyText] (engine : Engine) (n : ℕ) (requests : List KillSwitchRequest) :
    ExecutorTask → Task Unit
  | .loop => consumeLoop engine n
  | .handler => serveRequests requests

/-- What a log says about the switch. A call starts with its reading of the flag. -/
inductive Mark where
  | posted (active : Bool)
  | responded (active : Bool)
  | refreshed (active : Bool)
  | opened | started
  | returned (traded : Bool)
  | other
  deriving DecidableEq, Repr

def mark : ExecutorTask × Event Service → Mark
  | (.handler, ⟨.setKillSwitch active, _⟩) => .posted active
  | (.handler, ⟨.note (.responded active), _⟩) => .responded active
  | (.loop, ⟨.setKillSwitch active, _⟩) => .refreshed active
  | (.loop, ⟨.note (.started _), _⟩) => .opened
  | (.loop, ⟨.killSwitch, _⟩) => .started
  | (.loop, ⟨.note (.returned t), _⟩) => .returned t.isSome
  | _ => .other

structure Watch where
  /-- The last request assigned `True`. -/
  posted : Bool
  /-- An activation has responded and no deactivation came after it. -/
  armed : Bool
  /-- Whether the call in progress was armed at its start. -/
  call : Option Bool
  deriving DecidableEq, Repr

def Watch.idle : Watch := ⟨false, false, none⟩

def Watch.next (q : Watch) : Mark → Watch
  | .posted active => { q with posted := active, armed := q.armed && active }
  | .responded active => { q with armed := active }
  | .opened => { q with call := none }
  | .started => { q with call := q.call.or (some q.armed) }
  | .returned _ => { q with call := none }
  | .refreshed _ | .other => q

/-- The loop never assigns `False` over a `True` a request has assigned. -/
abbrev freshReads : Monitor (ExecutorTask × Event Service) where
  State := Watch
  next q e := q.next (mark e)
  allows q e := mark e = .refreshed false → q.posted = false

/-- No call that starts armed returns a trade. -/
abbrev activationHolds : Monitor (ExecutorTask × Event Service) where
  State := Watch
  next q e := q.next (mark e)
  allows q e := mark e = .returned true → q.call ≠ some true

instance (q : freshReads.State) (e : ExecutorTask × Event Service) :
    Decidable (freshReads.allows q e) := inferInstanceAs (Decidable (_ → _))

instance (q : activationHolds.State) (e : ExecutorTask × Event Service) :
    Decidable (activationHolds.allows q e) := inferInstanceAs (Decidable (_ → _))

def gateNext (q : Option Bool) : Event Service → Option Bool
  | ⟨.killSwitch, .ok v⟩ => q.or (some v)
  | ⟨.note (.started _), _⟩ => none
  | ⟨.note (.returned _), _⟩ => none
  | _ => q

def gate : Monitor (Event Service) where
  State := Option Bool
  next := gateNext
  allows q e := ∀ t, e.call = .note (.returned (some t)) → q ≠ some true

def postNext (q : Bool) : Event Service → Bool
  | ⟨.setKillSwitch active, _⟩ => active
  | _ => q

def answers : Monitor (Event Service) where
  State := Bool
  next := postNext
  allows q e := ∀ active, e.call = .note (.responded active) → q = active

def Call.gateless : Call → Bool
  | .killSwitch | .note _ => false
  | _ => true

theorem gate_gateless {es : List (Event Service)} (q : Option Bool)
    (h : ∀ e ∈ es, e.call.gateless = true) : gate.Accepts q es ∧ gate.after q es = q := by
  apply gate.accepts_still
  intro e he
  have hc := h e he
  obtain ⟨c, v⟩ := e
  cases c <;> simp_all [gate, gateNext, Call.gateless]

theorem gate_engine {es : List (Event Service)} (v : Bool)
    (h : ∀ e ∈ es, e.call.ofEngine = true) :
    gate.Accepts (some v) es ∧ gate.after (some v) es = some v := by
  apply gate.accepts_still
  intro e he
  have hc := h e he
  obtain ⟨c, a⟩ := e
  cases c with
  | killSwitch => cases a <;> simp [gate, gateNext]
  | note n => cases n <;> simp_all [gate, gateNext, Call.ofEngine]
  | _ => simp_all [gate, gateNext, Call.ofEngine]

section
variable [PyText]

theorem executeOpportunity_gate {engine : Engine} {opp : Opportunity}
    {es : List (Event Service)} {r : Except PyExc (Option ExecutionResult)}
    (h : (executeOpportunity engine opp).Ends es r) (hl : Prog.Answered Call.isLocal es) :
    gate.Accepts none es ∧ (∀ res, r = .ok (some res) → gate.after none es ≠ some true) := by
  have huses := (executeOpportunity_uses engine opp).ends h
  unfold executeOpportunity at h
  obtain ⟨stopped, es', heq, h', -⟩ := hl.call_bind h rfl
  subst heq
  obtain ⟨hacc, hafter⟩ := gate_engine stopped fun e he => huses e (List.mem_cons_of_mem _ he)
  refine ⟨⟨by simp [gate], hacc⟩, fun res hres => ?_⟩
  have hgate : gate.after none (⟨.killSwitch, .ok stopped⟩ :: es') = some stopped := hafter
  rw [hgate]
  cases stopped with
  | false => exact fun h => Bool.noConfusion (Option.some.inj h)
  | true =>
    obtain ⟨-, hr⟩ := (Prog.ends_pure _ _ _).mp h'
    simp [hr] at hres

theorem batchRun_gate {engine : Engine} {entries : List (Entry Fields)}
    {es : List (Event Service)} {r : Except PyExc (List ExecutionResult)}
    (h : BatchRun engine entries es r) (hl : Prog.Answered Call.isLocal es)
    (q : Option Bool) : gate.Accepts q es := by
  induction h generalizing q with
  | empty => trivial
  | unparsed entry rest x es r hparse hrest ih => exact ih hl q
  | failed entry rest opp es x hparse hcall =>
    obtain ⟨-, hl'⟩ := (Prog.answered_cons _ _ _).mp hl
    exact ⟨by simp [gate, startedEvent], (executeOpportunity_gate hcall hl').1⟩
  | called entry rest opp es es' res r hparse hcall hrest ih =>
    obtain ⟨-, hl'⟩ := (Prog.answered_cons _ _ _).mp hl
    obtain ⟨hl₁, hl₂⟩ := (Prog.answered_append _ _ _).mp hl'
    obtain ⟨-, hl₃⟩ := (Prog.answered_cons _ _ _).mp hl₂
    obtain ⟨hacc, hafter⟩ := executeOpportunity_gate hcall hl₁
    refine ⟨by simp [gate, startedEvent], (gate.accepts_append _ _ _).mpr ⟨hacc, ?_, ih hl₃ _⟩⟩
    intro t ht
    cases res with
    | none => simp [returnedEvent] at ht
    | some res => exact hafter res rfl

theorem handleBatch_gate {engine : Engine} {entries : List (Entry Fields)}
    {es : List (Event Service)} {r : Except PyExc Unit}
    (h : (handleBatch engine entries).Ends es r) (hl : Prog.Answered Call.isLocal es)
    (q : Option Bool) : gate.Accepts q es := by
  rcases handleBatch_ends h hl with ⟨x, hbatch, -⟩ | ⟨results, es₁, es₂, heq, hbatch, hsettle⟩
  · exact batchRun_gate hbatch hl q
  · subst heq
    obtain ⟨hl₁, -⟩ := (Prog.answered_append _ _ _).mp hl
    refine (gate.accepts_append _ _ _).mpr ⟨batchRun_gate hbatch hl₁ q,
      (gate_gateless _ fun e he => ?_).1⟩
    have hc := (settleBatch_uses entries results).ends hsettle e he
    cases h : e.call <;> simp_all [Call.persists, Call.gateless]

theorem consumeLoop_gate {engine : Engine} {es : List (Event Service)}
    (h : LoopRun engine es) (hl : Prog.Answered Call.isLocal es) (q : Option Bool) :
    gate.Accepts q es := by
  induction h generalizing q with
  | stop => trivial
  | idle e es hcall hrest ih =>
    obtain ⟨-, hl'⟩ := (Prog.answered_cons _ _ _).mp hl
    have hgateless : e.call.gateless = true := by
      rcases hcall with hc | hc
      · cases h : e.call <;> simp_all [Call.opensPass, Call.gateless]
      · rw [hc]
        rfl
    have hone : gate.Accepts q [e] := (gate_gateless q (by simpa using hgateless)).1
    exact ⟨hone.1, ih hl' _⟩
  | batch entries es es' r hbatch hrest ih =>
    obtain ⟨hl₁, hl₂⟩ := (Prog.answered_append _ _ _).mp hl
    exact (gate.accepts_append _ _ _).mpr ⟨handleBatch_gate hbatch hl₁ q, ih hl₂ _⟩

end

theorem killswitch_answers {req : KillSwitchRequest} {es : List (Event Service)}
    {r : Except PyExc KillSwitchResponse} (h : (killswitch req).Ends es r)
    (hl : Prog.Answered Call.isLocal es) (q : Bool) : answers.Accepts q es := by
  unfold killswitch at h
  obtain ⟨-, es₁, rfl, h₁, hl₁⟩ := hl.call_bind h rfl
  refine ⟨by simp [answers], ?_⟩
  rcases (Prog.ends_call_bind _ _ _ _).mp h₁ with ⟨u, es₂, rfl, h₂⟩ | ⟨x, rfl, -⟩
  · obtain ⟨-, hl₂⟩ := (Prog.answered_cons _ _ _).mp hl₁
    obtain ⟨t, es₃, rfl, h₃, hl₃⟩ := hl₂.call_bind h₂ rfl
    obtain ⟨-, es₄, rfl, h₄, -⟩ := hl₃.call_bind h₃ rfl
    obtain ⟨rfl, -⟩ := (Prog.ends_pure _ _ _).mp h₄
    simp [Monitor.Accepts, answers, postNext]
  · simp [Monitor.Accepts, answers]

theorem serveRequests_answers {requests : List KillSwitchRequest} {es : List (Event Service)}
    {r : Except PyExc Unit} (h : (serveRequests requests).Ends es r)
    (hl : Prog.Answered Call.isLocal es) (q : Bool) : answers.Accepts q es := by
  have hone : ∀ {req es r}, (killswitch req >>= fun _ => (pure () : Task Unit)).Ends es r →
      Prog.Answered Call.isLocal es → ∀ q, answers.Accepts q es := by
    intro req es r h hl q
    rw [Prog.bind_eq, Prog.ends_bind] at h
    rcases h with ⟨a, es₁, es₂, heq, h₁, h₂⟩ | ⟨x, h₁, -⟩
    · obtain ⟨hnil, -⟩ := (Prog.ends_pure _ _ _).mp h₂
      subst heq hnil
      rw [List.append_nil] at hl ⊢
      exact killswitch_answers h₁ hl q
    · exact killswitch_answers h₁ hl q
  induction requests generalizing es q with
  | nil =>
    obtain ⟨heq, -⟩ := (Prog.ends_pure _ _ _).mp h
    subst heq
    trivial
  | cons req rest ih =>
    rw [serveRequests, Prog.bind_eq, Prog.ends_bind] at h
    have hreq : ∀ {es r}, ((killswitch req >>= fun _ => (pure () : Task Unit)).handle
        fun _ => pure ()).Ends es r → Prog.Answered Call.isLocal es →
        ∀ q, answers.Accepts q es := by
      intro es r h hl q
      rcases (Prog.ends_handle _ _ _ _).mp h with ⟨a, h₁, -⟩ | ⟨x, es₁, es₂, heq, h₁, h₂⟩
      · exact hone h₁ hl q
      · obtain ⟨hnil, -⟩ := (Prog.ends_pure _ _ _).mp h₂
        subst heq hnil
        rw [List.append_nil] at hl ⊢
        exact hone h₁ hl q
    rcases h with ⟨u, es₁, es₂, heq, h₁, h₂⟩ | ⟨x, h₁, -⟩
    · subst heq
      obtain ⟨hl₁, hl₂⟩ := (Prog.answered_append _ _ _).mp hl
      exact (answers.accepts_append _ _ _).mpr ⟨hreq h₁ hl₁ q, ih h₂ hl₂ _⟩
    · exact hreq h₁ hl q

def taskMonitor : ExecutorTask → Monitor (Event Service)
  | .loop => gate
  | .handler => answers

structure Armed (w : World) (q : (i : ExecutorTask) → (taskMonitor i).State) (a g : Watch) :
    Prop where
  same : a = g
  flag : g.posted = true → w.killSwitch = true
  posted : g.armed = true → g.posted = true
  handler : q .handler = g.posted
  call : g.call = some true → q .loop = some true
  idle : g.call = none → q .loop = none

theorem serve_killSwitch (c : Call) (w : World) :
    (World.serve c w).2.killSwitch =
      match c with
      | .setKillSwitch active => active
      | _ => w.killSwitch := by
  rw [serve_snd]
  cases hd : carriedOut ⟨c, (World.serve c w).1⟩ with
  | true => cases c <;> rfl
  | false =>
    cases c with
    | setKillSwitch active => simp [World.serve, World.fault, Call.isLocal, carriedOut] at hd
    | _ => rfl

theorem Armed.unwatched {w w' : World} {q : (i : ExecutorTask) → (taskMonitor i).State}
    {a g : Watch} {i : ExecutorTask} {e : Event Service} (h : Armed w q a g)
    (hm : mark (i, e) = .other) (hq : (taskMonitor i).next (q i) e = q i)
    (hw : w'.killSwitch = w.killSwitch) :
    activationHolds.allows g (i, e) ∧
      Armed w' (Function.update q i ((taskMonitor i).next (q i) e))
        (freshReads.next a (i, e)) (activationHolds.next g (i, e)) := by
  obtain ⟨hsame, hflag, hposted, hhandler, hcall, hidle⟩ := h
  subst hsame
  rw [hq, Function.update_eq_self]
  simp only [hm, Watch.next]
  exact ⟨by simp, rfl, fun h => hw.trans (hflag h), hposted, hhandler, hcall, hidle⟩

theorem armed_step (w : World) (q : (i : ExecutorTask) → (taskMonitor i).State) (a g : Watch)
    (i : ExecutorTask) (c : Call) (h : Armed w q a g)
    (hi : (taskMonitor i).allows (q i) ⟨c, (World.serve c w).1⟩)
    (ha : freshReads.allows a (i, ⟨c, (World.serve c w).1⟩)) :
    activationHolds.allows g (i, ⟨c, (World.serve c w).1⟩) ∧
      Armed (World.serve c w).2
        (Function.update q i ((taskMonitor i).next (q i) ⟨c, (World.serve c w).1⟩))
        (freshReads.next a (i, ⟨c, (World.serve c w).1⟩))
        (activationHolds.next g (i, ⟨c, (World.serve c w).1⟩)) := by
  have hw := serve_killSwitch c w
  cases i with
  | loop =>
    have hkeep : (Function.update q .loop ((taskMonitor .loop).next (q .loop)
        ⟨c, (World.serve c w).1⟩)) .handler = q .handler := Function.update_of_ne (by simp) _ _
    have hnext : (Function.update q .loop ((taskMonitor .loop).next (q .loop)
        ⟨c, (World.serve c w).1⟩)) .loop = gateNext (q .loop) ⟨c, (World.serve c w).1⟩ :=
      Function.update_self _ _ _
    cases c with
    | setKillSwitch active =>
      obtain ⟨hsame, hflag, hposted, hhandler, hcall, hidle⟩ := h
      subst hsame
      refine ⟨by simp [mark], rfl, fun hp => ?_, hposted, hkeep.trans hhandler,
        fun hc => hnext.trans (hcall hc), fun hc => hnext.trans (hidle hc)⟩
      cases active with
      | true => exact hw
      | false =>
        have hno : a.posted = false := ha rfl
        simp [mark, Watch.next, hno] at hp
    | killSwitch =>
      obtain ⟨hsame, hflag, hposted, hhandler, hcall, hidle⟩ := h
      subst hsame
      refine ⟨by simp [mark], rfl, hflag, hposted, hkeep.trans hhandler,
        fun hc => hnext.trans ?_, fun hc => ?_⟩
      · -- the first reading of an armed call answers the flag
        change (q .loop).or (some w.killSwitch) = some true
        change a.call.or (some a.armed) = some true at hc
        cases hq : a.call with
        | none =>
          rw [hq] at hc
          have harmed : a.armed = true := Option.some.inj hc
          rw [hidle hq, hflag (hposted harmed)]
          rfl
        | some v =>
          rw [hq] at hc
          rw [hcall (hq.trans hc)]
          rfl
      · change a.call.or (some a.armed) = none at hc
        cases hq : a.call <;> simp [hq] at hc
    | note n =>
      cases n with
      | started opp =>
        obtain ⟨hsame, hflag, hposted, hhandler, hcall, hidle⟩ := h
        subst hsame
        exact ⟨by simp [mark], rfl, fun hp => hw.trans (hflag hp), hposted,
          hkeep.trans hhandler, nofun, fun _ => hnext⟩
      | returned t =>
        obtain ⟨hsame, hflag, hposted, hhandler, hcall, hidle⟩ := h
        subst hsame
        refine ⟨fun hm hc => ?_, rfl, fun hp => hw.trans (hflag hp), hposted,
          hkeep.trans hhandler, nofun, fun _ => hnext⟩
        cases t with
        | none => simp [mark] at hm
        | some t => exact hi t rfl (hcall hc)
      | _ => exact h.unwatched rfl rfl hw
    | _ => exact h.unwatched rfl rfl hw
  | handler =>
    have hkeep : (Function.update q .handler ((taskMonitor .handler).next (q .handler)
        ⟨c, (World.serve c w).1⟩)) .loop = q .loop := Function.update_of_ne (by simp) _ _
    have hnext : (Function.update q .handler ((taskMonitor .handler).next (q .handler)
        ⟨c, (World.serve c w).1⟩)) .handler = postNext (q .handler) ⟨c, (World.serve c w).1⟩ :=
      Function.update_self _ _ _
    cases c with
    | setKillSwitch active =>
      obtain ⟨hsame, hflag, hposted, hhandler, hcall, hidle⟩ := h
      subst hsame
      refine ⟨by simp [mark], rfl, fun hp => hw.trans hp, fun hc => ?_, hnext,
        fun hc => hkeep.trans (hcall hc), fun hc => hkeep.trans (hidle hc)⟩
      exact (Bool.and_eq_true_iff.mp hc).2
    | note n =>
      cases n with
      | responded active =>
        obtain ⟨hsame, hflag, hposted, hhandler, hcall, hidle⟩ := h
        subst hsame
        have hanswer : q .handler = active := hi active rfl
        refine ⟨by simp [mark], rfl, fun hp => hw.trans (hflag hp), fun hc => ?_,
          hnext.trans hhandler, fun hc => hkeep.trans (hcall hc), fun hc => hkeep.trans (hidle hc)⟩
        exact (hhandler.symm.trans hanswer).trans hc
      | _ => exact h.unwatched rfl rfl hw
    | _ => exact h.unwatched rfl rfl hw

section
variable [PyText]

/-- The log of the executor with its requests under a schedule. -/
def executorLog (engine : Engine) (n : ℕ) (requests : List KillSwitchRequest)
    (schedule : List ExecutorTask) (w : World) : List (ExecutorTask × Event Service) :=
  (runTasks World.serve schedule (executorTasks engine n requests) w).log

theorem own_monitored (engine : Engine) (n : ℕ) (requests : List KillSwitchRequest)
    (schedule : List ExecutorTask) (w : World) (i : ExecutorTask) (q : (taskMonitor i).State) :
    (taskMonitor i).Accepts q (own i (executorLog engine n requests schedule w)) := by
  have hf := follows_runTasks World.serve schedule (executorTasks engine n requests) w
  obtain ⟨rest, w', r, hrest, hends⟩ :=
    ends_runTasks World.serve schedule (executorTasks engine n requests) w i
  have hl : Prog.Answered Call.isLocal
      (own i (executorLog engine n requests schedule w) ++ rest) :=
    (Prog.answered_append _ _ _).mpr
      ⟨fun e he => follows_local hf e (own_subset i _ e he), follows_local hrest⟩
  cases i with
  | loop => exact ((gate.accepts_append _ _ _).mp (consumeLoop_gate (consumeLoop_run hends hl) hl q)).1
  | handler => exact ((answers.accepts_append _ _ _).mp (serveRequests_answers hends hl q)).1

/-- While the loop never assigns a stale `False`, an activation that has responded stops
every call that starts before the next deactivation. -/
theorem activation_holds (engine : Engine) (n : ℕ) (requests : List KillSwitchRequest)
    (schedule : List ExecutorTask) (w : World)
    (hfresh : freshReads.Accepts .idle (executorLog engine n requests schedule w)) :
    activationHolds.Accepts .idle (executorLog engine n requests schedule w) := by
  let q : (i : ExecutorTask) → (taskMonitor i).State
    | .loop => (none : Option Bool)
    | .handler => false
  have hstart : Armed w q Watch.idle Watch.idle :=
    ⟨rfl, by simp [Watch.idle], by simp [Watch.idle], rfl, by simp [Watch.idle], fun _ => rfl⟩
  exact (accepts_of_tasks World.serve taskMonitor freshReads activationHolds Armed
    (fun w q a g i c => armed_step w q a g i c)
    (follows_runTasks World.serve schedule (executorTasks engine n requests) w) hstart
    (fun i => own_monitored engine n requests schedule w i (q i)) hfresh).1

end

/-- 10000 on two exchanges and one opportunity between them; the switch is off. -/
def tradingWorld : World :=
  sampleWorld sampleOutside [("binance", 10000), ("bybit", 10000)]
    [sampleOpportunity "binance" "bybit" (1 / 10) (1 / 10)]

/-- Activated after the loop has assigned what it read: the call returns no trade. -/
theorem activation_holds_stopped :
    activationHolds.Accepts .idle (@executorLog sampleText ⟨10, 100⟩ 1 [{}]
      ([.loop, .loop] ++ .replicate 4 .handler ++ .replicate 20 .loop) tradingWorld) :=
  @activation_holds sampleText ⟨10, 100⟩ 1 [{}]
    ([.loop, .loop] ++ .replicate 4 .handler ++ .replicate 20 .loop) tradingWorld
    (by decide +kernel)

/-- Activated between the loop's `GET` and its assignment: the loop assigns the stale
`False`, and the call it makes after the response trades. -/
theorem activation_lost :
    ¬ activationHolds.Accepts .idle (@executorLog sampleText ⟨10, 100⟩ 1 [{}]
      ([.loop, .handler, .loop, .handler, .loop, .handler, .handler] ++ .replicate 20 .loop)
      tradingWorld) := by
  decide +kernel

end CriptoParser
