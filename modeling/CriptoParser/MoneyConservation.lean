import CriptoParser.BalanceLedger
import Mathlib.Algebra.BigOperators.Group.List.Basic

set_option autoImplicit false

namespace CriptoParser

open Await

/-- One call: the flag it finds, the settings of the engine, the opportunity. -/
structure CallInput where
  killSwitch : Bool
  engine : Engine
  opp : Opportunity
  deriving DecidableEq, Repr

structure CallRecord where
  before : World
  input : CallInput
  events : List (Event Service)
  result : Except PyExc (Option ExecutionResult)
  after : World

section
variable [PyText]

def callOnce (i : CallInput) (w : World) : CallRecord :=
  let start := { w with killSwitch := i.killSwitch }
  let task := executeOpportunity i.engine i.opp
  { before := start
    input := i
    events := task.trace World.serve start
    result := (task.run World.serve start).1
    after := (task.run World.serve start).2 }

/-- The calls one after the other, each from the world the previous one left. -/
def callRecords : List CallInput → World → List CallRecord
  | [], _ => []
  | i :: rest, w => callOnce i w :: callRecords rest (callOnce i w).after

def callsEnd : List CallInput → World → World
  | [], w => w
  | i :: rest, w => callsEnd rest (callOnce i w).after

end

def configured (exchange : String) : Prop := exchange ∈ exchanges.map Prod.fst

instance (exchange : String) : Decidable (configured exchange) := by
  unfold configured
  infer_instance

def World.total (w : World) : ℚ := ((exchanges.map Prod.fst).map w.balanceOf).sum

/-- `EXCHANGES[donor].withdrawal_usdt`, for every transfer performed. -/
def rebalanceFee (e : Event Service) : ℚ :=
  match e.call with
  | .note (.rebalanceExecuted donor _ _ _ _) =>
    match exchangeConfig donor with
    | some cfg => cfg.withdrawalUsdt
    | none => 0
  | _ => 0

def rebalanceFees (es : List (Event Service)) : ℚ := (es.map rebalanceFee).sum

def returnedPnl : Except PyExc (Option ExecutionResult) → ℚ
  | .ok (some res) => res.trade.netPnl
  | _ => 0

def earned (es : List (Event Service)) : ℚ :=
  ((exchanges.map Prod.fst).map (moved es)).sum + rebalanceFees es

@[simp] theorem earned_nil : earned [] = 0 := by decide +kernel

@[simp] theorem earned_append (es fs : List (Event Service)) :
    earned (es ++ fs) = earned es + earned fs := by
  have hmoved : moved (es ++ fs) = fun ex => moved es ex + moved fs ex :=
    funext fun ex => moved_append ex es fs
  simp only [earned, rebalanceFees, hmoved, List.map_append, List.sum_append, List.sum_map_add]
  ring

theorem earned_cons (e : Event Service) (es : List (Event Service)) :
    earned (e :: es) = earned [e] + earned es := earned_append [e] es

def Call.idle : Call → Bool
  | .hincrbyfloat _ _ _ | .hset _ _ _ | .note _ => false
  | _ => true

theorem eventChange_idle {e : Event Service} (h : e.call.idle = true) (exchange : String) :
    eventChange exchange e = 0 := by
  obtain ⟨c, a⟩ := e
  cases c <;> first | rfl | cases h

theorem rebalanceFee_idle {e : Event Service} (h : e.call.idle = true) :
    rebalanceFee e = 0 := by
  obtain ⟨c, a⟩ := e
  cases c <;> first | rfl | cases h

theorem moved_idle {es : List (Event Service)} (h : ∀ e ∈ es, e.call.idle = true)
    (exchange : String) : moved es exchange = 0 := by
  induction es with
  | nil => rfl
  | cons e es ih =>
    rw [moved_cons, eventChange_idle (h e List.mem_cons_self),
      ih fun d hd => h d (List.mem_cons_of_mem _ hd), add_zero]

theorem earned_idle {es : List (Event Service)} (h : ∀ e ∈ es, e.call.idle = true) :
    earned es = 0 := by
  have hmoved : moved es = fun _ => 0 := funext fun ex => moved_idle h ex
  have hfees : rebalanceFees es = 0 :=
    List.sum_eq_zero fun x hx => by
      obtain ⟨e, he, rfl⟩ := List.mem_map.mp hx
      exact rebalanceFee_idle (h e he)
  rw [earned, hmoved, hfees, List.map_const', List.sum_replicate, nsmul_zero, add_zero]

theorem earned_moveEvent {exchange : String} (hex : configured exchange) (delta v : ℚ) :
    earned [moveEvent exchange delta v] = delta := by
  have hchange : ∀ ex, moved [moveEvent exchange delta v] ex =
      if ex = exchange then delta else 0 := by
    intro ex
    simp [eventChange, moveEvent, carriedOut, eq_comm]
  have hfees : rebalanceFees [moveEvent exchange delta v] = 0 := by
    simp [rebalanceFees, rebalanceFee, moveEvent]
  have hcount : (exchanges.map Prod.fst).count exchange = 1 :=
    List.count_eq_one_of_mem (by decide) hex
  rw [earned, hfees, add_zero, List.map_congr_left fun ex _ => hchange ex,
    List.sum_map_ite_eq, hcount, List.map_const', List.sum_replicate, nsmul_zero, add_zero,
    sub_zero, one_nsmul]

theorem configured_of_exchangeConfig {exchange : String} {cfg : ExchangeConfig}
    (h : exchangeConfig exchange = some cfg) : configured exchange :=
  List.mem_map_of_mem (exchangeConfig_mem h)

theorem earned_rebalanceExecuted {donor : String} {cfg : ExchangeConfig}
    (h : exchangeConfig donor = some cfg) (receiver : String) (gross fee net : ℚ) :
    earned [⟨.note (.rebalanceExecuted donor receiver gross fee net), .ok ()⟩] =
      cfg.withdrawalUsdt := by
  have hmoved : moved [(⟨.note (.rebalanceExecuted donor receiver gross fee net), .ok ()⟩ :
      Event Service)] = fun _ => 0 := funext fun ex => by simp [eventChange]
  rw [earned, hmoved, List.map_const', List.sum_replicate, nsmul_zero, zero_add]
  simp [rebalanceFees, rebalanceFee, h]

/-- The calls whose failure splits a payment in two; a call inside the process never fails. -/
def Call.settles : Call → Bool
  | .hincrbyfloat _ _ _ => true
  | c => c.isLocal

abbrev Settled (es : List (Event Service)) : Prop := Prog.Answered Call.settles es

theorem getBalance_idle (exchange : String) :
    (getBalance exchange).Uses (fun c => Call.idle c = true) := getBalance_uses exchange rfl

theorem readBalances_idle (names : List String) :
    (readBalances names).Uses (fun c => Call.idle c = true) :=
  readBalances_uses names fun _ => rfl

theorem maybeRebalance_earned {exchange : String} {balance threshold : ℚ}
    {es : List (Event Service)} {r : Except PyExc (Option RebalanceResult)}
    (hex : configured exchange) (h : (maybeRebalance exchange balance threshold).Ends es r)
    (hs : Settled es) : earned es = 0 := by
  unfold maybeRebalance at h
  by_cases hb : threshold < balance
  · rw [if_pos hb] at h
    obtain ⟨rfl, -⟩ := (Prog.ends_pure _ _ _).mp h
    exact earned_nil
  rw [if_neg hb, Prog.bind_eq, Prog.ends_bind] at h
  rcases h with ⟨balances, es₁, es₂, rfl, h₁, h₂⟩ | ⟨x, h₁, -⟩
  · have hread : earned es₁ = 0 := earned_idle ((readBalances_idle _).ends h₁)
    rw [earned_append, hread, zero_add]
    obtain ⟨-, hs₂⟩ := (Prog.answered_append _ _ _).mp hs
    cases harg : balances.argmax Prod.snd with
    | none =>
      simp only [harg] at h₂
      obtain ⟨rfl, -⟩ := (Prog.ends_done _ _ _).mp h₂
      exact earned_nil
    | some top =>
      obtain ⟨donor, amount⟩ := top
      simp only [harg] at h₂
      by_cases hno : donor = exchange ∨ amount ≤ threshold
      · rw [if_pos hno, Prog.ends_call_bind] at h₂
        rcases h₂ with ⟨-, es', rfl, h₃⟩ | ⟨x, rfl, -⟩
        · obtain ⟨rfl, -⟩ := (Prog.ends_pure _ _ _).mp h₃
          exact earned_idle (by simp [Call.idle])
        · exact earned_idle (by simp [Call.idle])
      · rw [if_neg hno] at h₂
        cases hcfg : exchangeConfig donor with
        | none =>
          simp only [hcfg] at h₂
          obtain ⟨rfl, -⟩ := (Prog.ends_done _ _ _).mp h₂
          exact earned_nil
        | some cfg =>
          simp only [hcfg] at h₂
          have hdonor : configured donor := configured_of_exchangeConfig hcfg
          obtain ⟨dn, es₃, rfl, h₃, hs₃⟩ := hs₂.call_bind h₂ rfl
          obtain ⟨rn, es₄, rfl, h₄, hs₄⟩ := hs₃.call_bind h₃ rfl
          obtain ⟨-, es₅, rfl, h₅, -⟩ := hs₄.call_bind h₄ rfl
          obtain ⟨rfl, -⟩ := (Prog.ends_pure _ _ _).mp h₅
          have hnote := earned_rebalanceExecuted hcfg exchange (pyRound (amount / 2) 2)
            cfg.withdrawalUsdt (pyRound (amount / 2 - cfg.withdrawalUsdt) 2)
          have hfrom := earned_moveEvent hdonor (-(amount / 2)) dn
          have hto := earned_moveEvent hex (amount / 2 - cfg.withdrawalUsdt) rn
          simp only [moveEvent] at hfrom hto
          rw [earned_cons, earned_cons (⟨.hincrbyfloat (balanceKey exchange) _ _, _⟩), hfrom,
            hto, hnote]
          ring
  · exact earned_idle ((readBalances_idle _).ends h₁)

section
variable [PyText]

theorem tradeWith_earned {engine : Engine} {opp : Opportunity} {start buyBalance : ℚ}
    {rb : Option RebalanceResult} {es : List (Event Service)}
    {r : Except PyExc (Option ExecutionResult)} (hbuy : configured opp.buyExchange)
    (hsell : configured opp.sellExchange)
    (h : (tradeWith engine opp start buyBalance rb).Ends es r) (hs : Settled es) :
    earned es = returnedPnl r := by
  unfold tradeWith at h
  by_cases hn : buyBalance * engine.maxPositionPct / 100 < minNotionalUsdt
  · rw [if_pos hn] at h
    obtain ⟨rfl, rfl⟩ := (Prog.ends_pure _ _ _).mp h
    exact earned_nil
  rw [if_neg hn] at h
  obtain ⟨now, es₁, rfl, h₁, hs₁⟩ := hs.call_bind h rfl
  rcases (Prog.ends_call_bind _ _ _ _).mp h₁ with ⟨raws, es₂, rfl, h₂⟩ | ⟨x, rfl, rfl⟩
  · have hquotes : ∀ tail, earned (⟨.time, .ok now⟩ ::
        ⟨.mget [depthKey opp.buyExchange opp.symbol, depthKey opp.sellExchange opp.symbol],
          .ok raws⟩ :: tail) = earned tail := by
      intro tail
      rw [earned_cons, earned_cons ⟨.mget _, _⟩, earned_idle (by simp [Call.idle]),
        earned_idle (by simp [Call.idle]), zero_add, zero_add]
    rw [hquotes]
    obtain ⟨-, hs₂⟩ := (Prog.answered_cons _ _ _).mp hs₁
    rcases (Prog.ends_lift_bind _ _ _ _).mp h₂ with ⟨fill, -, h₃⟩ | ⟨x, -, rfl, rfl⟩
    · cases fill with
      | none =>
        obtain ⟨rfl, rfl⟩ := (Prog.ends_pure _ _ _).mp h₃
        exact earned_nil
      | some f =>
        obtain ⟨newBuy, es₃, rfl, h₄, hs₄⟩ := hs₂.call_bind h₃ rfl
        obtain ⟨newSell, es₄, rfl, h₅, hs₅⟩ := hs₄.call_bind h₄ rfl
        obtain ⟨now', es₅, rfl, h₆, hs₆⟩ := hs₅.call_bind h₅ rfl
        obtain ⟨uuid, es₆, rfl, h₇, hs₇⟩ := hs₆.call_bind h₆ rfl
        obtain ⟨finish, es₇, rfl, h₈, -⟩ := hs₇.call_bind h₇ rfl
        obtain ⟨rfl, rfl⟩ := (Prog.ends_pure _ _ _).mp h₈
        have hb := earned_moveEvent hbuy (f.buyChange opp) newBuy
        have hsl := earned_moveEvent hsell (f.sellChange opp) newSell
        simp only [moveEvent] at hb hsl
        rw [earned_cons, hb, earned_cons, hsl, earned_idle (by simp [Call.idle]), add_zero]
        exact (f.netPnl_eq opp).symm
    · exact earned_nil
  · exact earned_idle (by simp [Call.idle])

theorem executeOpportunity_earned {engine : Engine} {opp : Opportunity}
    {es : List (Event Service)} {r : Except PyExc (Option ExecutionResult)}
    (hbuy : configured opp.buyExchange) (hsell : configured opp.sellExchange)
    (h : (executeOpportunity engine opp).Ends es r) (hs : Settled es) :
    earned es = returnedPnl r := by
  unfold executeOpportunity at h
  obtain ⟨stopped, es₁, rfl, h₁, hs₁⟩ := hs.call_bind h rfl
  rw [earned_cons, earned_idle (by simp [Call.idle]), zero_add]
  cases stopped with
  | true =>
    obtain ⟨rfl, rfl⟩ := (Prog.ends_pure _ _ _).mp h₁
    exact earned_nil
  | false =>
    rw [if_neg Bool.false_ne_true] at h₁
    obtain ⟨start, es₂, rfl, h₂, hs₂⟩ := hs₁.call_bind h₁ rfl
    rw [earned_cons, earned_idle (by simp [Call.idle]), zero_add]
    rw [Prog.bind_eq, Prog.ends_bind] at h₂
    rcases h₂ with ⟨b, es₃, es₄, rfl, hb, h₃⟩ | ⟨x, hb, rfl⟩
    · obtain ⟨-, hs₃⟩ := (Prog.answered_append _ _ _).mp hs₂
      rw [earned_append, earned_idle ((getBalance_idle _).ends hb), zero_add]
      rw [Prog.bind_eq, Prog.ends_bind] at h₃
      rcases h₃ with ⟨rb, es₅, es₆, rfl, hr, h₄⟩ | ⟨x, hr, rfl⟩
      · obtain ⟨hs₅, hs₆⟩ := (Prog.answered_append _ _ _).mp hs₃
        rw [earned_append, maybeRebalance_earned hbuy hr hs₅, zero_add]
        cases rb with
        | some rb => exact tradeWith_earned hbuy hsell h₄ hs₆
        | none =>
          by_cases hle : b ≤ engine.rebalanceThreshold
          · simp only [if_pos hle] at h₄
            obtain ⟨rfl, rfl⟩ := (Prog.ends_pure _ _ _).mp h₄
            exact earned_nil
          · simp only [if_neg hle] at h₄
            exact tradeWith_earned hbuy hsell h₄ hs₆
      · exact maybeRebalance_earned hbuy hr hs₃
    · exact earned_idle ((getBalance_idle _).ends hb)

end

theorem Call.ofEngine.keeps {c : Call} (h : c.ofEngine = true) : c.overwrites = false := by
  cases c <;> first | rfl | cases h

theorem follows_total {w w' : World} {es : List (Event Service)}
    (h : Follows World.serve w es w') (hes : ∀ e ∈ es, e.call.overwrites = false) :
    w'.total + rebalanceFees es = w.total + earned es := by
  have hbal : w'.balanceOf = fun ex => w.balanceOf ex + moved es ex :=
    funext fun ex => follows_balanceOf h hes ex
  simp only [World.total, earned, hbal, List.sum_map_add]
  ring

def MovesAnswered (es : List (Event Service)) : Prop :=
  ∀ e ∈ es, ∀ key field delta, e.call = .hincrbyfloat key field delta → ∃ v, e.reply = .ok v

theorem MovesAnswered.settled {w w' : World} {es : List (Event Service)}
    (hm : MovesAnswered es) (h : Follows World.serve w es w') : Settled es := by
  rintro ⟨c, a⟩ he hc
  cases c with
  | hincrbyfloat key field delta => exact hm _ he key field delta rfl
  | _ => exact follows_local h _ he hc

section
variable [PyText]

theorem callOnce_follows (i : CallInput) (w : World) :
    Follows World.serve (callOnce i w).before (callOnce i w).events (callOnce i w).after :=
  Prog.follows_trace World.serve _ _

theorem callOnce_ends (i : CallInput) (w : World) :
    (executeOpportunity i.engine i.opp).Ends (callOnce i w).events (callOnce i w).result :=
  Prog.ends_trace World.serve _ _

theorem callOnce_total {i : CallInput} {w : World} (hbuy : configured i.opp.buyExchange)
    (hsell : configured i.opp.sellExchange) (hm : MovesAnswered (callOnce i w).events) :
    (callOnce i w).after.total + rebalanceFees (callOnce i w).events =
      w.total + returnedPnl (callOnce i w).result := by
  have hfollows := callOnce_follows i w
  have hearned := executeOpportunity_earned hbuy hsell (callOnce_ends i w) (hm.settled hfollows)
  have huses := (executeOpportunity_uses i.engine i.opp).ends (callOnce_ends i w)
  have htotal := follows_total hfollows fun e he => Call.ofEngine.keeps (huses e he)
  rw [htotal, hearned]
  rfl

/-- Over any sequence of calls, failing ones included, as long as every change of a
balance is answered: the total grows by the profits returned, less the withdrawal fee
of the donor of every transfer. -/
theorem callsEnd_total (inputs : List CallInput) (w : World)
    (hconf : ∀ i ∈ inputs, configured i.opp.buyExchange ∧ configured i.opp.sellExchange)
    (hmoves : ∀ r ∈ callRecords inputs w, MovesAnswered r.events) :
    (callsEnd inputs w).total =
      w.total + ((callRecords inputs w).map fun r => returnedPnl r.result).sum -
        ((callRecords inputs w).map fun r => rebalanceFees r.events).sum := by
  induction inputs generalizing w with
  | nil => simp [callsEnd, callRecords]
  | cons i rest ih =>
    obtain ⟨hbuy, hsell⟩ := hconf i List.mem_cons_self
    have hone := callOnce_total hbuy hsell (hmoves _ List.mem_cons_self)
    have hrest := ih (callOnce i w).after (fun j hj => hconf j (List.mem_cons_of_mem _ hj))
      fun r hr => hmoves r (List.mem_cons_of_mem _ hr)
    simp only [callsEnd, callRecords, List.map_cons, List.sum_cons, hrest]
    linarith

theorem callRecords_clean {inputs : List CallInput} {w : World} (hw : w.Calm) :
    ∀ r ∈ callRecords inputs w, Clean r.events := by
  induction inputs generalizing w with
  | nil => simp [callRecords]
  | cons i rest ih =>
    intro r hr
    have hstart : (callOnce i w).before.Calm := hw
    have hfollows := callOnce_follows i w
    rcases List.mem_cons.mp hr with rfl | hr
    · exact clean_of_calm hstart hfollows
    · exact ih (hfollows.calm hstart) r hr

end

/-- A transfer of half of 20000 and a trade from the rest. -/
theorem callsEnd_total_transfer :
    let inputs : List CallInput :=
      [⟨false, ⟨10, 100⟩, sampleOpportunity "gateio" "binance" (3 / 10) (1 / 10)⟩]
    let w := sampleWorld sampleOutside [("gateio", 50), ("bybit", 20000), ("binance", 10000)] []
    let records := @callRecords sampleText inputs w
    (@callsEnd sampleText inputs w).total =
      w.total + (records.map fun r => returnedPnl r.result).sum -
        (records.map fun r => rebalanceFees r.events).sum := by
  have hcalm : (sampleWorld sampleOutside
      [("gateio", 50), ("bybit", 20000), ("binance", 10000)] []).Calm := fun _ => rfl
  exact @callsEnd_total sampleText _ _ (by decide) fun r hr e he _ _ _ _ =>
    @callRecords_clean sampleText _ _ hcalm r hr e he

end CriptoParser
