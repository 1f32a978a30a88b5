import CriptoParser.ExecutorRebalance
import CriptoParser.SharedDepth
import Mathlib.Tactic.Ring

set_option autoImplicit false

namespace CriptoParser

open Await

def minNotionalUsdt : ℚ := 10

/-- The settings an engine is built with; `kill_switch` is in the process memory. -/
structure Engine where
  maxPositionPct : ℚ
  rebalanceThreshold : ℚ
  deriving DecidableEq, Repr

/-- What the two walks and the tops of the two books give. -/
structure Fill where
  amount : ℚ
  effectiveBuy : ℚ
  effectiveSell : ℚ
  topAsk : ℚ
  topBid : ℚ
  deriving DecidableEq, Repr

section
variable [PyText]

def topPrice (side : Json) : Except PyExc ℚ := do
  let level ← side.first
  let price ← level.first
  Json.toFloat price

/-- From the two stored books to the fill; `none` where the trade is skipped: a stale
or missing book, or a side too thin for the notional. -/
def fillFromDepth (rawBuy rawSell : Option String) (nowMs : ℤ) (notional : ℚ) :
    Except PyExc (Option Fill) := do
  let buyDepth ← parseDepth rawBuy
  let sellDepth ← parseDepth rawSell
  match buyDepth, sellDepth with
  | some buy, some sell =>
    if !isFresh (some buy) nowMs depthMaxAgeMs || !isFresh (some sell) nowMs depthMaxAgeMs then
      .ok none
    else
      match ← walkAsksForNotional buy.asks notional with
      | none => .ok none
      | some (amount, effectiveBuy) =>
        match ← walkBidsForAmount sell.bids amount with
        | none => .ok none
        | some effectiveSell =>
          let topAsk ← topPrice buy.asks
          let topBid ← topPrice sell.bids
          .ok (some ⟨amount, effectiveBuy, effectiveSell, topAsk, topBid⟩)
  | _, _ => .ok none

end

namespace Fill

def buyCost (f : Fill) : ℚ := f.amount * f.effectiveBuy

def sellProceeds (f : Fill) : ℚ := f.amount * f.effectiveSell

def buyFeeAbs (f : Fill) (opp : Opportunity) : ℚ := f.buyCost * opp.buyFeePct / 100

def sellFeeAbs (f : Fill) (opp : Opportunity) : ℚ := f.sellProceeds * opp.sellFeePct / 100

def grossPnl (f : Fill) : ℚ := f.amount * (f.topBid - f.topAsk)

def netPnl (f : Fill) (opp : Opportunity) : ℚ :=
  f.sellProceeds - f.buyCost - f.buyFeeAbs opp - f.sellFeeAbs opp

def slippageCost (f : Fill) : ℚ :=
  f.amount * ((f.effectiveBuy - f.topAsk) + (f.topBid - f.effectiveSell))

def buyChange (f : Fill) (opp : Opportunity) : ℚ := -(f.buyCost + f.buyFeeAbs opp)

def sellChange (f : Fill) (opp : Opportunity) : ℚ := f.sellProceeds - f.sellFeeAbs opp

theorem netPnl_eq (f : Fill) (opp : Opportunity) :
    f.netPnl opp = f.buyChange opp + f.sellChange opp := by
  unfold netPnl buyChange sellChange
  ring

/-- What every fill of a notional keeps: it is bought at the notional and sold at no
negative price. -/
structure Spends (f : Fill) (notional : ℚ) : Prop where
  cost : f.buyCost = notional
  amount : 0 < f.amount
  price : 0 ≤ f.effectiveSell

def trade (f : Fill) (opp : Opportunity) (now : ℤ) (uuid : String) (durationMs : ℤ) [PyText] :
    Trade where
  id := "trade_" ++ PyText.strInt now ++ "_" ++ String.ofList (uuid.toList.take 8)
  opportunityId := opp.id
  symbol := opp.symbol
  buyExchange := opp.buyExchange
  sellExchange := opp.sellExchange
  buyPrice := f.effectiveBuy
  sellPrice := f.effectiveSell
  amount := f.amount
  buyFee := f.buyFeeAbs opp
  sellFee := f.sellFeeAbs opp
  withdrawalFee := 0
  slippageCost := f.slippageCost
  grossPnl := f.grossPnl
  netPnl := f.netPnl opp
  status := "completed"
  executedAt := some now
  durationMs := some durationMs

end Fill

section
variable [PyText]

theorem fillFromDepth_some {rawBuy rawSell : Option String} {nowMs : ℤ} {notional : ℚ}
    {f : Fill} (h : fillFromDepth rawBuy rawSell nowMs notional = .ok (some f)) :
    ∃ buy sell : Depth, parseDepth rawBuy = .ok (some buy) ∧
      parseDepth rawSell = .ok (some sell) ∧
      walkAsksForNotional buy.asks notional = .ok (some (f.amount, f.effectiveBuy)) ∧
      walkBidsForAmount sell.bids f.amount = .ok (some f.effectiveSell) ∧
      topPrice buy.asks = .ok f.topAsk ∧ topPrice sell.bids = .ok f.topBid := by
  unfold fillFromDepth at h
  cases hb : parseDepth rawBuy with
  | error x => simp only [hb, bind, Except.bind] at h; cases h
  | ok buyDepth =>
    cases hs : parseDepth rawSell with
    | error x => simp only [hb, hs, bind, Except.bind] at h; cases h
    | ok sellDepth =>
      simp only [hb, hs, bind, Except.bind] at h
      cases buyDepth with
      | none => cases h
      | some buy =>
        cases sellDepth with
        | none => cases h
        | some sell =>
          simp only at h
          split at h
          · cases h
          · cases hw : walkAsksForNotional buy.asks notional with
            | error x => simp only [hw] at h; cases h
            | ok walked =>
              cases walked with
              | none => simp only [hw] at h; cases h
              | some av =>
                obtain ⟨amount, effectiveBuy⟩ := av
                cases hv : walkBidsForAmount sell.bids amount with
                | error x => simp only [hw, hv] at h; cases h
                | ok vwap =>
                  cases vwap with
                  | none => simp only [hw, hv] at h; cases h
                  | some effectiveSell =>
                    simp only [hw, hv] at h
                    cases hask : topPrice buy.asks with
                    | error x => simp only [hask] at h; cases h
                    | ok topAsk =>
                      cases hbid : topPrice sell.bids with
                      | error x => simp only [hask, hbid] at h; cases h
                      | ok topBid =>
                        simp only [hask, hbid] at h
                        cases h
                        exact ⟨buy, sell, rfl, rfl, hw, hv, hask, hbid⟩

theorem fillFromDepth_spends {rawBuy rawSell : Option String} {nowMs : ℤ} {notional : ℚ}
    {f : Fill} (h : fillFromDepth rawBuy rawSell nowMs notional = .ok (some f)) :
    f.Spends notional := by
  obtain ⟨buy, sell, -, -, hasks, hbids, -⟩ := fillFromDepth_some h
  obtain ⟨hpos, hprice⟩ := walkBidsForAmount_some hbids
  exact ⟨walkAsksForNotional_cost hasks, hpos, hprice⟩

def bookFill (opp : Opportunity) (start : ℚ) (rebalanceResult : Option RebalanceResult)
    (f : Fill) : Task (Option ExecutionResult) := do
  let newBuy ← updateBalance opp.buyExchange (f.buyChange opp)
  let newSell ← updateBalance opp.sellExchange (f.sellChange opp)
  let now ← Prog.call (S := Service) .time
  let uuid ← Prog.call (S := Service) .uuid4
  let finish ← Prog.call (S := Service) .time
  return some {
    trade := f.trade opp (pyInt (now * 1000)) uuid (pyInt ((finish - start) * 1000))
    balanceUpdates := [
      (opp.buyExchange, max 0 newBuy, f.buyChange opp),
      (opp.sellExchange, max 0 newSell, f.sellChange opp)]
    rebalance := rebalanceResult }

def tradeWith (engine : Engine) (opp : Opportunity) (start buyBalance : ℚ)
    (rebalanceResult : Option RebalanceResult) : Task (Option ExecutionResult) :=
  let notional := buyBalance * engine.maxPositionPct / 100
  if notional < minNotionalUsdt then pure none
  else do
    let now ← Prog.call (S := Service) .time
    let raws ← Prog.call (S := Service)
      (.mget [depthKey opp.buyExchange opp.symbol, depthKey opp.sellExchange opp.symbol])
    let fill ← Prog.lift (fillFromDepth (raws (depthKey opp.buyExchange opp.symbol))
      (raws (depthKey opp.sellExchange opp.symbol)) (pyInt (now * 1000)) notional)
    match fill with
    | none => return none
    | some f => bookFill opp start rebalanceResult f

def executeOpportunity (engine : Engine) (opp : Opportunity) :
    Task (Option ExecutionResult) := do
  let stopped ← Prog.call (S := Service) .killSwitch
  if stopped then return none
  else do
    let start ← Prog.call (S := Service) .time
    let buyBalance ← getBalance opp.buyExchange
    let rebalanceResult ← maybeRebalance opp.buyExchange buyBalance engine.rebalanceThreshold
    match rebalanceResult with
    | some rb => tradeWith engine opp start rb.receiverNewBalance rebalanceResult
    | none =>
      if buyBalance ≤ engine.rebalanceThreshold then return none
      else tradeWith engine opp start buyBalance none

theorem bookFill_uses (opp : Opportunity) (start : ℚ) (rb : Option RebalanceResult) (f : Fill) :
    (bookFill opp start rb f).Uses (fun c => Call.ofEngine c = true) :=
  Prog.uses_bind (updateBalance_uses _ _) fun _ =>
  Prog.uses_bind (updateBalance_uses _ _) fun _ =>
  Prog.uses_bind ((Prog.uses_call (S := Service) _).mpr rfl) fun _ =>
  Prog.uses_bind ((Prog.uses_call (S := Service) _).mpr rfl) fun _ =>
  Prog.uses_bind ((Prog.uses_call (S := Service) _).mpr rfl) fun _ => Prog.uses_pure _

theorem tradeWith_uses (engine : Engine) (opp : Opportunity) (start buyBalance : ℚ)
    (rb : Option RebalanceResult) :
    (tradeWith engine opp start buyBalance rb).Uses (fun c => Call.ofEngine c = true) := by
  unfold tradeWith
  by_cases hn : buyBalance * engine.maxPositionPct / 100 < minNotionalUsdt
  · rw [if_pos hn]
    exact Prog.uses_pure _
  rw [if_neg hn]
  refine Prog.uses_bind ((Prog.uses_call (S := Service) _).mpr rfl) fun _ =>
    Prog.uses_bind ((Prog.uses_call (S := Service) _).mpr rfl) fun _ =>
    Prog.uses_bind (Prog.uses_lift _) fun fill => ?_
  cases fill with
  | none => exact Prog.uses_pure _
  | some f => exact bookFill_uses opp start rb f

theorem executeOpportunity_uses (engine : Engine) (opp : Opportunity) :
    (executeOpportunity engine opp).Uses (fun c => Call.ofEngine c = true) := by
  unfold executeOpportunity
  refine Prog.uses_bind ((Prog.uses_call (S := Service) _).mpr rfl) fun stopped => ?_
  split
  · exact Prog.uses_pure _
  refine Prog.uses_bind ((Prog.uses_call (S := Service) _).mpr rfl) fun _ =>
    Prog.uses_bind (getBalance_uses _ rfl) fun b =>
    Prog.uses_bind (maybeRebalance_uses _ _ _) fun rb => ?_
  cases rb with
  | some rb => exact tradeWith_uses engine opp _ _ _
  | none =>
    simp only
    split
    · exact Prog.uses_pure _
    · exact tradeWith_uses engine opp _ _ _

theorem tradeWith_straight (engine : Engine) (opp : Opportunity) (start balance : ℚ)
    (rb : Option RebalanceResult) : (tradeWith engine opp start balance rb).Straight := by
  unfold tradeWith
  by_cases hn : balance * engine.maxPositionPct / 100 < minNotionalUsdt
  · rw [if_pos hn]
    exact Prog.straight_pure _
  rw [if_neg hn]
  refine Prog.straight_bind (Prog.straight_call _) fun _ =>
    Prog.straight_bind (Prog.straight_call _) fun _ =>
    Prog.straight_bind (Prog.straight_lift _) fun fill => ?_
  cases fill with
  | none => exact Prog.straight_pure _
  | some f =>
    exact Prog.straight_bind (Prog.straight_call _) fun _ =>
      Prog.straight_bind (Prog.straight_call _) fun _ =>
      Prog.straight_bind (Prog.straight_call _) fun _ =>
      Prog.straight_bind (Prog.straight_call _) fun _ =>
      Prog.straight_bind (Prog.straight_call _) fun _ => Prog.straight_pure _

theorem executeOpportunity_straight (engine : Engine) (opp : Opportunity) :
    (executeOpportunity engine opp).Straight := by
  unfold executeOpportunity
  refine Prog.straight_bind (Prog.straight_call _) fun stopped => ?_
  split
  · exact Prog.straight_pure _
  refine Prog.straight_bind (Prog.straight_call _) fun _ =>
    Prog.straight_bind (getBalance_straight _) fun _ =>
    Prog.straight_bind (maybeRebalance_straight _ _ _) fun rb => ?_
  cases rb with
  | some rb => exact tradeWith_straight engine opp _ _ _
  | none =>
    simp only
    split
    · exact Prog.straight_pure _
    · exact tradeWith_straight engine opp _ _ _

def fillResult (opp : Opportunity) (f : Fill) (rb : Option RebalanceResult)
    (newBuy newSell : ℚ) (now : ℤ) (uuid : String) (durationMs : ℤ) : ExecutionResult where
  trade := f.trade opp now uuid durationMs
  balanceUpdates := [
    (opp.buyExchange, max 0 newBuy, f.buyChange opp),
    (opp.sellExchange, max 0 newSell, f.sellChange opp)]
  rebalance := rb

def quoteEvents (opp : Opportunity) (t : ℚ) (raws : String → Option String) :
    List (Event Service) := [
  ⟨.time, .ok t⟩,
  ⟨.mget [depthKey opp.buyExchange opp.symbol, depthKey opp.sellExchange opp.symbol],
    .ok raws⟩]

def fillAt (opp : Opportunity) (t : ℚ) (raws : String → Option String) (notional : ℚ) :
    Except PyExc (Option Fill) :=
  fillFromDepth (raws (depthKey opp.buyExchange opp.symbol))
    (raws (depthKey opp.sellExchange opp.symbol)) (pyInt (t * 1000)) notional

def legEvents (opp : Opportunity) (f : Fill) (newBuy newSell t : ℚ) (uuid : String)
    (t' : ℚ) : List (Event Service) := [
  moveEvent opp.buyExchange (f.buyChange opp) newBuy,
  moveEvent opp.sellExchange (f.sellChange opp) newSell,
  ⟨.time, .ok t⟩, ⟨.uuid4, .ok uuid⟩, ⟨.time, .ok t'⟩]

inductive TradeRun (engine : Engine) (opp : Opportunity) (buyBalance : ℚ)
    (rb : Option RebalanceResult) :
    List (Event Service) → Except PyExc (Option ExecutionResult) → Prop
  | small (h : buyBalance * engine.maxPositionPct / 100 < minNotionalUsdt) :
      TradeRun engine opp buyBalance rb [] (.ok none)
  | skipped (t : ℚ) (raws : String → Option String)
      (hn : minNotionalUsdt ≤ buyBalance * engine.maxPositionPct / 100)
      (h : fillAt opp t raws (buyBalance * engine.maxPositionPct / 100) = .ok none) :
      TradeRun engine opp buyBalance rb (quoteEvents opp t raws) (.ok none)
  | raised (t : ℚ) (raws : String → Option String) (x : PyExc)
      (hn : minNotionalUsdt ≤ buyBalance * engine.maxPositionPct / 100)
      (h : fillAt opp t raws (buyBalance * engine.maxPositionPct / 100) = .error x) :
      TradeRun engine opp buyBalance rb (quoteEvents opp t raws) (.error x)
  | traded (t : ℚ) (raws : String → Option String) (f : Fill)
      (newBuy newSell t₁ : ℚ) (uuid : String) (t₂ : ℚ) (durationMs : ℤ)
      (hn : minNotionalUsdt ≤ buyBalance * engine.maxPositionPct / 100)
      (h : fillAt opp t raws (buyBalance * engine.maxPositionPct / 100) = .ok (some f)) :
      TradeRun engine opp buyBalance rb
        (quoteEvents opp t raws ++ legEvents opp f newBuy newSell t₁ uuid t₂)
        (.ok (some (fillResult opp f rb newBuy newSell (pyInt (t₁ * 1000)) uuid durationMs)))

theorem tradeWith_goes {engine : Engine} {opp : Opportunity} {start buyBalance : ℚ}
    {rb : Option RebalanceResult} {es : List (Event Service)}
    {r : Except PyExc (Option ExecutionResult)}
    (h : (tradeWith engine opp start buyBalance rb).Goes es r) :
    TradeRun engine opp buyBalance rb es r := by
  unfold tradeWith at h
  by_cases hn : buyBalance * engine.maxPositionPct / 100 < minNotionalUsdt
  · rw [if_pos hn] at h
    obtain ⟨rfl, rfl⟩ := (Prog.goes_pure _ _ _).mp h
    exact .small hn
  simp only [if_neg hn, Prog.goes_call_bind, Prog.goes_lift_bind] at h
  have hn := not_lt.mp hn
  obtain ⟨t, es', rfl, raws, es'', rfl, h⟩ := h
  rcases h with ⟨fill, hfill, h⟩ | ⟨x, hfill, rfl, rfl⟩
  · cases fill with
    | none =>
      obtain ⟨rfl, rfl⟩ := (Prog.goes_pure _ _ _).mp h
      exact .skipped t raws hn hfill
    | some f =>
      simp only [bookFill, updateBalance, Prog.goes_call_bind] at h
      obtain ⟨newBuy, es₁, rfl, newSell, es₂, rfl, t₁, es₃, rfl, uuid, es₄, rfl, t₂, es₅, rfl,
        h⟩ := h
      obtain ⟨rfl, rfl⟩ := (Prog.goes_pure _ _ _).mp h
      exact .traded t raws f newBuy newSell t₁ uuid t₂ _ hn hfill
  · exact .raised t raws x hn hfill

/-- The opening of a call that is not stopped: the clock and the balance to buy from. -/
def openEvents (opp : Opportunity) (start : ℚ) (v : Option ℚ) : List (Event Service) := [
  ⟨.killSwitch, .ok false⟩, ⟨.time, .ok start⟩, readEvent opp.buyExchange v]

inductive ExecuteRun (engine : Engine) (opp : Opportunity) :
    List (Event Service) → Except PyExc (Option ExecutionResult) → Prop
  | stopped : ExecuteRun engine opp [⟨.killSwitch, .ok true⟩] (.ok none)
  | broke (start : ℚ) (v : Option ℚ) (es : List (Event Service))
      (hr : RebalanceRun opp.buyExchange (v.getD 0) engine.rebalanceThreshold es none)
      (hle : v.getD 0 ≤ engine.rebalanceThreshold) :
      ExecuteRun engine opp (openEvents opp start v ++ es) (.ok none)
  | funded (start : ℚ) (v : Option ℚ) (es tail : List (Event Service))
      (r : Except PyExc (Option ExecutionResult))
      (hr : RebalanceRun opp.buyExchange (v.getD 0) engine.rebalanceThreshold es none)
      (hgt : engine.rebalanceThreshold < v.getD 0)
      (ht : TradeRun engine opp (v.getD 0) none tail r) :
      ExecuteRun engine opp (openEvents opp start v ++ (es ++ tail)) r
  | transferred (start : ℚ) (v : Option ℚ) (rb : RebalanceResult)
      (es tail : List (Event Service)) (r : Except PyExc (Option ExecutionResult))
      (hr : RebalanceRun opp.buyExchange (v.getD 0) engine.rebalanceThreshold es (some rb))
      (ht : TradeRun engine opp rb.receiverNewBalance (some rb) tail r) :
      ExecuteRun engine opp (openEvents opp start v ++ (es ++ tail)) r

theorem executeOpportunity_goes {engine : Engine} {opp : Opportunity}
    {es : List (Event Service)} {r : Except PyExc (Option ExecutionResult)}
    (h : (executeOpportunity engine opp).Goes es r) : ExecuteRun engine opp es r := by
  unfold executeOpportunity at h
  rw [Prog.goes_call_bind] at h
  obtain ⟨stopped, es', rfl, h⟩ := h
  cases stopped with
  | true =>
    obtain ⟨rfl, rfl⟩ := (Prog.goes_pure _ _ _).mp h
    exact .stopped
  | false =>
    rw [if_neg Bool.false_ne_true, Prog.goes_call_bind] at h
    obtain ⟨start, es₁, rfl, h⟩ := h
    rw [Prog.goes_bind] at h
    rcases h with ⟨b, es₂, es₃, rfl, hb, h⟩ | ⟨x, hb, -⟩
    · obtain ⟨v, rfl, hv⟩ := (getBalance_goes _ _ _).mp hb
      cases hv
      rw [Prog.goes_bind] at h
      rcases h with ⟨rb, es₄, tail, rfl, hr, h⟩ | ⟨x, hr, -⟩
      · obtain ⟨rb', hrb, hrun⟩ := maybeRebalance_goes hr
        cases hrb
        cases rb with
        | some rb => exact .transferred start v rb es₄ tail r hrun (tradeWith_goes h)
        | none =>
          by_cases hle : v.getD 0 ≤ engine.rebalanceThreshold
          · simp only [if_pos hle] at h
            obtain ⟨rfl, rfl⟩ := (Prog.goes_pure _ _ _).mp h
            rw [List.append_nil]
            exact .broke start v es₄ hrun hle
          · simp only [if_neg hle] at h
            exact .funded start v es₄ tail r hrun (not_le.mp hle) (tradeWith_goes h)
      · obtain ⟨rb', hrb, -⟩ := maybeRebalance_goes hr
        cases hrb
    · obtain ⟨v, -, hv⟩ := (getBalance_goes _ _ _).mp hb
      cases hv

end

end CriptoParser
