import CriptoParser.BatchAccounting
import CriptoParser.ExecutorLedger
import CriptoParser.GatewayAnalytics
import Mathlib.Algebra.BigOperators.Group.Finset.Basic

set_option autoImplicit false

namespace CriptoParser

open Await Streams

def tradesPnl (trades : List TradeRow) : ℚ := (trades.map (·.netPnl)).sum

def changesSum (balance : List BalanceRow) : ℚ := (balance.filterMap (·.changeAmount)).sum

def rebalancePnl (balance : List BalanceRow) : ℚ :=
  changesSum (balance.filter fun r => r.reason = "rebalance")

def totalPnl (trades : List TradeRow) (balance : List BalanceRow) : ℚ :=
  tradesPnl trades + rebalancePnl balance

/-- `time >= date_trunc('day', now())`. -/
def isToday (now time : ℚ) : Bool := decide ((⌊now / 86400⌋ : ℚ) * 86400 ≤ time)

structure Stats where
  totalPnl : ℚ
  tradesToday : ℕ
  pnlToday : ℚ
  activeOpportunities : ℕ
  bestSpreadPct : ℚ
  deriving DecidableEq, Repr

def getStats (round : ℚ → ℕ → ℚ) (trades : List TradeRow) (balance : List BalanceRow)
    (opportunities : List OpportunityRow) (now : ℚ) : Stats where
  totalPnl := round (CriptoParser.totalPnl trades balance) 2
  tradesToday := trades.countP fun r => isToday now r.time
  pnlToday := round (CriptoParser.totalPnl (trades.filter fun r => isToday now r.time)
    (balance.filter fun r => isToday now r.time)) 2
  activeOpportunities := opportunities.countP fun o => now - 300 < o.time
  bestSpreadPct := round (((opportunities.filter fun o => now - 3600 < o.time).map
    (·.netSpreadPct)).max?.getD 0) 4

/-- The sum of the balances of the exchanges that have a history. -/
def World.money (w : World) : ℚ :=
  ∑ ex ∈ (w.balance.map (·.exchange)).toFinset, w.balanceOf ex

def otherChanges (balance : List BalanceRow) : ℚ :=
  changesSum (balance.filter fun r => r.reason ≠ "rebalance")

theorem changesSum_append (rows rows' : List BalanceRow) :
    changesSum (rows ++ rows') = changesSum rows + changesSum rows' := by
  simp [changesSum]

theorem otherChanges_append (rows rows' : List BalanceRow) :
    otherChanges (rows ++ rows') = otherChanges rows + otherChanges rows' := by
  simp [otherChanges, changesSum_append]

theorem tradesPnl_append (trades trades' : List TradeRow) :
    tradesPnl (trades ++ trades') = tradesPnl trades + tradesPnl trades' := by
  simp [tradesPnl]

theorem changesSum_split (balance : List BalanceRow) :
    changesSum balance = otherChanges balance + rebalancePnl balance := by
  induction balance with
  | nil => exact (add_zero (0 : ℚ)).symm
  | cons r rest ih =>
    have hcons : ∀ rows, changesSum (r :: rows) = r.changeAmount.getD 0 + changesSum rows := by
      intro rows
      cases h : r.changeAmount <;> simp [changesSum, h]
    rw [hcons, ih, otherChanges, otherChanges, rebalancePnl, rebalancePnl]
    by_cases h : r.reason = "rebalance"
    · simp only [h, List.filter_cons, decide_true, if_true, ne_eq, not_true, decide_false,
        Bool.false_eq_true, if_false]
      rw [hcons]
      ring
    · simp only [h, List.filter_cons, decide_true, if_true, ne_eq, not_false_iff, decide_false,
        Bool.false_eq_true, if_false]
      rw [hcons]
      ring

theorem sum_rowsChange (balance : List BalanceRow) (exchanges : Finset String)
    (h : ∀ r ∈ balance, r.exchange ∈ exchanges) :
    ∑ ex ∈ exchanges, rowsChange balance ex = changesSum balance := by
  induction balance with
  | nil => simp [changesSum]
  | cons r rest ih =>
    have hrest := ih fun d hd => h d (List.mem_cons_of_mem _ hd)
    have hrow : ∑ ex ∈ exchanges, rowChange ex r = r.changeAmount.getD 0 := by
      simp only [rowChange]
      rw [Finset.sum_ite_eq exchanges r.exchange, if_pos (h r List.mem_cons_self)]
    simp only [rowsChange_cons, Finset.sum_add_distrib, hrow, hrest]
    cases hc : r.changeAmount <;> simp [changesSum, hc]

theorem World.LedgerAgrees.money {w : World} (h : w.LedgerAgrees) :
    w.money = changesSum w.balance := by
  rw [World.money, Finset.sum_congr rfl fun ex _ => h ex]
  exact sum_rowsChange w.balance _ fun r hr =>
    List.mem_toFinset.mpr (List.mem_map_of_mem hr)

/-- What the changes of the balances are ahead of the results of the trades. -/
def World.unbooked (w : World) : ℚ := otherChanges w.balance - tradesPnl w.trades

def eventUnbooked (e : Event Service) : ℚ :=
  otherChanges (eventRows e) - tradesPnl (eventTrades e)

def unbooked (es : List (Event Service)) : ℚ := (es.map eventUnbooked).sum

theorem unbooked_append (es fs : List (Event Service)) :
    unbooked (es ++ fs) = unbooked es + unbooked fs := by
  simp [unbooked]

theorem serve_unbooked (c : Call) (w : World) :
    (World.serve c w).2.unbooked = w.unbooked + eventUnbooked ⟨c, (World.serve c w).1⟩ := by
  rw [serve_snd]
  cases hd : carriedOut ⟨c, (World.serve c w).1⟩ with
  | false =>
    have hnone : eventUnbooked ⟨c, (World.serve c w).1⟩ = 0 := by
      cases c <;> simp [eventUnbooked, eventRows, eventTrades, hd, otherChanges, changesSum,
        tradesPnl]
    rw [hnone, add_zero]
    rfl
  | true =>
    cases c with
    | copyBalance rows =>
      simp only [eventUnbooked, eventRows, eventTrades, hd, if_true, World.unbooked]
      change otherChanges (w.balance ++ rows) - tradesPnl w.trades = _
      rw [otherChanges_append]
      simp only [tradesPnl, List.map_nil, List.sum_nil]
      ring
    | copyTrades rows =>
      simp only [eventUnbooked, eventRows, eventTrades, hd, if_true, World.unbooked]
      change otherChanges w.balance - tradesPnl (w.trades ++ rows) = _
      rw [tradesPnl_append]
      simp only [otherChanges, changesSum, List.filter_nil, List.filterMap_nil, List.sum_nil]
      ring
    | _ =>
      rw [eventUnbooked]
      exact ((congrArg (w.unbooked + ·) (sub_self (0 : ℚ))).trans (add_zero _)).symm

theorem follows_unbooked {w w' : World} {es : List (Event Service)}
    (h : Follows World.serve w es w') : w'.unbooked = w.unbooked + unbooked es :=
  follows_sum World.serve World.unbooked eventUnbooked
    (fun c v (_ : True) => serve_unbooked c v) h (fun _ _ => trivial)

theorem unbooked_quiet {es : List (Event Service)}
    (h : ∀ e ∈ es, eventRows e = [] ∧ eventTrades e = []) : unbooked es = 0 :=
  List.sum_eq_zero fun q hq => by
    obtain ⟨e, he, rfl⟩ := List.mem_map.mp hq
    obtain ⟨hrows, htrades⟩ := h e he
    rw [eventUnbooked, hrows, htrades]
    exact sub_self 0

def ExecutionResult.Squares (res : ExecutionResult) : Prop :=
  (res.balanceUpdates.map fun u => u.2.2).sum = res.trade.netPnl

theorem tradeRecord_netPnl {t : Trade} {row : TradeRow} (h : tradeRecord t = .ok row) :
    row.netPnl = t.netPnl := by
  unfold tradeRecord at h
  split at h
  · cases h
  · cases h
    rfl

theorem balanceRecords_otherChanges (executed : ℚ) (res : ExecutionResult) :
    otherChanges (balanceRecords executed res) = (res.balanceUpdates.map fun u => u.2.2).sum := by
  have hlegs : ∀ us : List (String × ℚ × ℚ),
      otherChanges (us.map fun u =>
        balanceRow executed u.1 u.2.1 (some res.trade.id) u.2.2 "trade") =
      (us.map fun u => u.2.2).sum := by
    intro us
    induction us with
    | nil => rfl
    | cons u us ih =>
      rw [List.map_cons, List.map_cons, List.sum_cons, ← ih]
      simp [otherChanges, changesSum, balanceRow]
  have hrebalance : otherChanges (rebalanceRecords executed res.rebalance) = 0 := by
    cases res.rebalance with
    | none => rfl
    | some rb => simp [rebalanceRecords, otherChanges, changesSum, balanceRow]
  rw [balanceRecords, otherChanges_append, hlegs, hrebalance, add_zero]

theorem persistRecords_booked {results : List ExecutionResult} {trades : List TradeRow}
    {balances : List BalanceRow} (h : persistRecords results = .ok (trades, balances))
    (hsquare : ∀ res ∈ results, res.Squares) : otherChanges balances = tradesPnl trades := by
  induction results generalizing trades balances with
  | nil =>
    cases h
    rfl
  | cons res rest ih =>
    cases hrow : tradeRecord res.trade with
    | error x =>
      simp only [persistRecords, hrow] at h
      cases h
    | ok row =>
      cases hrest : persistRecords rest with
      | error x =>
        simp only [persistRecords, hrow, hrest] at h
        cases h
      | ok rows =>
        obtain ⟨trades', balances'⟩ := rows
        simp only [persistRecords, hrow, hrest] at h
        cases h
        have hres : res.Squares := hsquare res List.mem_cons_self
        rw [otherChanges_append, balanceRecords_otherChanges, hres,
          ih hrest fun r hr => hsquare r (List.mem_cons_of_mem _ hr), tradesPnl, tradesPnl,
          List.map_cons, List.sum_cons, tradeRecord_netPnl hrow]

section
variable [PyText]

theorem fillResult_squares (opp : Opportunity) (f : Fill) (rb : Option RebalanceResult)
    (newBuy newSell : ℚ) (now : ℤ) (uuid : String) (durationMs : ℤ) :
    (fillResult opp f rb newBuy newSell now uuid durationMs).Squares := by
  simp only [ExecutionResult.Squares, fillResult, Fill.trade, List.map_cons, List.map_nil,
    List.sum_cons, List.sum_nil, add_zero]
  exact (f.netPnl_eq opp).symm

theorem executeOpportunity_squares {engine : Engine} {opp : Opportunity}
    {es : List (Event Service)} {res : ExecutionResult}
    (h : (executeOpportunity engine opp).Ends es (.ok (some res))) : res.Squares := by
  have htrade : ∀ {balance rb es}, TradeRun engine opp balance rb es (.ok (some res)) →
      res.Squares := by
    intro balance rb es ht
    cases ht with
    | traded t raws f newBuy newSell t₁ uuid t₂ durationMs hn hfill =>
      exact fillResult_squares opp f rb newBuy newSell _ uuid durationMs
  cases executeOpportunity_goes ((executeOpportunity_straight engine opp).goes_ok h) with
  | funded start v es tail r hr hgt ht => exact htrade ht
  | transferred start v rb es tail r hr ht => exact htrade ht

theorem batchRun_squares {engine : Engine} {entries : List (Entry Fields)}
    {es : List (Event Service)} {r : Except PyExc (List ExecutionResult)}
    (h : BatchRun engine entries es r) : ∀ results, r = .ok results →
      ∀ res ∈ results, res.Squares ∧ ∃ ms, res.trade.executedAt = some ms := by
  induction h with
  | empty =>
    rintro _ ⟨⟩ res hres
    cases hres
  | unparsed entry rest x es r hparse hrest ih => exact ih
  | failed entry rest opp es x hparse hcall => rintro _ ⟨⟩
  | called entry rest opp es es' res r hparse hcall hrest ih =>
    cases r with
    | error x => rintro _ ⟨⟩
    | ok results =>
      rintro _ ⟨⟩ res' hres'
      rcases List.mem_append.mp hres' with hres' | hres'
      · rw [Option.mem_toList.mp hres'] at hcall
        exact ⟨executeOpportunity_squares hcall, (executeCall_legs hcall).2.2⟩
      · exact ih results rfl res' hres'

def callUnbooked : Call → ℚ
  | .copyTrades rows => -tradesPnl rows
  | .copyBalance rows => otherChanges rows
  | _ => 0

omit [PyText] in
theorem unbooked_clean {es : List (Event Service)} (h : Clean es) :
    unbooked es = ((es.map Event.call).map callUnbooked).sum := by
  induction es with
  | nil => rfl
  | cons e es ih =>
    obtain ⟨⟨v, hv⟩, hes⟩ := (clean_cons _ _).mp h
    have hdone : carriedOut e = true := by
      rw [carriedOut, hv]
    have hevent : eventUnbooked e = callUnbooked e.call := by
      unfold eventUnbooked eventRows eventTrades callUnbooked
      cases e.call with
      | copyTrades rows =>
        simp only [hdone, if_true]
        exact zero_sub _
      | copyBalance rows =>
        simp only [hdone, if_true]
        exact sub_zero _
      | _ => exact sub_self 0
    rw [List.map_cons, List.map_cons, List.sum_cons, ← hevent, ← ih hes]
    simp [unbooked]

theorem settleBatch_booked {entries : List (Entry Fields)} {results : List ExecutionResult}
    {es : List (Event Service)} {r : Except PyExc Unit}
    (h : (settleBatch entries results).Ends es r) (hclean : Clean es)
    (hat : ∀ res ∈ results, ∃ ms, res.trade.executedAt = some ms)
    (hsquare : ∀ res ∈ results, res.Squares) : unbooked es = 0 := by
  obtain ⟨trades, balances, hrec, -⟩ := persistRecords_ok hat
  rcases settleBatch_performs hrec es r h with ⟨hcalls, -, -⟩ | ⟨fs, c, x, rfl, -, -, -⟩
  · have hpub : ((results.map fun res =>
        (Call.xadd tradesStream res.trade.toRedis)).map callUnbooked).sum = 0 :=
      List.sum_eq_zero fun q hq => by
        simp only [List.mem_map] at hq
        obtain ⟨c, ⟨res, -, rfl⟩, rfl⟩ := hq
        rfl
    have hack : ((ackCalls entries).map callUnbooked).sum = 0 := by
      unfold ackCalls
      split
      · rfl
      · simp [callUnbooked]
    have htrades : ((if trades.isEmpty then [] else [Call.copyTrades trades]).map
        callUnbooked).sum = -tradesPnl trades := by
      cases trades with
      | nil => exact neg_zero.symm
      | cons row rest => simp [callUnbooked]
    have hbalances : ((if balances.isEmpty then [] else [Call.copyBalance balances]).map
        callUnbooked).sum = otherChanges balances := by
      cases balances with
      | nil => rfl
      | cons row rest => simp [callUnbooked]
    rw [unbooked_clean hclean, hcalls, persistCalls]
    simp only [List.map_append, List.sum_append, hpub, hack, htrades, hbalances, add_zero]
    rw [persistRecords_booked hrec hsquare]
    ring
  · obtain ⟨-, hlast⟩ := (clean_append _ _).mp hclean
    obtain ⟨v, hv⟩ := hlast _ List.mem_cons_self
    cases hv

theorem batchRun_quiet {engine : Engine} {entries : List (Entry Fields)}
    {es : List (Event Service)} {r : Except PyExc (List ExecutionResult)}
    (h : BatchRun engine entries es r) : unbooked es = 0 := by
  refine unbooked_quiet fun e he => ⟨batchRun_unwritten h e he, ?_⟩
  have hcall := batchRun_calls h e he
  obtain ⟨c, a⟩ := e
  cases c with
  | copyTrades rows => rcases hcall with hcall | hcall <;> cases hcall
  | _ => rfl

theorem pass_unbooked {engine : Engine} {w : World} (hw : w.Calm) :
    (passEnd engine w).unbooked = w.unbooked := by
  have hf : Follows World.serve w (passTrace engine w) (passEnd engine w) :=
    Prog.follows_trace _ _ _
  have hends := Prog.ends_trace World.serve (loopPass (consumeOnce engine)) w
  have hclean := clean_of_calm hw hf
  rw [follows_unbooked hf]
  obtain ⟨es₁, es₂, q, heq, hbody, hsleep⟩ := loopPass_ends hends
  change passTrace engine w = es₁ ++ es₂ at heq
  rw [heq] at hf hclean ⊢
  obtain ⟨m, hf₁, -⟩ := (follows_append _ _ _ _ _).mp hf
  obtain ⟨hclean₁, -⟩ := (clean_append _ _).mp hclean
  have hrest : unbooked es₂ = 0 := unbooked_quiet fun e he => by
    rw [eventRows, eventTrades, hsleep e he]
    exact ⟨rfl, rfl⟩
  rw [unbooked_append, hrest, add_zero]
  suffices hzero : unbooked es₁ = 0 by rw [hzero, add_zero]
  have hopens : ∀ e : Event Service, e.call.opensPass = true →
      eventRows e = [] ∧ eventTrades e = [] := by
    rintro ⟨c, a⟩ hc
    cases c <;> first | exact ⟨rfl, rfl⟩ | cases hc
  rcases consumeOnce_ends hbody (follows_local hf₁) with
    hopen | ⟨value, stream, entries, more, tail, rfl, hbatch⟩
  · exact unbooked_quiet fun e he => hopens e (hopen e he)
  · obtain ⟨m₁, hhead, htail⟩ := (follows_append _ _ _ _ _).mp hf₁
    obtain ⟨-, hcleant⟩ := (clean_append _ _).mp hclean₁
    have hbegin : unbooked (passEvents value stream entries more) = 0 :=
      unbooked_quiet fun e he => by
        simp only [passEvents, List.mem_cons, List.not_mem_nil, or_false] at he
        rcases he with rfl | rfl | rfl <;> exact ⟨rfl, rfl⟩
    rw [unbooked_append, hbegin, zero_add]
    rcases handleBatch_ends hbatch (follows_local htail) with
      ⟨x, hrun, -⟩ | ⟨results, es₃, es₄, rfl, hrun, hsettle⟩
    · exact batchRun_quiet hrun
    · have hresults := batchRun_squares hrun results rfl
      rw [unbooked_append, batchRun_quiet hrun, zero_add]
      exact settleBatch_booked hsettle ((clean_append _ _).mp hcleant).2
        (fun res hres => (hresults res hres).2) fun res hres => (hresults res hres).1

theorem loopEnd_kept {I : World → Prop} {engine : Engine} {w : World} {n : ℕ} (h₀ : I w)
    (hstep : ∀ k < n, I (loopEnd engine k w) → I (passEnd engine (loopEnd engine k w))) :
    I (loopEnd engine n w) := by
  induction n generalizing w with
  | zero => exact h₀
  | succ n ih =>
    have hpass : I (passEnd engine w) := hstep 0 (Nat.succ_pos n) h₀
    cases ha : ((loopPass (consumeOnce engine)).run World.serve w).1 with
    | error x =>
      rw [loopEnd_succ, ha]
      exact hpass
    | ok a =>
      have hshift : ∀ k, loopEnd engine (k + 1) w = loopEnd engine k (passEnd engine w) :=
        fun k => by rw [loopEnd_succ, ha]
      rw [hshift]
      refine ih hpass fun k hk hI => ?_
      rw [← hshift] at hI ⊢
      exact hstep (k + 1) (by omega) hI

/-- As long as each call records what it moves, the total of the dashboard moves with the money on
the exchanges. -/
theorem total_pnl_money (round : ℚ → ℕ → ℚ) (engine : Engine) (w : World) (hw : w.Calm)
    (hl : w.LedgerAgrees) (n : ℕ)
    (hc : ∀ k < n, CallsRecorded engine (loopEnd engine k w) false
      (passTrace engine (loopEnd engine k w)))
    (opportunities : List OpportunityRow) (now : ℚ) :
    let w' := loopEnd engine n w
    (getStats round w'.trades w'.balance opportunities now).totalPnl =
      round (totalPnl w.trades w.balance + (w'.money - w.money)) 2 := by
  intro w'
  have hkept : w'.Calm ∧ w'.LedgerAgrees ∧ w'.unbooked = w.unbooked := by
    refine loopEnd_kept (I := fun v => v.Calm ∧ v.LedgerAgrees ∧ v.unbooked = w.unbooked)
      ⟨hw, hl, rfl⟩ fun k hk hI => ?_
    obtain ⟨hcalm, hagrees, hunbooked⟩ := hI
    exact ⟨(Prog.follows_trace World.serve (loopPass (consumeOnce engine)) _).calm hcalm,
      pass_ledgerAgrees hcalm hagrees (hc k hk), (pass_unbooked hcalm).trans hunbooked⟩
  obtain ⟨-, hagrees, hunbooked⟩ := hkept
  have htotal : ∀ v : World, v.LedgerAgrees →
      v.money = v.unbooked + totalPnl v.trades v.balance := by
    intro v hv
    rw [hv.money, changesSum_split, World.unbooked, totalPnl]
    ring
  change round (totalPnl w'.trades w'.balance) 2 = _
  rw [htotal w' hagrees, htotal w hl, hunbooked]
  congr 1
  ring

end

/-- A transfer and a trade: the dashboard shows what is left on the exchanges. -/
theorem total_pnl_money_traded :
    (getStats unrounded (@loopEnd sampleText ⟨10, 100⟩ 1 (lowWorld sampleOutside)).trades
      (@loopEnd sampleText ⟨10, 100⟩ 1 (lowWorld sampleOutside)).balance [] 0).totalPnl =
    (@loopEnd sampleText ⟨10, 100⟩ 1 (lowWorld sampleOutside)).money -
      (lowWorld sampleOutside).money := by
  have h := @total_pnl_money sampleText unrounded ⟨10, 100⟩ (lowWorld sampleOutside) (fun _ => rfl)
    (sampleWorld_seeded _ _ _).agrees 1 (fun k hk => by
      obtain rfl : k = 0 := by omega
      decide +kernel) [] 0
  have hstart : totalPnl (lowWorld sampleOutside).trades (lowWorld sampleOutside).balance = 0 := by
    decide +kernel
  rw [hstart] at h
  exact h.trans (zero_add _)

end CriptoParser
