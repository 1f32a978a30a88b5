import CriptoParser.ExecutorLedger
import CriptoParser.TradeAccounting

/-!
The rows of the table `balance` as a running balance. The rows of a trade stand before those
of the transfer that preceded it, and the amounts are cut off at zero.
-/

set_option autoImplicit false

namespace CriptoParser

open Await

section
variable {K : Type} [Add K]

/-- From `before` on each amount is the one before it plus its own change, and the last one is
`after`. -/
def Runs (before : K) : List (K × K) → K → Prop
  | [], after => before = after
  | (amount, change) :: rest, after => amount = before + change ∧ Runs amount rest after

theorem Runs.append {a b c : K} {xs ys : List (K × K)} (h : Runs a xs b) (h' : Runs b ys c) :
    Runs a (xs ++ ys) c := by
  induction xs generalizing a with
  | nil =>
    cases h
    exact h'
  | cons x rest ih =>
    obtain ⟨amount, change⟩ := x
    obtain ⟨hamount, hrest⟩ := h
    exact ⟨hamount, ih hrest⟩

end

/-- The amounts and changes of the rows of an exchange, in their order. -/
def amountsOf (rows : List BalanceRow) (exchange : String) : List (ℚ × ℚ) :=
  (rows.filter fun row => row.exchange = exchange).map fun row =>
    (row.amount, row.changeAmount.getD 0)

theorem amountsOf_append (rows more : List BalanceRow) (exchange : String) :
    amountsOf (rows ++ more) exchange = amountsOf rows exchange ++ amountsOf more exchange := by
  simp [amountsOf]

theorem amountsOf_cons (executed amount change : ℚ) (other reason exchange : String)
    (tradeId : Option String) (rows : List BalanceRow) :
    amountsOf (balanceRow executed other amount tradeId change reason :: rows) exchange =
      (if exchange = other then [(amount, change)] else []) ++ amountsOf rows exchange := by
  by_cases h : exchange = other
  · simp [amountsOf, balanceRow, h]
  · have hne : other ≠ exchange := fun heq => h heq.symm
    simp [amountsOf, balanceRow, h, hne]

section
variable [PyText]

/-- The condition on the state a call starts in: no transfer is due, and the trade it will find
leaves neither of its exchanges below zero. -/
structure KeepsRunning (engine : Engine) (opp : Opportunity) (w : World) : Prop where
  transfer : w.killSwitch = false →
    w.transferDue opp.buyExchange engine.rebalanceThreshold = none
  room : w.killSwitch = false → ∀ f, w.fillDue engine opp = .ok (some f) →
    0 ≤ w.balanceOf opp.buyExchange * (10000 - engine.maxPositionPct * (100 + opp.buyFeePct)) ∧
      0 ≤ w.balanceOf opp.sellExchange +
        fillChange (w.fillDue engine opp) opp opp.sellExchange

def returnedRows (executed : ℚ) (res : Option ExecutionResult) : List BalanceRow :=
  match res with
  | none => []
  | some res => balanceRecords executed res

theorem outcome_runs {engine : Engine} {opp : Opportunity} {w w' : World}
    {res : Option ExecutionResult} (hkeeps : KeepsRunning engine opp w)
    (h : Outcome engine opp w w' (.ok res)) (executed : ℚ) (exchange : String) :
    Runs (w.balanceOf exchange) (amountsOf (returnedRows executed res) exchange)
      (w'.balanceOf exchange) := by
  cases h with
  | stopped hon hw' => exact (hw' exchange).symm
  | called m r hoff hm hw' hr =>
    have hdue := hkeeps.transfer hoff
    have hsame : ∀ ex, m.balanceOf ex = w.balanceOf ex := by
      intro ex
      rw [hm ex, hdue]
      exact add_zero _
    have hroom := hkeeps.room hoff
    have hspends := fun f => @fillDue_spends _ w engine opp f
    generalize w.fillDue engine opp = fill at hr hw' hroom hspends
    cases hr with
    | skipped =>
      change w.balanceOf exchange = w'.balanceOf exchange
      rw [hw' exchange, hsame exchange]
      exact (add_zero _).symm
    | traded f now uuid durationMs =>
      obtain ⟨hbuy, hsell⟩ := hroom f rfl
      obtain ⟨hspend, -⟩ := hspends f rfl
      have hfunds : w.funds engine opp = w.balanceOf opp.buyExchange := by
        rw [World.funds, hdue]
        exact add_zero _
      have hcost := hspend.cost
      rw [hfunds] at hcost
      have hnewBuy : 0 ≤ m.balanceOf opp.buyExchange + f.buyChange opp := by
        rw [hsame]
        unfold Fill.buyChange Fill.buyFeeAbs
        rw [hcost]
        linarith
      have hnewSell : 0 ≤ w'.balanceOf opp.sellExchange := by
        rw [hw', hsame]
        exact hsell
      have hrows : returnedRows executed (some (fillResult opp f
          ((w.transferDue opp.buyExchange engine.rebalanceThreshold).map
            (w.transferRecord opp.buyExchange)) (m.balanceOf opp.buyExchange + f.buyChange opp)
          (w'.balanceOf opp.sellExchange) now uuid durationMs)) =
          [balanceRow executed opp.buyExchange (m.balanceOf opp.buyExchange + f.buyChange opp)
            (some (f.trade opp now uuid durationMs).id) (f.buyChange opp) "trade",
          balanceRow executed opp.sellExchange (w'.balanceOf opp.sellExchange)
            (some (f.trade opp now uuid durationMs).id) (f.sellChange opp) "trade"] := by
        rw [hdue]
        simp [returnedRows, balanceRecords, rebalanceRecords, fillResult, max_eq_right hnewBuy,
          max_eq_right hnewSell]
      rw [hrows, amountsOf_cons, amountsOf_cons, hw' opp.sellExchange, hw' exchange, hsame, hsame,
        hsame]
      by_cases hb : exchange = opp.buyExchange
      · by_cases hs : exchange = opp.sellExchange
        · rw [← hb, ← hs]
          simp [Runs, amountsOf, fillChange, hb.symm, hs.symm, add_assoc]
        · have hne : opp.buyExchange ≠ opp.sellExchange := fun heq => hs (hb.trans heq)
          rw [hb]
          simp [Runs, amountsOf, fillChange, hne]
      · by_cases hs : exchange = opp.sellExchange
        · have hne : opp.sellExchange ≠ opp.buyExchange := fun heq => hb (hs.trans heq)
          rw [hs]
          simp [Runs, amountsOf, fillChange, hne]
        · simp [Runs, amountsOf, fillChange, hb, hs]

theorem outcome_record {engine : Engine} {opp : Opportunity} {w w' : World}
    {res : ExecutionResult} (h : Outcome engine opp w w' (.ok (some res))) :
    ∃ row, tradeRecord res.trade = .ok row := by
  cases h with
  | called m r hoff hm hw' hr =>
    generalize w.fillDue engine opp = fill at hr
    cases hr with
    | traded f now uuid durationMs => exact ⟨_, rfl⟩

def returnedResults (records : List CallRecord) : List ExecutionResult :=
  records.filterMap fun r => r.result.toOption.join

/-- Over any sequence of calls that return: if none makes a transfer or takes a balance below
zero, the rows of every exchange run from its balance before to its balance after them. -/
theorem callRecords_runs (inputs : List CallInput) (w : World)
    (hret : ∀ r ∈ callRecords inputs w, ∃ res, r.result = .ok res)
    (hkeeps : ∀ r ∈ callRecords inputs w, KeepsRunning r.input.engine r.input.opp r.before) :
    ∃ trades rows, persistRecords (returnedResults (callRecords inputs w)) = .ok (trades, rows) ∧
      ∀ ex, Runs (w.balanceOf ex) (amountsOf rows ex) ((callsEnd inputs w).balanceOf ex) := by
  induction inputs generalizing w with
  | nil => exact ⟨[], [], rfl, fun _ => rfl⟩
  | cons i rest ih =>
    simp only [callRecords, List.forall_mem_cons] at hret hkeeps
    obtain ⟨⟨res, hres⟩, hretRest⟩ := hret
    obtain ⟨hkeep, hkeepRest⟩ := hkeeps
    obtain ⟨trades, rows, hrows, hruns⟩ := ih (callOnce i w).after hretRest hkeepRest
    have hout := returned_outcome hres
    have hone := fun executed ex => outcome_runs hkeep hout executed ex
    have hresults : returnedResults (callRecords (i :: rest) w) =
        res.toList ++ returnedResults (callRecords rest (callOnce i w).after) := by
      simp only [returnedResults, callRecords, List.filterMap_cons, hres]
      cases res <;> rfl
    rw [hresults]
    cases res with
    | none => exact ⟨trades, rows, hrows, fun ex => (hone 0 ex).append (hruns ex)⟩
    | some res =>
      obtain ⟨row, hrow⟩ := outcome_record hout
      refine ⟨row :: trades, balanceRecords row.time res ++ rows, ?_, fun ex => ?_⟩
      · simp only [Option.toList_some, List.singleton_append, persistRecords, hrow, hrows]
        rfl
      · rw [amountsOf_append]
        exact (hone row.time ex).append (hruns ex)

end

/-- Two calls that trade a tenth and half of the balance of binance, over three levels. -/
theorem callRecords_runs_twice :
    let w := sampleWorld threeLevelOutside [("binance", 20000)] []
    ∃ trades rows, persistRecords (returnedResults
        (@callRecords threeLevelText [positionCall 10, positionCall 50] w)) = .ok (trades, rows) ∧
      ∀ ex, Runs (w.balanceOf ex) (amountsOf rows ex)
        ((@callsEnd threeLevelText [positionCall 10, positionCall 50] w).balanceOf ex) := by
  have hreturned : ∀ {r : Except PyExc (Option ExecutionResult)},
      r.toOption.join.isSome = true → ∃ res, r = .ok res := fun h =>
    let ⟨res, hres⟩ := exists_returned h
    ⟨some res, hres⟩
  have hkeeps : ∀ {pct : ℚ} {w : World} {f : Fill},
      w.transferDue "binance" 100 = none →
      @World.fillDue threeLevelText w ⟨pct, 100⟩ (positionCall pct).opp = .ok (some f) →
      0 ≤ w.balanceOf "binance" * (10000 - pct * (100 + 1 / 10)) →
      0 ≤ w.balanceOf "bybit" + fillChange (.ok (some f)) (positionCall pct).opp "bybit" →
      @KeepsRunning threeLevelText ⟨pct, 100⟩ (positionCall pct).opp w := by
    intro pct w f hdue hfill hbuy hsell
    refine @KeepsRunning.mk threeLevelText _ _ _ (fun _ => hdue) fun _ g hg => ⟨hbuy, ?_⟩
    rw [hfill]
    exact hsell
  refine @callRecords_runs threeLevelText [positionCall 10, positionCall 50]
    (sampleWorld threeLevelOutside [("binance", 20000)] []) ?_ ?_
  · simp only [callRecords, List.forall_mem_cons]
    exact ⟨hreturned (by decide +kernel), hreturned (by decide +kernel), by simp⟩
  · simp only [callRecords, List.forall_mem_cons]
    refine ⟨hkeeps (f := ⟨2020 / 103, 10300 / 101, 2000097 / 20200, 100, 101⟩)
      (by decide +kernel) (by decide +kernel)
      (by decide +kernel) (by decide +kernel),
      hkeeps (f := ⟨9019 / 103, 926897 / 9019, 8859117 / 90190, 100, 101⟩)
        (by decide +kernel) (by decide +kernel)
      (by decide +kernel) (by decide +kernel), by simp⟩

/-- bybit is too poor to buy: half of binance is moved to it, and a tenth of the sum is spent.
The row of the trade comes first, though the transfer was made before it. -/
theorem transfer_breaks_running :
    let w := sampleWorld sampleOutside [("binance", 10000)] []
    let i : CallInput := ⟨false, ⟨10, 100⟩,
      sampleOpportunity "bybit" "binance" (1 / 10) (1 / 10)⟩
    ∃ trades rows, persistRecords (returnedResults (@callRecords sampleText [i] w)) =
        .ok (trades, rows) ∧
      amountsOf rows "bybit" = [(8999 / 2, -1001 / 2), (5000, 5000)] ∧
      (@callsEnd sampleText [i] w).balanceOf "bybit" = 8999 / 2 ∧
      ∀ before after, ¬ Runs before (amountsOf rows "bybit") after := by
  have hrows : (persistRecords (returnedResults (@callRecords sampleText [⟨false, ⟨10, 100⟩,
      sampleOpportunity "bybit" "binance" (1 / 10) (1 / 10)⟩]
      (sampleWorld sampleOutside [("binance", 10000)] [])))).map
        (fun rows => amountsOf rows.2 "bybit") = .ok [(8999 / 2, -1001 / 2), (5000, 5000)] := by
    decide +kernel
  cases hpersist : persistRecords (returnedResults (@callRecords sampleText [⟨false, ⟨10, 100⟩,
      sampleOpportunity "bybit" "binance" (1 / 10) (1 / 10)⟩]
      (sampleWorld sampleOutside [("binance", 10000)] []))) with
  | error x =>
    rw [hpersist] at hrows
    cases hrows
  | ok rows =>
    obtain ⟨trades, rows⟩ := rows
    rw [hpersist] at hrows
    have hamounts : amountsOf rows "bybit" = [(8999 / 2, -1001 / 2), (5000, 5000)] :=
      Except.ok.inj hrows
    refine ⟨trades, rows, hpersist, hamounts, by decide +kernel, fun before after h => ?_⟩
    rw [hamounts] at h
    obtain ⟨-, hsecond, -⟩ := h
    norm_num at hsecond

end CriptoParser
