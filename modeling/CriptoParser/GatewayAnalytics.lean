import CriptoParser.SqlGroups
import CriptoParser.TradeDates
import Mathlib.Algebra.BigOperators.Group.List.Basic
import Mathlib.Algebra.Group.Action.Defs

set_option autoImplicit false

namespace CriptoParser

abbrev Days := { days : ℕ // 1 ≤ days ∧ days ≤ 365 }

/-- `time > now() - make_interval(days => $1)`. -/
def inPeriod (now : ℚ) (days : Days) (time : ℚ) : Bool := decide (now - days.val * 86400 < time)

/-- `time_bucket('1 day', time)`, as the number of the day. -/
def dayBucket (r : TradeRow) : ℤ := ⌊r.time / 86400⌋

def average (values : List ℚ) : ℚ := if values = [] then 0 else values.sum / values.length

/-- `COALESCE(sum(change_amount), 0)` over the rebalances of the period. -/
def rebalanceFeesOf (now : ℚ) (days : Days) (balance : List BalanceRow) : ℚ :=
  ((balance.filter fun r => r.reason = "rebalance" ∧ inPeriod now days r.time = true).filterMap
    (·.changeAmount)).sum

structure DayRow where
  day : ℤ
  trades : ℕ
  netPnl : ℚ
  grossPnl : ℚ
  deriving DecidableEq, Repr

/-- `... GROUP BY day ORDER BY day`. -/
def dayRows (trades : List TradeRow) : List DayRow :=
  (Sql.groups dayBucket trades).map fun day =>
    let rows := Sql.group dayBucket trades day
    ⟨day, rows.length, (rows.map (·.netPnl)).sum, (rows.map (·.grossPnl)).sum⟩

structure DailyPoint where
  date : String
  trades : ℕ
  netPnl : ℚ
  grossPnl : ℚ
  cumulativeNetPnl : ℚ
  deriving DecidableEq, Repr

def dailyPoints (round : ℚ → ℕ → ℚ) : ℚ → List DayRow → List DailyPoint
  | _, [] => []
  | cumulative, r :: rest =>
    ⟨isoDate r.day, r.trades, round r.netPnl 2, round r.grossPnl 2,
      round (cumulative + r.netPnl) 2⟩ :: dailyPoints round (cumulative + r.netPnl) rest

structure Analytics where
  period : String
  days : ℕ
  totalTrades : ℕ
  winningTrades : ℕ
  winRate : ℚ
  totalGrossPnl : ℚ
  totalNetPnl : ℚ
  avgNetPnl : ℚ
  avgTradeDurationMs : ℤ
  bestTrade : ℚ
  worstTrade : ℚ
  daily : List DailyPoint
  deriving DecidableEq, Repr

/-- `analytics_pnl`, with the rounding it makes at the end. -/
def analyticsPnl (round : ℚ → ℕ → ℚ) (trades : List TradeRow) (balance : List BalanceRow)
    (now : ℚ) (days : Days) : Analytics :=
  let rows := trades.filter fun r => inPeriod now days r.time
  let winning := rows.countP fun r => 0 < r.netPnl
  { period := toString days.val ++ "d"
    days := days.val
    totalTrades := rows.length
    winningTrades := winning
    winRate := if rows.length = 0 then 0 else round ((winning : ℚ) / rows.length * 100) 1
    totalGrossPnl := round (rows.map (·.grossPnl)).sum 2
    totalNetPnl := round ((rows.map (·.netPnl)).sum + rebalanceFeesOf now days balance) 2
    avgNetPnl := round (average (rows.map (·.netPnl))) 2
    avgTradeDurationMs := pyInt (average ((rows.filterMap (·.durationMs)).map fun ms => (ms : ℚ)))
    bestTrade := round ((rows.map (·.netPnl)).max?.getD 0) 2
    worstTrade := round ((rows.map (·.netPnl)).min?.getD 0) 2
    daily := dailyPoints round 0 (dayRows rows) }

def unrounded (q : ℚ) (_ : ℕ) : ℚ := q

/-- The summary and the series tell of the same trades and the same result. -/
structure Agrees (a : Analytics) : Prop where
  last : ∀ d, a.daily.getLast? = some d → d.cumulativeNetPnl = a.totalNetPnl
  cumulated : ∀ i d, a.daily[i]? = some d →
    d.cumulativeNetPnl = ((a.daily.take (i + 1)).map (·.netPnl)).sum
  counted : (a.daily.map (·.trades)).sum = a.totalTrades

theorem dailyPoints_cumulated (c : ℚ) (rows : List DayRow) (i : ℕ) (d : DailyPoint)
    (h : (dailyPoints unrounded c rows)[i]? = some d) :
    d.cumulativeNetPnl =
      c + (((dailyPoints unrounded c rows).take (i + 1)).map (·.netPnl)).sum := by
  induction rows generalizing c i with
  | nil => simp [dailyPoints] at h
  | cons r rest ih =>
    rw [dailyPoints] at h ⊢
    cases i with
    | zero =>
      obtain rfl := Option.some.inj h
      simp [unrounded]
    | succ i =>
      have hrest := ih (c + r.netPnl) i (by simpa using h)
      rw [hrest, List.take_succ_cons, List.map_cons, List.sum_cons, ← add_assoc]
      rfl

theorem dailyPoints_netPnl (c : ℚ) (rows : List DayRow) :
    (dailyPoints unrounded c rows).map (·.netPnl) = rows.map (·.netPnl) := by
  induction rows generalizing c with
  | nil => rfl
  | cons r rest ih => rw [dailyPoints, List.map_cons, ih, List.map_cons, unrounded]

theorem dailyPoints_trades (round : ℚ → ℕ → ℚ) (c : ℚ) (rows : List DayRow) :
    (dailyPoints round c rows).map (·.trades) = rows.map (·.trades) := by
  induction rows generalizing c with
  | nil => rfl
  | cons r rest ih => rw [dailyPoints, List.map_cons, ih, List.map_cons]

theorem dailyPoints_eq_nil (round : ℚ → ℕ → ℚ) (c : ℚ) (rows : List DayRow) :
    dailyPoints round c rows = [] ↔ rows = [] := by
  cases rows <;> simp [dailyPoints]

theorem dailyPoints_last {rows : List DayRow} {d : DailyPoint}
    (h : (dailyPoints unrounded 0 rows).getLast? = some d) :
    d.cumulativeNetPnl = (rows.map (·.netPnl)).sum := by
  rw [List.getLast?_eq_getElem?] at h
  have hsum := dailyPoints_cumulated 0 rows _ d h
  rw [List.take_of_length_le (by omega), dailyPoints_netPnl, zero_add] at hsum
  exact hsum

theorem dayRows_netPnl (trades : List TradeRow) :
    ((dayRows trades).map (·.netPnl)).sum = (trades.map (·.netPnl)).sum := by
  rw [dayRows, List.map_map]
  exact Sql.sum_groups dayBucket trades (·.netPnl)

theorem dayRows_trades (trades : List TradeRow) :
    ((dayRows trades).map (·.trades)).sum = trades.length := by
  have hsum := Sql.sum_groups dayBucket trades fun _ => 1
  simp only [List.map_const', List.sum_replicate, smul_eq_mul, mul_one] at hsum
  rw [dayRows, List.map_map]
  exact hsum

theorem dayRows_eq_nil (trades : List TradeRow) : dayRows trades = [] ↔ trades = [] := by
  rw [dayRows, List.map_eq_nil_iff, Sql.groups_eq_nil]

/-- Summary and series agree if and only if the period has no trade or its rebalances cost
nothing. -/
theorem analyticsPnl_agrees (trades : List TradeRow) (balance : List BalanceRow) (now : ℚ)
    (days : Days) :
    Agrees (analyticsPnl unrounded trades balance now days) ↔
      (∀ r ∈ trades, inPeriod now days r.time = false) ∨ rebalanceFeesOf now days balance = 0 := by
  have hnone : (∀ r ∈ trades, inPeriod now days r.time = false) ↔
      (trades.filter fun r => inPeriod now days r.time) = [] := by
    simp [List.filter_eq_nil_iff]
  rw [hnone]
  unfold analyticsPnl
  dsimp only
  generalize (trades.filter fun r => inPeriod now days r.time) = rows
  have hlast : ∀ d, (dailyPoints unrounded 0 (dayRows rows)).getLast? = some d →
      d.cumulativeNetPnl = (rows.map (·.netPnl)).sum := fun d hd =>
    (dailyPoints_last hd).trans (dayRows_netPnl rows)
  constructor
  · intro h
    by_cases hrows : rows = []
    · exact .inl hrows
    · have hdaily : dailyPoints unrounded 0 (dayRows rows) ≠ [] := by
        rw [Ne, dailyPoints_eq_nil, dayRows_eq_nil]
        exact hrows
      have hd := List.getLast?_eq_some_getLast hdaily
      have heq := (hlast _ hd).symm.trans (h.last _ hd)
      exact .inr (left_eq_add.mp heq)
  · intro h
    refine ⟨fun d hd => ?_, fun i d hd => ?_, ?_⟩
    · rcases h with rfl | hfees
      · have hempty := (dailyPoints_eq_nil unrounded 0 _).mpr ((dayRows_eq_nil []).mpr rfl)
        rw [hempty] at hd
        cases hd
      · rw [hlast d hd, hfees]
        exact (add_zero _).symm
    · rw [dailyPoints_cumulated 0 _ i d hd, zero_add]
    · rw [dailyPoints_trades, dayRows_trades]

/-- The receiving side of a rebalance gets a unit less than the donor gives. -/
def rebalancePair : List BalanceRow :=
  [⟨1767225600, "bybit", "USDT", 900, none, some (-100), "rebalance"⟩,
    ⟨1767225600, "binance", "USDT", 199, none, some 99, "rebalance"⟩]

/-- One trade that made 1 and one rebalance that cost 1: the summary says 0, the series 1. -/
theorem analyticsPnl_rebalanced :
    ¬Agrees (analyticsPnl unrounded [batchTrade "a" 1767225600] rebalancePair 1767225601
      ⟨7, by decide⟩) := by
  intro h
  have hdaily : (analyticsPnl unrounded [batchTrade "a" 1767225600] rebalancePair 1767225601
      ⟨7, by decide⟩).daily ≠ [] := by
    have hrows : ([batchTrade "a" 1767225600].filter fun r =>
        inPeriod 1767225601 ⟨7, by decide⟩ r.time) ≠ [] := by decide +kernel
    rw [analyticsPnl, Ne, dailyPoints_eq_nil, dayRows_eq_nil]
    exact hrows
  have hd := List.getLast?_eq_some_getLast hdaily
  have hlast := h.last _ hd
  rw [dailyPoints_last hd, dayRows_netPnl] at hlast
  revert hlast
  decide +kernel

end CriptoParser
