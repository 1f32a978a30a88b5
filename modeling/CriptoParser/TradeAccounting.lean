import CriptoParser.BestExecution
import CriptoParser.ExecutorSolvency

set_option autoImplicit false

namespace CriptoParser

open Await

section
variable {side : List (ℚ × ℚ)} {ts : List ℚ} {p : ℚ}

theorem fills_sum_le (h : Fills side ts) : ts.sum ≤ sideQuantity side := by
  induction h with
  | nil => exact le_refl _
  | cons ht _ ih =>
    rw [List.sum_cons, sideQuantity, List.map_cons, List.sum_cons]
    exact add_le_add ht.2 ih

theorem fillCost_ge (h : Fills side ts) (hp : ∀ pq ∈ side, p ≤ pq.1) :
    p * ts.sum ≤ fillCost side ts := by
  induction h with
  | nil => simp [fillCost]
  | cons ht _ ih =>
    rw [List.sum_cons, fillCost_cons, mul_add]
    exact add_le_add (mul_le_mul_of_nonneg_right (hp _ List.mem_cons_self) ht.1)
      (ih fun x hx => hp x (List.mem_cons_of_mem _ hx))

theorem fillCost_le (h : Fills side ts) (hp : ∀ pq ∈ side, pq.1 ≤ p) :
    fillCost side ts ≤ p * ts.sum := by
  induction h with
  | nil => simp [fillCost]
  | cons ht _ ih =>
    rw [List.sum_cons, fillCost_cons, mul_add]
    exact add_le_add (mul_le_mul_of_nonneg_right (hp _ List.mem_cons_self) ht.1)
      (ih fun x hx => hp x (List.mem_cons_of_mem _ hx))

theorem positive_quantity_le (h : ∀ pq ∈ side, 0 ≤ pq.2) :
    sideQuantity (positiveLevels side) ≤ sideQuantity side := by
  induction side with
  | nil => exact le_refl _
  | cons pq rest ih =>
    have hrest := ih fun x hx => h x (List.mem_cons_of_mem _ hx)
    have hq := h pq List.mem_cons_self
    rw [positiveLevels_cons]
    split
    · rw [sideQuantity, sideQuantity, List.map_cons, List.sum_cons]
      exact le_add_of_nonneg_of_le hq hrest
    · rw [sideQuantity, sideQuantity, List.map_cons, List.map_cons, List.sum_cons, List.sum_cons]
      exact add_le_add (le_refl _) hrest

theorem head_best {r : ℚ → ℚ → Prop} {side : List (ℚ × ℚ)} {p q : ℚ} {rest : List (ℚ × ℚ)}
    (hs : side.Pairwise fun x y => r x.1 y.1) (hr : r p p) (h : side = (p, q) :: rest) :
    ∀ pq ∈ positiveLevels side, r p pq.1 := by
  subst h
  intro pq hpq
  rcases List.mem_cons.mp (mem_positiveLevels.mp hpq).1 with rfl | hmem
  · exact hr
  · exact (List.pairwise_cons.mp hs).1 pq hmem

section
variable [PyText]

theorem topPrice_head (h : topPrice (.levels side) = .ok p) : ∃ q rest, side = (p, q) :: rest := by
  cases side with
  | nil => cases h
  | cons pq rest =>
    cases h
    exact ⟨pq.2, rest, rfl⟩

theorem walkAsks_price_ge {n amount vwap : ℚ}
    (h : walkAsksForNotional (.levels side) n = .ok (some (amount, vwap)))
    (hp : ∀ pq ∈ positiveLevels side, p ≤ pq.1) : p ≤ vwap := by
  obtain ⟨hn, hamount, rfl⟩ := walkAsksForNotional_some h
  obtain ⟨ts, hts, hsum, -, hcost⟩ := walkAsks_fills hn h
  rw [le_div_iff₀ hamount, ← hsum]
  exact (fillCost_ge hts hp).trans hcost

theorem walkBids_price_le {amount vwap : ℚ} (ha : 0 < amount)
    (h : walkBidsForAmount (.levels side) amount = .ok (some vwap))
    (hp : ∀ pq ∈ positiveLevels side, pq.1 ≤ p) : vwap ≤ p := by
  obtain ⟨ts, hts, hcover, hle, hcost⟩ := walkBids_fills ha h
  have hpos : 0 < ts.sum := (mul_pos ha (by decide +kernel)).trans_le hcover
  have hne : positiveLevels side ≠ [] := by
    intro hnil
    rw [hnil] at hts
    cases hts
    exact lt_irrefl 0 hpos
  obtain ⟨best, hbest⟩ := List.exists_mem_of_ne_nil _ hne
  have hprice : 0 ≤ p := (mem_positiveLevels.mp hbest).2.1.le.trans (hp best hbest)
  have hsold : vwap * amount ≤ p * amount := by
    rw [← hcost]
    exact (fillCost_le hts hp).trans (mul_le_mul_of_nonneg_left hle hprice)
  exact le_of_mul_le_mul_right hsold ha

end

end

theorem Fill.netPnl_gross (f : Fill) (opp : Opportunity) :
    f.netPnl opp = f.grossPnl - f.slippageCost - f.buyFeeAbs opp - f.sellFeeAbs opp := by
  unfold netPnl grossPnl slippageCost sellProceeds buyCost
  ring

structure FillBounds (buy sell : Book) (f : Fill) : Prop where
  topAsk : f.topAsk ≤ f.effectiveBuy
  topBid : f.effectiveSell ≤ f.topBid
  bestAsk : ∀ p, BestAsk buy p → p ≤ f.effectiveBuy
  bestBid : ∀ p, BestBid sell p → f.effectiveSell ≤ p
  bought : f.amount ≤ sideQuantity (positiveLevels buy.asks)
  sold : (1 - depthEps) * f.amount ≤ sideQuantity (positiveLevels sell.bids)

theorem FillBounds.slippage {buy sell : Book} {f : Fill} (h : FillBounds buy sell f) (ha : 0 < f.amount) :
    0 ≤ f.slippageCost := by
  have hask := h.topAsk
  have hbid := h.topBid
  unfold Fill.slippageCost
  exact mul_nonneg ha.le (by linarith)

/-- The depths a call reads: with its fifth call, or ten calls later after a transfer. -/
def World.depthsDue (w : World) (engine : Engine) (opp : Opportunity) : String → Option String :=
  match w.transferDue opp.buyExchange engine.rebalanceThreshold with
  | some _ => (w.outside (w.tick + 14)).depth
  | none => (w.outside (w.tick + 4)).depth

def rebalanceChange (rb : Option RebalanceResult) (exchange : String) : ℚ :=
  match rb with
  | none => 0
  | some rb =>
    (if exchange = rb.donor then -rb.grossAmount else 0) +
      (if exchange = rb.receiver then rb.netAmount else 0)

theorem rebalanceChange_due (w : World) (receiver : String) (threshold : ℚ) (exchange : String) :
    rebalanceChange ((w.transferDue receiver threshold).map (w.transferRecord receiver)) exchange =
      transferChange (w.transferDue receiver threshold) receiver exchange := by
  cases h : w.transferDue receiver threshold with
  | none => rfl
  | some t =>
    obtain ⟨-, hgross, -, -⟩ := transferDue_spec h
    simp [rebalanceChange, World.transferRecord, transferResult, transferChange, hgross]

section
variable [PyText]

/-- What the call that starts in `w` reads are these two books. -/
structure BooksDue (w : World) (engine : Engine) (opp : Opportunity) (buy sell : Book) :
    Prop where
  buyRaw : parseDepth (w.depthsDue engine opp (depthKey opp.buyExchange opp.symbol)) =
    .ok (some buy.depth)
  sellRaw : parseDepth (w.depthsDue engine opp (depthKey opp.sellExchange opp.symbol)) =
    .ok (some sell.depth)

/-- The books are sorted by price where the call trades. -/
structure ReadsSorted (w : World) (engine : Engine) (opp : Opportunity) (buy sell : Book) : Prop
    extends BooksDue w engine opp buy sell where
  asks : buy.asks.Pairwise fun x y => x.1 ≤ y.1
  bids : sell.bids.Pairwise fun x y => y.1 ≤ x.1

/-- Where a fill comes from: both walks, and the tops of both sides. -/
structure FillOf (buy sell : Book) (notional : ℚ) (f : Fill) : Prop where
  asks : walkAsksForNotional (.levels buy.asks) notional = .ok (some (f.amount, f.effectiveBuy))
  bids : walkBidsForAmount (.levels sell.bids) f.amount = .ok (some f.effectiveSell)
  topAsk : ∃ q rest, buy.asks = (f.topAsk, q) :: rest
  topBid : ∃ q rest, sell.bids = (f.topBid, q) :: rest

variable {engine : Engine} {opp : Opportunity} {w w' : World} {buy sell : Book} {f : Fill}

theorem fillDue_depths (h : w.fillDue engine opp = .ok (some f)) :
    ∃ nowMs, fillFromDepth (w.depthsDue engine opp (depthKey opp.buyExchange opp.symbol))
      (w.depthsDue engine opp (depthKey opp.sellExchange opp.symbol)) nowMs
      (w.funds engine opp * engine.maxPositionPct / 100) = .ok (some f) := by
  unfold World.fillDue at h
  unfold World.depthsDue World.funds
  cases ht : w.transferDue opp.buyExchange engine.rebalanceThreshold with
  | none =>
    simp only [ht] at h
    split at h
    · cases h
    · simp only [transferChange, add_zero]
      unfold World.fillLater at h
      split at h
      · cases h
      · exact ⟨_, h⟩
  | some t =>
    simp only [ht] at h
    have hne := (transferDue_spec ht).1
    simp only [transferChange, if_neg hne.symm, if_pos, zero_add]
    unfold World.fillLater at h
    split at h
    · cases h
    · exact ⟨_, h⟩

theorem fillDue_books (h : w.fillDue engine opp = .ok (some f))
    (hbooks : BooksDue w engine opp buy sell) :
    FillOf buy sell (w.funds engine opp * engine.maxPositionPct / 100) f := by
  obtain ⟨nowMs, hfill⟩ := fillDue_depths h
  obtain ⟨db, ds, hdb, hds, hasks, hbids, hask, hbid⟩ := fillFromDepth_some hfill
  cases hbooks.buyRaw.symm.trans hdb
  cases hbooks.sellRaw.symm.trans hds
  exact ⟨hasks, hbids, topPrice_head hask, topPrice_head hbid⟩

theorem FillOf.bounds {n : ℚ} (h : FillOf buy sell n f)
    (hasks : buy.asks.Pairwise fun x y => x.1 ≤ y.1)
    (hbids : sell.bids.Pairwise fun x y => y.1 ≤ x.1) : FillBounds buy sell f := by
  obtain ⟨hn, hamount, -⟩ := walkAsksForNotional_some h.asks
  obtain ⟨qa, ra, hask⟩ := h.topAsk
  obtain ⟨qb, rb, hbid⟩ := h.topBid
  obtain ⟨ts, hts, hsum, -, -⟩ := walkAsks_fills hn h.asks
  obtain ⟨us, hus, hcover, -, -⟩ := walkBids_fills hamount h.bids
  refine ⟨?_, ?_, ?_, ?_, ?_, ?_⟩
  · exact walkAsks_price_ge h.asks (head_best hasks (le_refl _) hask)
  · exact walkBids_price_le hamount h.bids (head_best (r := fun x y => y ≤ x) hbids (le_refl _) hbid)
  · intro p hp
    exact walkAsks_price_ge h.asks fun pq hpq => hp.2 ⟨pq, hpq, rfl⟩
  · intro p hp
    exact walkBids_price_le hamount h.bids fun pq hpq => hp.2 ⟨pq, hpq, rfl⟩
  · rw [← hsum]
    exact fills_sum_le hts
  · rw [mul_comm]
    exact hcover.trans (fills_sum_le hus)

theorem returned_outcome {res : Option ExecutionResult}
    (h : ((executeOpportunity engine opp).run World.serve w).1 = .ok res) :
    Outcome engine opp w ((executeOpportunity engine opp).run World.serve w).2 (.ok res) := by
  have hgoes := (executeOpportunity_straight engine opp).goes_trace World.serve h
  exact executeRun_outcome (executeOpportunity_goes hgoes)
    (Prog.follows_trace World.serve (executeOpportunity engine opp) w)

/-- The accounts of a trade filled from the books `buy` and `sell` between the worlds `w`
and `w'`. -/
structure TradeAccounts (engine : Engine) (opp : Opportunity) (buy sell : Book) (w w' : World)
    (res : ExecutionResult) : Prop where
  position : res.trade.amount * res.trade.buyPrice =
    (w.balanceOf opp.buyExchange + rebalanceChange res.rebalance opp.buyExchange) *
      engine.maxPositionPct / 100
  net : res.trade.netPnl = res.trade.grossPnl - res.trade.slippageCost - res.trade.buyFee -
    res.trade.sellFee
  changes : ∃ newBuy buyChange newSell sellChange,
    res.balanceUpdates = [(opp.buyExchange, newBuy, buyChange),
      (opp.sellExchange, newSell, sellChange)] ∧
    res.trade.netPnl = buyChange + sellChange ∧
    ∀ ex, w'.balanceOf ex = w.balanceOf ex + rebalanceChange res.rebalance ex +
      ((if ex = opp.buyExchange then buyChange else 0) +
        (if ex = opp.sellExchange then sellChange else 0))
  slippage : 0 ≤ res.trade.slippageCost
  topAsk : ∃ p q rest, buy.asks = (p, q) :: rest ∧ p ≤ res.trade.buyPrice
  topBid : ∃ p q rest, sell.bids = (p, q) :: rest ∧ res.trade.sellPrice ≤ p
  bestAsk : ∀ p, BestAsk buy p → p ≤ res.trade.buyPrice
  bestBid : ∀ p, BestBid sell p → res.trade.sellPrice ≤ p
  bought : res.trade.amount ≤ sideQuantity (positiveLevels buy.asks)
  sold : (1 - depthEps) * res.trade.amount ≤ sideQuantity (positiveLevels sell.bids)
  boughtSide : (∀ pq ∈ buy.asks, 0 ≤ pq.2) → res.trade.amount ≤ sideQuantity buy.asks
  soldSide : (∀ pq ∈ sell.bids, 0 ≤ pq.2) →
    (1 - depthEps) * res.trade.amount ≤ sideQuantity sell.bids

/-- The figures of every trade that is returned agree with the books, the settings and the
balances. -/
theorem trade_accounted (engine : Engine) (opp : Opportunity) (w : World) (buy sell : Book)
    (res : ExecutionResult) (hread : ReadsSorted w engine opp buy sell)
    (h : ((executeOpportunity engine opp).run World.serve w).1 = .ok (some res)) :
    TradeAccounts engine opp buy sell w ((executeOpportunity engine opp).run World.serve w).2
      res := by
  generalize hw' : ((executeOpportunity engine opp).run World.serve w).2 = w'
  have hout := returned_outcome h
  rw [hw'] at hout
  cases hout with
  | called m r hoff hm hafter hr =>
    generalize hfill : w.fillDue engine opp = fill at hr hafter
    cases hr with
    | traded f now uuid durationMs =>
      have hof := fillDue_books hfill hread.toBooksDue
      have hbounds := hof.bounds hread.asks hread.bids
      obtain ⟨hspend, -⟩ := fillDue_spends hfill
      obtain ⟨qa, ra, hask⟩ := hof.topAsk
      obtain ⟨qb, rb, hbid⟩ := hof.topBid
      refine ⟨?_, f.netPnl_gross opp, ⟨_, _, _, _, rfl, f.netPnl_eq opp, fun ex => ?_⟩,
        hbounds.slippage hspend.amount, ⟨_, _, _, hask, hbounds.topAsk⟩,
        ⟨_, _, _, hbid, hbounds.topBid⟩, hbounds.bestAsk, hbounds.bestBid, hbounds.bought,
        hbounds.sold, fun hq => hbounds.bought.trans (positive_quantity_le hq),
        fun hq => hbounds.sold.trans (positive_quantity_le hq)⟩
      · have hfunds := hspend.cost
        unfold World.funds at hfunds
        rw [← rebalanceChange_due] at hfunds
        exact hfunds
      · rw [hafter ex, hm ex, ← rebalanceChange_due]
        rfl

end

theorem exists_returned {r : Except PyExc (Option ExecutionResult)}
    (h : r.toOption.join.isSome = true) : ∃ res, r = .ok (some res) := by
  cases r with
  | error x => cases h
  | ok o =>
    obtain ⟨res, hres⟩ := Option.isSome_iff_exists.mp h
    exact ⟨res, congrArg Except.ok hres⟩

/-- bybit is too poor to buy: half of binance is moved to it, and a tenth of the sum is
spent over three levels. -/
theorem trade_accounted_moved : ∃ res,
    ((@executeOpportunity threeLevelText ⟨10, 100⟩ (sampleOpportunity "bybit" "binance" (1 / 10)
      (1 / 10))).run World.serve (sampleWorld threeLevelOutside [("binance", 30000)] [])).1 =
      .ok (some res) ∧
    TradeAccounts ⟨10, 100⟩ (sampleOpportunity "bybit" "binance" (1 / 10) (1 / 10))
      ⟨0, threeLevelBids, threeLevelAsks⟩ ⟨0, threeLevelBids, threeLevelAsks⟩
      (sampleWorld threeLevelOutside [("binance", 30000)] [])
      ((@executeOpportunity threeLevelText ⟨10, 100⟩ (sampleOpportunity "bybit" "binance" (1 / 10)
        (1 / 10))).run World.serve (sampleWorld threeLevelOutside [("binance", 30000)] [])).2 res := by
  obtain ⟨res, hres⟩ := exists_returned (r := ((@executeOpportunity threeLevelText ⟨10, 100⟩
    (sampleOpportunity "bybit" "binance" (1 / 10) (1 / 10))).run World.serve
    (sampleWorld threeLevelOutside [("binance", 30000)] [])).1) (by decide +kernel)
  refine ⟨res, hres, @trade_accounted threeLevelText _ _ _ _ _ _ ?_ hres⟩
  exact @ReadsSorted.mk threeLevelText _ _ _ _ _ (@BooksDue.mk threeLevelText _ _ _ _ _ rfl rfl)
    (by decide +kernel) (by decide +kernel)

end CriptoParser
