import CriptoParser.TradeAccounting
import Mathlib.Order.Monotone.Basic
import Mathlib.Tactic.Linarith

/-!
`calculate_pnl` and the figures that `execute_opportunity` computes inline. The one worsens both
top prices by a percentage, the other walks the books; where the walks give the worsened prices,
they are the same accounting.
-/

set_option autoImplicit false

namespace CriptoParser

open Await

structure PnLResult where
  amount : ℚ
  effectiveBuy : ℚ
  effectiveSell : ℚ
  buyFee : ℚ
  sellFee : ℚ
  withdrawalFee : ℚ
  slippageCost : ℚ
  grossPnl : ℚ
  netPnl : ℚ
  deriving DecidableEq, Repr

def calculatePnl (buyPrice sellPrice amount buyFeePct sellFeePct withdrawalFee slippagePct : ℚ) :
    PnLResult :=
  let effectiveBuy := buyPrice * (1 + slippagePct / 100)
  let effectiveSell := sellPrice * (1 - slippagePct / 100)
  let buyCost := amount * effectiveBuy
  let sellProceeds := amount * effectiveSell
  let buyFee := buyCost * buyFeePct / 100
  let sellFee := sellProceeds * sellFeePct / 100
  { amount := amount
    effectiveBuy := effectiveBuy
    effectiveSell := effectiveSell
    buyFee := buyFee
    sellFee := sellFee
    withdrawalFee := withdrawalFee
    slippageCost := amount * (buyPrice + sellPrice) * slippagePct / 100
    grossPnl := amount * (sellPrice - buyPrice)
    netPnl := sellProceeds - buyCost - buyFee - sellFee }

abbrev FeePct := { p : ℚ // 0 ≤ p ∧ p ≤ 100 }

abbrev SlippagePct := { s : ℚ // 0 ≤ s ∧ s < 100 }

/-- What a trade is made on, but for the slippage. -/
structure TradeTerms where
  topAsk : { p : ℚ // 0 < p }
  topBid : { p : ℚ // 0 < p }
  amount : { a : ℚ // 0 < a }
  buyFeePct : FeePct
  sellFeePct : FeePct
  withdrawalFee : ℚ

namespace TradeTerms

def pnl (t : TradeTerms) (s : SlippagePct) : PnLResult :=
  calculatePnl t.topAsk t.topBid t.amount t.buyFeePct t.sellFeePct t.withdrawalFee s

variable (t : TradeTerms)

theorem pnl_net (s : SlippagePct) :
    (t.pnl s).netPnl =
      (t.pnl s).grossPnl - (t.pnl s).slippageCost - (t.pnl s).buyFee - (t.pnl s).sellFee := by
  simp only [pnl, calculatePnl]
  ring

/-- What a percent of slippage costs: both legs get worse, the fee of the bought one grows and
that of the sold one shrinks. -/
def slippageRate : ℚ :=
  t.amount * (t.topAsk * (1 + t.buyFeePct / 100) + t.topBid * (1 - t.sellFeePct / 100)) / 100

theorem pnl_netPnl (s s' : SlippagePct) :
    (t.pnl s').netPnl = (t.pnl s).netPnl - t.slippageRate * (s' - s) := by
  simp only [pnl, calculatePnl, slippageRate]
  ring

theorem slippageRate_pos : 0 < t.slippageRate := by
  have hask : 0 < t.topAsk.val * (1 + t.buyFeePct / 100) := by
    have hfee := t.buyFeePct.property.1
    exact mul_pos t.topAsk.property (by linarith)
  have hbid : 0 ≤ t.topBid.val * (1 - t.sellFeePct / 100) := by
    have hfee := t.sellFeePct.property.2
    exact mul_nonneg t.topBid.property.le (by linarith)
  exact div_pos (mul_pos t.amount.property (add_pos_of_pos_of_nonneg hask hbid)) (by norm_num)

theorem pnl_strictAnti : StrictAnti fun s : SlippagePct => (t.pnl s).netPnl := by
  intro s s' hlt
  have hcost : 0 < t.slippageRate * (s'.val - s.val) :=
    mul_pos t.slippageRate_pos (sub_pos.mpr hlt)
  simp only [t.pnl_netPnl s s']
  linarith

end TradeTerms

/-- The figures of the trade record are those of the result. -/
structure Trade.HasPnl (t : Trade) (r : PnLResult) : Prop where
  buyFee : t.buyFee = r.buyFee
  sellFee : t.sellFee = r.sellFee
  slippageCost : t.slippageCost = r.slippageCost
  grossPnl : t.grossPnl = r.grossPnl
  netPnl : t.netPnl = r.netPnl

section
variable [PyText]

/-- The call that starts in `w` returns a trade on these terms, and its walks have worsened the
top prices by the slippage. -/
structure TradesOn (w : World) (engine : Engine) (opp : Opportunity) (t : TradeTerms)
    (s : SlippagePct) (res : ExecutionResult) : Prop where
  returned : ((executeOpportunity engine opp).run World.serve w).1 = .ok (some res)
  buyTop : ∃ d, parseDepth (w.depthsDue engine opp (depthKey opp.buyExchange opp.symbol)) =
    .ok (some d) ∧ topPrice d.asks = .ok t.topAsk.val
  sellTop : ∃ d, parseDepth (w.depthsDue engine opp (depthKey opp.sellExchange opp.symbol)) =
    .ok (some d) ∧ topPrice d.bids = .ok t.topBid.val
  amount : res.trade.amount = t.amount
  buyFeePct : opp.buyFeePct = t.buyFeePct
  sellFeePct : opp.sellFeePct = t.sellFeePct
  effectiveBuy : res.trade.buyPrice = t.topAsk * (1 + s / 100)
  effectiveSell : res.trade.sellPrice = t.topBid * (1 - s / 100)

theorem fillDue_tops {w : World} {engine : Engine} {opp : Opportunity} {f : Fill}
    (h : w.fillDue engine opp = .ok (some f)) {buy sell : Depth} {topAsk topBid : ℚ}
    (hbuy : parseDepth (w.depthsDue engine opp (depthKey opp.buyExchange opp.symbol)) =
      .ok (some buy)) (hask : topPrice buy.asks = .ok topAsk)
    (hsell : parseDepth (w.depthsDue engine opp (depthKey opp.sellExchange opp.symbol)) =
      .ok (some sell)) (hbid : topPrice sell.bids = .ok topBid) :
    f.topAsk = topAsk ∧ f.topBid = topBid := by
  obtain ⟨nowMs, hfill⟩ := fillDue_depths h
  obtain ⟨buy', sell', hbuy', hsell', -, -, hask', hbid'⟩ := fillFromDepth_some hfill
  cases hbuy.symm.trans hbuy'
  cases hsell.symm.trans hsell'
  exact ⟨Except.ok.inj (hask'.symm.trans hask), Except.ok.inj (hbid'.symm.trans hbid)⟩

theorem TradesOn.hasPnl {w : World} {engine : Engine} {opp : Opportunity} {t : TradeTerms}
    {s : SlippagePct} {res : ExecutionResult} (h : TradesOn w engine opp t s res) :
    res.trade.HasPnl (t.pnl s) := by
  obtain ⟨hreturned, ⟨buy, hbuy, hask⟩, ⟨sell, hsell, hbid⟩, hamount, hbuyFee, hsellFee, heffBuy,
    heffSell⟩ := h
  have hout := returned_outcome hreturned
  generalize ((executeOpportunity engine opp).run World.serve w).2 = w' at hout
  cases hout with
  | called m r hoff hm hafter hr =>
    generalize hfill : w.fillDue engine opp = fill at hr hafter
    cases hr with
    | traded f now uuid durationMs =>
      obtain ⟨htopAsk, htopBid⟩ := fillDue_tops hfill hbuy hask hsell hbid
      have hamount : f.amount = t.amount := hamount
      have heffBuy : f.effectiveBuy = t.topAsk * (1 + s / 100) := heffBuy
      have heffSell : f.effectiveSell = t.topBid * (1 - s / 100) := heffSell
      have hcost : f.buyCost = t.amount * (t.topAsk * (1 + s / 100)) := by
        rw [Fill.buyCost, hamount, heffBuy]
      have hproceeds : f.sellProceeds = t.amount * (t.topBid * (1 - s / 100)) := by
        rw [Fill.sellProceeds, hamount, heffSell]
      have hbuyAbs : f.buyFeeAbs opp = (t.pnl s).buyFee := by
        rw [Fill.buyFeeAbs, hcost, hbuyFee]
        rfl
      have hsellAbs : f.sellFeeAbs opp = (t.pnl s).sellFee := by
        rw [Fill.sellFeeAbs, hproceeds, hsellFee]
        rfl
      refine ⟨hbuyAbs, hsellAbs, ?_, ?_, ?_⟩
      · change f.slippageCost = _
        rw [Fill.slippageCost, hamount, heffBuy, heffSell, htopAsk, htopBid]
        simp only [TradeTerms.pnl, calculatePnl]
        ring
      · change f.grossPnl = _
        rw [Fill.grossPnl, hamount, htopAsk, htopBid]
        rfl
      · change f.netPnl opp = _
        rw [Fill.netPnl, hcost, hproceeds, hbuyAbs, hsellAbs]
        rfl

/-- The executor and `calculate_pnl` keep the same accounts; the gross profit knows neither
slippage nor fees, and the net profit falls as the slippage grows. -/
theorem executor_pnl (t : TradeTerms) :
    (∀ w engine opp s res, TradesOn w engine opp t s res → res.trade.HasPnl (t.pnl s)) ∧
      (∀ s, (t.pnl s).netPnl = (t.pnl s).grossPnl - (t.pnl s).slippageCost - (t.pnl s).buyFee -
        (t.pnl s).sellFee) ∧
      (∀ s s' (buyFeePct sellFeePct : FeePct) (withdrawalFee : ℚ),
        (TradeTerms.pnl ⟨t.topAsk, t.topBid, t.amount, buyFeePct, sellFeePct, withdrawalFee⟩
          s').grossPnl = (t.pnl s).grossPnl) ∧
      StrictAnti fun s : SlippagePct => (t.pnl s).netPnl :=
  ⟨fun _ _ _ _ _ h => h.hasPnl, t.pnl_net, fun _ _ _ _ _ => rfl, t.pnl_strictAnti⟩

end

/-- Half of the position is filled at the top of each side, half two percent away from it. -/
def twoLevelTerms : TradeTerms where
  topAsk := ⟨100, by norm_num⟩
  topBid := ⟨101, by norm_num⟩
  amount := ⟨10, by norm_num⟩
  buyFeePct := ⟨1 / 10, by norm_num, by norm_num⟩
  sellFeePct := ⟨1 / 10, by norm_num, by norm_num⟩
  withdrawalFee := 0

def onePercent : SlippagePct := ⟨1, by norm_num, by norm_num⟩

/-- A tenth of the balance buys at one percent above the top ask. -/
theorem executor_pnl_onePercent : ∃ res,
    @TradesOn threeLevelText (sampleWorld threeLevelOutside [("bybit", 10100)] []) ⟨10, 100⟩
      (sampleOpportunity "bybit" "binance" (1 / 10) (1 / 10)) twoLevelTerms onePercent res ∧
    res.trade.HasPnl (twoLevelTerms.pnl onePercent) := by
  obtain ⟨res, hres⟩ := exists_returned (r := ((@executeOpportunity threeLevelText ⟨10, 100⟩
    (sampleOpportunity "bybit" "binance" (1 / 10) (1 / 10))).run World.serve
    (sampleWorld threeLevelOutside [("bybit", 10100)] [])).1) (by decide +kernel)
  have htrade : ((@executeOpportunity threeLevelText ⟨10, 100⟩
      (sampleOpportunity "bybit" "binance" (1 / 10) (1 / 10))).run World.serve
      (sampleWorld threeLevelOutside [("bybit", 10100)] [])).1.toOption.join.map
        (fun res => (res.trade.amount, res.trade.buyPrice, res.trade.sellPrice)) =
      some (10, 101, 9999 / 100) := by decide +kernel
  rw [hres] at htrade
  simp only [Except.toOption, Option.join_some, Option.map_some, Option.some.injEq,
    Prod.mk.injEq] at htrade
  obtain ⟨hamount, hbuy, hsell⟩ := htrade
  have htrades : @TradesOn threeLevelText
      (sampleWorld threeLevelOutside [("bybit", 10100)] []) ⟨10, 100⟩
      (sampleOpportunity "bybit" "binance" (1 / 10) (1 / 10)) twoLevelTerms onePercent res :=
    @TradesOn.mk threeLevelText _ _ _ _ _ _ hres ⟨_, rfl, rfl⟩ ⟨_, rfl, rfl⟩ hamount rfl rfl
      (hbuy.trans (by norm_num [twoLevelTerms, onePercent]))
      (hsell.trans (by norm_num [twoLevelTerms, onePercent]))
  exact ⟨res, htrades, (@executor_pnl threeLevelText twoLevelTerms).1 _ _ _ _ _ htrades⟩

end CriptoParser
