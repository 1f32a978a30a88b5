import CriptoParser.ExecutorForecast
import CriptoParser.MoneyConservation
import CriptoParser.ScannerSpreads
import Mathlib.Tactic.NormNum

/-!
A route the scanner emits against its execution: the scanner subtracts the fees from the
spread, the executor charges each fee on the value of its own leg.
-/

set_option autoImplicit false

namespace CriptoParser

open Await

structure Book where
  ts : ℤ
  bids : List (ℚ × ℚ)
  asks : List (ℚ × ℚ)
  deriving DecidableEq, Repr

def Book.depth (b : Book) : Depth := ⟨b.ts, .levels b.bids, .levels b.asks⟩

theorem netPnl_pos (f : Fill) (opp : Opportunity) (h : 0 < f.amount) :
    0 < f.netPnl opp ↔
      (100 + opp.buyFeePct) * f.effectiveBuy < (100 - opp.sellFeePct) * f.effectiveSell := by
  have hscaled : f.netPnl opp = f.amount * (((100 - opp.sellFeePct) * f.effectiveSell -
      (100 + opp.buyFeePct) * f.effectiveBuy) / 100) := by
    unfold Fill.netPnl Fill.buyFeeAbs Fill.sellFeeAbs Fill.buyCost Fill.sellProceeds
    ring
  rw [hscaled, mul_pos_iff_of_pos_left h]
  constructor
  · intro hpos
    linarith
  · intro hlt
    linarith

section
variable [PyText]

/-- The sale of what the notional buys covers both costs and both fees. -/
def CoversFees (buy sell : Book) (notional buyFeePct sellFeePct : ℚ) : Prop :=
  match walkAsksForNotional buy.depth.asks notional with
  | .ok (some (amount, vwapBuy)) =>
    match walkBidsForAmount sell.depth.bids amount with
    | .ok (some vwapSell) => (100 + buyFeePct) * vwapBuy < (100 - sellFeePct) * vwapSell
    | _ => False
  | _ => False

/-- The call that starts in `w` reads these two books, and they are fresh then. -/
structure ReadsBooks (w : World) (opp : Opportunity) (buy sell : Book) : Prop where
  buyRaw : parseDepth ((w.outside (w.tick + 4)).depth (depthKey opp.buyExchange opp.symbol)) =
    .ok (some buy.depth)
  sellRaw : parseDepth ((w.outside (w.tick + 4)).depth (depthKey opp.sellExchange opp.symbol)) =
    .ok (some sell.depth)
  buyFresh : isFresh (some buy.depth) (pyInt ((w.outside (w.tick + 3)).time * 1000))
    depthMaxAgeMs = true
  sellFresh : isFresh (some sell.depth) (pyInt ((w.outside (w.tick + 3)).time * 1000))
    depthMaxAgeMs = true

theorem routePrices_walks {notional topAsk topBid buyPrice sellPrice : ℚ} {buy sell : Depth}
    (h : routePrices notional (some buy) (some sell) topAsk topBid =
      .ok (some (buyPrice, sellPrice))) :
    ∃ amount, walkAsksForNotional buy.asks notional = .ok (some (amount, buyPrice)) ∧
      walkBidsForAmount sell.bids amount = .ok (some sellPrice) := by
  unfold routePrices at h
  cases hw : walkAsksForNotional buy.asks notional with
  | error x => simp only [hw, bind, Except.bind] at h; cases h
  | ok walked =>
    cases walked with
    | none => simp only [hw, bind, Except.bind] at h; cases h
    | some av =>
      obtain ⟨amount, vwapBuy⟩ := av
      cases hv : walkBidsForAmount sell.bids amount with
      | error x => simp only [hw, hv, bind, Except.bind] at h; cases h
      | ok vwap =>
        cases vwap with
        | none => simp only [hw, hv, bind, Except.bind] at h; cases h
        | some vwapSell =>
          simp only [hw, hv, bind, Except.bind] at h
          cases h
          exact ⟨amount, rfl, hv⟩

theorem topPrice_levels {levels : List (ℚ × ℚ)} (h : levels ≠ []) :
    ∃ price, topPrice (.levels levels) = .ok price := by
  cases levels with
  | nil => exact absurd rfl h
  | cons level rest => exact ⟨level.1, rfl⟩

theorem walkAsks_nonempty {levels : List (ℚ × ℚ)} {n : ℚ} {found : ℚ × ℚ}
    (h : walkAsksForNotional (.levels levels) n = .ok (some found)) : levels ≠ [] := by
  intro hnil
  subst hnil
  obtain ⟨amount, vwap⟩ := found
  obtain ⟨hn, -, -⟩ := walkAsksForNotional_some h
  simp [walkAsksForNotional, JsonOf.levels, JsonOf.items, walkAsksLoop, not_le.mpr hn, bind,
    Except.bind] at h

theorem walkBids_nonempty {levels : List (ℚ × ℚ)} {amount vwap : ℚ}
    (h : walkBidsForAmount (.levels levels) amount = .ok (some vwap)) : levels ≠ [] := by
  intro hnil
  subst hnil
  obtain ⟨hn, -⟩ := walkBidsForAmount_some h
  have hleft : depthEps * amount < amount := by
    unfold depthEps
    linarith
  simp [walkBidsForAmount, JsonOf.levels, JsonOf.items, walkBidsLoop, not_le.mpr hn, hleft, bind,
    Except.bind] at h

theorem fillFromDepth_books {rawBuy rawSell : Option String} {nowMs : ℤ}
    {notional amount vwapBuy vwapSell : ℚ} {buy sell : Book}
    (hrawBuy : parseDepth rawBuy = .ok (some buy.depth))
    (hrawSell : parseDepth rawSell = .ok (some sell.depth))
    (hfreshBuy : isFresh (some buy.depth) nowMs depthMaxAgeMs = true)
    (hfreshSell : isFresh (some sell.depth) nowMs depthMaxAgeMs = true)
    (hasks : walkAsksForNotional buy.depth.asks notional = .ok (some (amount, vwapBuy)))
    (hbids : walkBidsForAmount sell.depth.bids amount = .ok (some vwapSell)) :
    ∃ f, fillFromDepth rawBuy rawSell nowMs notional = .ok (some f) ∧
      f.amount = amount ∧ f.effectiveBuy = vwapBuy ∧ f.effectiveSell = vwapSell := by
  obtain ⟨topAsk, htopAsk⟩ := topPrice_levels (walkAsks_nonempty hasks)
  obtain ⟨topBid, htopBid⟩ := topPrice_levels (walkBids_nonempty hbids)
  refine ⟨⟨amount, vwapBuy, vwapSell, topAsk, topBid⟩, ?_, rfl, rfl, rfl⟩
  have htopAsk' : topPrice buy.depth.asks = .ok topAsk := htopAsk
  have htopBid' : topPrice sell.depth.bids = .ok topBid := htopBid
  simp only [fillFromDepth, hrawBuy, hrawSell, bind, Except.bind, hfreshBuy, hfreshSell,
    Bool.not_true, Bool.or_self, Bool.false_eq_true, if_false, hasks, hbids, htopAsk', htopBid']

theorem executeOpportunity_found {engine : Engine} {opp : Opportunity} {w : World}
    (hw : w.Calm) (hoff : w.killSwitch = false)
    (hfund : engine.rebalanceThreshold < w.balanceOf opp.buyExchange) {f : Fill}
    (hfill : w.fillLater engine opp (w.balanceOf opp.buyExchange) 3 = .ok (some f)) :
    ∃ res, ((executeOpportunity engine opp).run World.serve w).1 = .ok (some res) ∧
      res.trade.netPnl = f.netPnl opp := by
  have hfollows := Prog.follows_trace World.serve (executeOpportunity engine opp) w
  have hends := Prog.ends_trace World.serve (executeOpportunity engine opp) w
  have hdue : w.transferDue opp.buyExchange engine.rebalanceThreshold = none := by
    rw [World.transferDue, if_pos hfund]
  have hfill' : w.fillDue engine opp = .ok (some f) := by
    rw [World.fillDue, hdue]
    simp only [if_neg (not_le.mpr hfund)]
    exact hfill
  have hout := executeRun_outcome
    (executeOpportunity_goes ⟨hends, clean_of_calm hw hfollows⟩) hfollows
  generalize ((executeOpportunity engine opp).run World.serve w).1 = r at hout
  cases hout with
  | stopped hon _ => simp [hon] at hoff
  | called m r _ _ _ hr =>
    rw [hfill'] at hr
    cases hr with
    | traded f now uuid durationMs => exact ⟨_, rfl, rfl⟩

/-- A route emitted for the notional `n`, executed on the same fresh books with the planned
notional `n`: a trade is returned, and it earns exactly if the sale covers both fees. -/
theorem emitted_profit_iff {symbol : String} {prices : List (String × Quote)}
    {minSpread n : ℚ} {depth : List (String × Depth)} {now : ℤ} {opps : List Opportunity}
    {opp : Opportunity} {buy sell : Book} {engine : Engine} {w : World}
    (hemit : calculateSpreads symbol prices minSpread n depth now = .ok opps)
    (hopp : opp ∈ opps)
    (hbuy : depth.lookup opp.buyExchange = some buy.depth)
    (hsell : depth.lookup opp.sellExchange = some sell.depth)
    (hw : w.Calm) (hoff : w.killSwitch = false)
    (hfund : engine.rebalanceThreshold < w.balanceOf opp.buyExchange)
    (hplan : w.balanceOf opp.buyExchange * engine.maxPositionPct / 100 = n)
    (hmin : 10 ≤ n) (hbooks : ReadsBooks w opp buy sell) :
    ∃ res, ((executeOpportunity engine opp).run World.serve w).1 = .ok (some res) ∧
      (0 < res.trade.netPnl ↔ CoversFees buy sell n opp.buyFeePct opp.sellFeePct) := by
  obtain ⟨-, topAsk, topBid, buyPrice, sellPrice, -, hprices⟩ := calculateSpreads_mem hemit hopp
  rw [hbuy, hsell] at hprices
  obtain ⟨amount, hasks, hbids⟩ := routePrices_walks hprices
  obtain ⟨f, hfill, hamount, hb, hs⟩ := fillFromDepth_books hbooks.buyRaw hbooks.sellRaw
    hbooks.buyFresh hbooks.sellFresh hasks hbids
  have hlater : w.fillLater engine opp (w.balanceOf opp.buyExchange) 3 = .ok (some f) := by
    have hnot : ¬ n < minNotionalUsdt := not_lt.mpr hmin
    rw [World.fillLater, hplan, if_neg hnot]
    exact hfill
  obtain ⟨res, hres, hpnl⟩ := executeOpportunity_found hw hoff hfund hlater
  have hpos : 0 < f.amount := by
    rw [hamount]
    exact (walkAsksForNotional_some hasks).2.1
  refine ⟨res, hres, ?_⟩
  rw [hpnl, netPnl_pos f opp hpos, hb, hs]
  simp only [CoversFees, hasks, hbids]

end

/-- A book to buy from at 100, and one to sell into at `bid`. -/
def lowBook : Book := ⟨0, [(99, 1000)], [(100, 1000)]⟩

def highBook (bid : ℚ) : Book := ⟨0, [(bid, 1000)], [(102, 1000)]⟩

def bookText (bid : String) (ask : String) : String :=
  "\x7b\"ts\": 0, \"bids\": [[" ++ bid ++ ", 1000]], \"asks\": [[" ++ ask ++ ", 1000]]\x7d"

def Book.document (b : Book) : Json :=
  .dict [("ts", .num b.ts), ("bids", .levels b.bids), ("asks", .levels b.asks)]

@[reducible] def bookReader (bid : String) (value : ℚ) : PyText :=
  .ofTables [] [(bookText "99" "100", lowBook.document),
    (bookText bid "102", (highBook value).document)]

/-- The two books under the keys of kucoin and binance, and 10000 to spend. -/
def routeWorld (bid : String) : World :=
  sampleWorld (fun _ => { (default : Outside) with
    depth := fun key =>
      if key = depthKey "kucoin" "BTC/USDT" then some (bookText "99" "100")
      else some (bookText bid "102") }) [("kucoin", 10000)] []

/-- The route from kucoin to binance: their fees are a tenth of a percent each, and
binance withdraws for free. -/
def routeOpp (sellPrice gross net : ℚ) : Opportunity where
  id := "opp_0_kucoin_binance_btcusdt"
  symbol := "BTC/USDT"
  buyExchange := "kucoin"
  sellExchange := "binance"
  buyPrice := 100
  sellPrice := sellPrice
  grossSpreadPct := gross
  buyFeePct := 1 / 10
  sellFeePct := 1 / 10
  withdrawalFeeUsd := 0
  netSpreadPct := net
  detectedAt := 0
  ttlSeconds := 5

def routeSpreads (bid : String) (value : ℚ) : Except PyExc (List Opportunity) :=
  @calculateSpreads (bookReader bid value) "BTC/USDT"
    [("kucoin", ⟨some 99, some 100⟩), ("binance", ⟨some value, some 102⟩)] 0 1000
    [("kucoin", lowBook.depth), ("binance", (highBook value).depth)] 0

theorem routeWorld_reads {bid : String} {value : ℚ} {opp : Opportunity}
    (hopp : opp = routeOpp value opp.grossSpreadPct opp.netSpreadPct)
    (hlow : @parseDepth (bookReader bid value) (some (bookText "99" "100")) =
      .ok (some lowBook.depth))
    (hhigh : @parseDepth (bookReader bid value) (some (bookText bid "102")) =
      .ok (some (highBook value).depth)) :
    @ReadsBooks (bookReader bid value) (routeWorld bid) opp lowBook (highBook value) := by
  have hfresh : decide (pyInt (0 * 1000) - 0 ≤ depthMaxAgeMs) = true := by decide +kernel
  rw [hopp]
  exact @ReadsBooks.mk (bookReader bid value) _ _ _ _ hlow hhigh hfresh hfresh

/-- A spread of one percent is a profit. -/
theorem emitted_profit_iff_one : ∃ res,
    ((@executeOpportunity (bookReader "101" 101) ⟨10, 100⟩ (routeOpp 101 1 (8 / 10))).run
      World.serve (routeWorld "101")).1 = .ok (some res) ∧
    (0 < res.trade.netPnl ↔
      @CoversFees (bookReader "101" 101) lowBook (highBook 101) 1000 (1 / 10) (1 / 10)) :=
  @emitted_profit_iff (bookReader "101" 101) _ _ _ _ _ _ [routeOpp 101 1 (8 / 10)] _ lowBook
    (highBook 101) ⟨10, 100⟩ (routeWorld "101") (by decide +kernel : routeSpreads "101" 101 = _)
    List.mem_cons_self rfl rfl (fun _ => rfl) rfl (by decide +kernel) (by decide +kernel)
    (by decide +kernel) (routeWorld_reads rfl rfl rfl)

/-- A gross spread of 0.2001 percent is emitted with a net of 0.0001, and executed at a loss. -/
theorem positive_net_loses :
    routeSpreads "100.2001" (1002001 / 10000) =
      .ok [routeOpp (1002001 / 10000) (2001 / 10000) (1 / 10000)] ∧
    0 < (routeOpp (1002001 / 10000) (2001 / 10000) (1 / 10000)).netSpreadPct ∧
    returnedPnl ((@executeOpportunity (bookReader "100.2001" (1002001 / 10000)) ⟨10, 100⟩
      (routeOpp (1002001 / 10000) (2001 / 10000) (1 / 10000))).run World.serve
      (routeWorld "100.2001")).1 < 0 := by
  decide +kernel

end CriptoParser
