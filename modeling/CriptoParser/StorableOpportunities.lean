import CriptoParser.ScannerLoop
import CriptoParser.SpreadSpec
import CriptoParser.SqlColumns

set_option autoImplicit false

namespace CriptoParser

open Sql

namespace OpportunityRow

def accepted (row : OpportunityRow) : Bool :=
  fitsVarchar 100 row.id && fitsVarchar 20 row.symbol &&
    fitsVarchar 20 row.buyExchange && fitsVarchar 20 row.sellExchange &&
    fitsDecimal 18 8 row.buyPrice && fitsDecimal 18 8 row.sellPrice &&
    fitsDecimal 8 4 row.grossSpreadPct &&
    fitsDecimal 6 4 row.buyFeePct && fitsDecimal 6 4 row.sellFeePct &&
    fitsDecimal 10 4 row.withdrawalFeeUsd &&
    fitsDecimal 8 4 row.netSpreadPct &&
    decide (row.buyExchange ≠ row.sellExchange) &&
    decide (decimalRound 4 row.netSpreadPct ≤ decimalRound 4 row.grossSpreadPct)

end OpportunityRow

/-- Postgres runs a `COPY` as one statement: a row that is refused fails all of them. -/
def copyAccepted (rows : List OpportunityRow) : Bool := rows.all OpportunityRow.accepted

theorem roundHalfEven_lt {q : ℚ} {k : ℤ} (hk : k % 2 = 0) :
    roundHalfEven q < k ↔ q < k - 1 / 2 := by
  constructor
  · intro h
    by_contra hge
    have hfloor : ((k : ℚ) - 1 / 2).floor = k - 1 := by
      refine le_antisymm (Int.lt_add_one_iff.mp (Rat.floor_lt_iff.mpr ?_)) (Rat.le_floor_iff.mpr ?_)
      · push_cast
        linarith
      · push_cast
        linarith
    have htie : roundHalfEven ((k : ℚ) - 1 / 2) = k := by
      have hfrac : (k : ℚ) - 1 / 2 - ((k - 1 : ℤ) : ℚ) = 1 / 2 := by
        push_cast
        ring
      unfold roundHalfEven
      rw [hfloor, hfrac, if_neg (lt_irrefl _), if_neg (lt_irrefl _), if_neg (by omega)]
      omega
    have hle := roundHalfEven_mono (not_lt.mp hge)
    omega
  · intro h
    have hlt : q.floor < k := Rat.floor_lt_iff.mpr (by linarith)
    have hhigh : q.floor = k - 1 → q - q.floor < 1 / 2 := by
      intro heq
      rw [heq]
      push_cast
      linarith
    unfold roundHalfEven
    split_ifs with h₁ h₂ h₃
    · exact hlt
    · have hne : q.floor ≠ k - 1 := fun heq => h₁ (hhigh heq)
      omega
    · exact hlt
    · have hne : q.floor ≠ k - 1 := fun heq => h₁ (hhigh heq)
      omega

theorem decimalRound_pyRound (q : ℚ) (digits : ℕ) :
    decimalRound digits (pyRound q digits) = pyRound q digits :=
  decimalRound_digits digits (roundHalfEven (q * 10 ^ digits))

theorem fitsDecimal_pyRound {precision digits : ℕ} {q : ℚ} :
    fitsDecimal precision digits (pyRound q digits) = true ↔
      |pyRound q digits| < 10 ^ (precision - digits) := by
  rw [fitsDecimal, decimalRound_pyRound, decide_eq_true_iff]

theorem spread_fits {q : ℚ} (hq : -102 ≤ q) :
    fitsDecimal 8 4 (pyRound q 4) = true ↔ q < 199999999 / 20000 := by
  have hlow : -102 ≤ pyRound q 4 := by
    have hround : pyRound (-102) 4 = -102 := by decide +kernel
    have hmono := pyRound_mono hq 4
    rwa [hround] at hmono
  have hhigh : pyRound q 4 < 10 ^ (8 - 4) ↔ q < 199999999 / 20000 := by
    have hcast : (10 ^ (8 - 4) : ℚ) * 10 ^ 4 = ((100000000 : ℤ) : ℚ) := by norm_num
    unfold pyRound
    rw [div_lt_iff₀ (by positivity), hcast, Int.cast_lt, roundHalfEven_lt (by decide)]
    constructor
    · intro h
      push_cast at h
      linarith
    · intro h
      push_cast
      linarith
  rw [fitsDecimal_pyRound, abs_lt, hhigh, and_iff_right]
  norm_num
  linarith

theorem grossSpread_lt {p s : ℚ} (hp : 0 < p) :
    grossSpread p s < 199999999 / 20000 ↔ s < 1009999995 / 10000000 * p := by
  unfold grossSpread
  rw [div_mul_eq_mul_div, div_lt_iff₀ hp]
  constructor
  · intro h
    linarith
  · intro h
    linarith

theorem grossSpread_gt {p s : ℚ} (hp : 0 < p) (hs : 0 < s) : -100 < grossSpread p s := by
  unfold grossSpread
  rw [div_mul_eq_mul_div, lt_div_iff₀ hp]
  linarith

theorem fitsDecimal_price (q : ℚ) :
    fitsDecimal 18 8 q = true ↔ |q| < 10 ^ 10 - 5 / 10 ^ 9 := by
  have hhalf : (1 : ℚ) / (2 * 10 ^ 8) = 5 / 10 ^ 9 := by norm_num
  rw [fitsDecimal_iff, hhalf]

theorem price_fits {q : ℚ} (hq : 0 < q) :
    fitsDecimal 18 8 q = true ↔ q < 10 ^ 10 - 5 / 10 ^ 9 := by
  rw [fitsDecimal_price, abs_of_pos hq]

theorem exchangeConfig_fits {ex : String} {cfg : ExchangeConfig}
    (h : exchangeConfig ex = some cfg) :
    fitsVarchar 20 ex = true ∧ fitsDecimal 6 4 cfg.takerFeePct = true ∧
      fitsDecimal 10 4 cfg.withdrawalUsdt = true ∧ 0 ≤ cfg.takerFeePct ∧
      cfg.takerFeePct ≤ 3 / 10 ∧ 0 ≤ cfg.withdrawalUsdt ∧ cfg.withdrawalUsdt ≤ 1 := by
  have hall : ∀ kv ∈ exchanges, fitsVarchar 20 kv.1 = true ∧
      fitsDecimal 6 4 kv.2.takerFeePct = true ∧ fitsDecimal 10 4 kv.2.withdrawalUsdt = true ∧
      0 ≤ kv.2.takerFeePct ∧ kv.2.takerFeePct ≤ 3 / 10 ∧ 0 ≤ kv.2.withdrawalUsdt ∧
      kv.2.withdrawalUsdt ≤ 1 := by decide +kernel
  exact hall _ (exchangeConfig_mem h)

section
variable [PyText]

structure RouteFits (symbol : String) (now : ℤ) (buyEx sellEx : String) (p s : ℚ) : Prop where
  id : fitsVarchar 100 (opportunityId now buyEx sellEx symbol) = true
  name : fitsVarchar 20 symbol = true
  ratio : s < 1009999995 / 10000000 * p
  buyPrice : p < 10 ^ 10 - 5 / 10 ^ 9
  sellPrice : s < 10 ^ 10 - 5 / 10 ^ 9

theorem Emits.pos {prices : List (String × Quote)} {books : List (String × Book)}
    {minSpread n : ℚ} {buyEx sellEx : String} {p s : ℚ}
    (h : Emits prices books minSpread n buyEx sellEx p s) : 0 < p ∧ 0 < s := by
  obtain ⟨buy, sell, -, -, hask, hbid, hroute⟩ := h.quotes
  exact hroute.pos hask hbid

theorem routeRecord_accepted {symbol : String} {now : ℤ} {prices : List (String × Quote)}
    {books : List (String × Book)} {minSpread : ℚ} {buyEx sellEx : String}
    {buy sell : ExchangeConfig} {p s : ℚ}
    (hemit : Emits prices books minSpread 1000 buyEx sellEx p s)
    (hbuy : exchangeConfig buyEx = some buy) (hsell : exchangeConfig sellEx = some sell) :
    (opportunityRecord (routeRecord symbol 1000 now buyEx sellEx buy sell p s)).accepted = true ↔
      RouteFits symbol now buyEx sellEx p s := by
  obtain ⟨hp, hs⟩ := hemit.pos
  obtain ⟨hbuyName, hbuyFee, -, hbuyPos, hbuyMax, -, -⟩ := exchangeConfig_fits hbuy
  obtain ⟨hsellName, hsellFee, hout, hsellPos, hsellMax, houtPos, houtMax⟩ :=
    exchangeConfig_fits hsell
  have hgross := grossSpread_gt hp hs
  have hratio := @grossSpread_lt p s hp
  have hdistinct := hemit.distinct
  generalize hg : grossSpread p s = g at hgross hratio
  generalize hnet : g - buy.takerFeePct - sell.takerFeePct - sell.withdrawalUsdt / 1000 * 100 = net
  have hpart : sell.withdrawalUsdt / 1000 * 100 ≤ 1 / 10 := by linarith
  have hpartPos : 0 ≤ sell.withdrawalUsdt / 1000 * 100 := by positivity
  have hle : net ≤ g := by linarith
  have hcheck := pyRound_mono hle 4
  simp only [OpportunityRow.accepted, opportunityRecord, routeRecord, hg, hnet, Bool.and_eq_true,
    decide_eq_true_iff, decimalRound_pyRound, price_fits hp, price_fits hs, hbuyName, hsellName,
    hbuyFee, hsellFee, hout, hdistinct, hcheck, ne_eq, not_false_eq_true, and_true]
  rw [spread_fits (by linarith), spread_fits (by linarith), hratio]
  constructor
  · rintro ⟨⟨⟨⟨⟨hid, hname⟩, hbuyPrice⟩, hsellPrice⟩, hspread⟩, -⟩
    exact ⟨hid, hname, hspread, hbuyPrice, hsellPrice⟩
  · intro h
    exact ⟨⟨⟨⟨⟨h.id, h.name⟩, h.buyPrice⟩, h.sellPrice⟩, h.ratio⟩,
      lt_of_le_of_lt hle (hratio.mpr h.ratio)⟩

/-- The `COPY` of what is found is taken exactly if every emitted route has room. -/
theorem calculateSpreads_storable {symbol : String} {prices : List (String × Quote)}
    {minSpread : ℚ} {books : List (String × Book)} {now : ℤ} {opps : List Opportunity}
    (hnd : (prices.map Prod.fst).Nodup)
    (h : calculateSpreads symbol prices minSpread 1000 (depthMap books) now = .ok opps) :
    copyAccepted (opps.map opportunityRecord) = true ↔
      ∀ buyEx sellEx p s, Emits prices books minSpread 1000 buyEx sellEx p s →
        RouteFits symbol now buyEx sellEx p s := by
  have hmem := calculateSpreads_iff (by norm_num) hnd h
  unfold copyAccepted
  rw [List.all_map, List.all_eq_true]
  constructor
  · intro hall buyEx sellEx p s hemit
    obtain ⟨buy, hbuy⟩ := Option.isSome_iff_exists.mp hemit.buyKnown
    obtain ⟨sell, hsell⟩ := Option.isSome_iff_exists.mp hemit.sellKnown
    have hopp : routeRecord symbol 1000 now buyEx sellEx buy sell p s ∈ opps :=
      (hmem _).mpr ⟨p, s, hemit, buy, sell, hbuy, hsell, rfl⟩
    exact (routeRecord_accepted hemit hbuy hsell).mp (hall _ hopp)
  · intro hfits opp hopp
    obtain ⟨p, s, hemit, buy, sell, hbuy, hsell, heq⟩ := (hmem opp).mp hopp
    have hrow := (routeRecord_accepted hemit hbuy hsell).mpr (hfits _ _ _ _ hemit)
    rwa [← heq] at hrow

end

/-- kucoin asks 1 and binance bids `bid`, both far below 10^10. -/
def apartQuotes (bid : ℚ) : List (String × Quote) :=
  [("kucoin", ⟨some (1 / 2), some 1⟩), ("binance", ⟨some bid, some (bid + 1)⟩)]

/-- A bid of 2 is a spread of 100 percent, which is stored. -/
theorem calculateSpreads_storable_double :
    copyAccepted ([@routeRecord sampleText "BTC/USDT" 1000 0 "kucoin" "binance"
      ⟨"kucoin", 1 / 10, 0⟩ ⟨"binance", 1 / 10, 0⟩ 1 2].map opportunityRecord) = true ↔
      ∀ buyEx sellEx p s, @Emits sampleText (apartQuotes 2) [] 0 1000 buyEx sellEx p s →
        @RouteFits sampleText "BTC/USDT" 0 buyEx sellEx p s :=
  @calculateSpreads_storable sampleText _ _ _ _ _ _ (by decide) (by decide +kernel :
    @calculateSpreads sampleText "BTC/USDT" (apartQuotes 2) 0 1000 (depthMap []) 0 = _)

/-- A bid of 102 is a spread of 10100 percent: it is emitted, and the column has no room. -/
theorem calculateSpreads_unstorable :
    (∀ kv ∈ apartQuotes 102, ∀ q ∈ kv.2.bid.toList ++ kv.2.ask.toList, 0 < q ∧ q < 10 ^ 10) ∧
    ∃ opp, @calculateSpreads sampleText "BTC/USDT" (apartQuotes 102) 0 1000 [] 0 = .ok [opp] ∧
      fitsDecimal 8 4 (opportunityRecord opp).grossSpreadPct = false ∧
      copyAccepted ([opp].map opportunityRecord) = false := by
  refine ⟨by decide +kernel, @routeRecord sampleText "BTC/USDT" 1000 0 "kucoin" "binance"
    ⟨"kucoin", 1 / 10, 0⟩ ⟨"binance", 1 / 10, 0⟩ 1 102, ?_⟩
  decide +kernel

end CriptoParser
