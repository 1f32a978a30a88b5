import CriptoParser.BestExecution

set_option autoImplicit false

namespace CriptoParser

open Greedy

def depthMap (books : List (String × Book)) : List (String × Depth) :=
  books.map fun kv => (kv.1, kv.2.depth)

theorem lookup_depthMap (books : List (String × Book)) (ex : String) :
    (depthMap books).lookup ex = (books.lookup ex).map Book.depth := by
  induction books with
  | nil => rfl
  | cons kv rest ih =>
    obtain ⟨name, book⟩ := kv
    have hcons : depthMap ((name, book) :: rest) = (name, book.depth) :: depthMap rest := rfl
    rw [hcons, List.lookup_cons, List.lookup_cons]
    split
    · rfl
    · exact ih

theorem mem_iff_lookup {β : Type} {l : List (String × β)} (h : (l.map Prod.fst).Nodup)
    (kv : String × β) : kv ∈ l ↔ l.lookup kv.1 = some kv.2 := by
  induction l with
  | nil => simp
  | cons x rest ih =>
    obtain ⟨key, value⟩ := kv
    obtain ⟨hx, hrest⟩ := List.nodup_cons.mp h
    rw [List.lookup_cons]
    by_cases hkey : key = x.1
    · have hno : (x.1, value) ∉ rest := fun hmem =>
        hx (List.mem_map.mpr ⟨_, hmem, rfl⟩)
      subst hkey
      obtain ⟨name, v⟩ := x
      simp [hno, eq_comm]
    · have hne : (key == x.1) = false := by simpa using hkey
      have hhead : (key, value) ≠ x := fun heq => hkey (by rw [← heq])
      rw [List.mem_cons, ih hrest, hne]
      simp [hhead]

section
variable [PyText]

/-- The prices of a route: of the walks where both books are known, the quotes otherwise. -/
def RoutePriced (books : List (String × Book)) (notional : ℚ) (buyEx sellEx : String)
    (topAsk topBid buyPrice sellPrice : ℚ) : Prop :=
  match books.lookup buyEx, books.lookup sellEx with
  | some buy, some sell =>
    ∃ amount, walkAsksForNotional buy.depth.asks notional = .ok (some (amount, buyPrice)) ∧
      walkBidsForAmount sell.depth.bids amount = .ok (some sellPrice)
  | _, _ => buyPrice = topAsk ∧ sellPrice = topBid

structure Emits (prices : List (String × Quote)) (books : List (String × Book))
    (minSpread notional : ℚ) (buyEx sellEx : String) (buyPrice sellPrice : ℚ) : Prop where
  distinct : buyEx ≠ sellEx
  buyKnown : (exchangeConfig buyEx).isSome = true
  sellKnown : (exchangeConfig sellEx).isSome = true
  quotes : ∃ buy sell, prices.lookup buyEx = some buy ∧ prices.lookup sellEx = some sell ∧
    0 < buy.ask.getD 0 ∧ 0 < sell.bid.getD 0 ∧
    RoutePriced books notional buyEx sellEx (buy.ask.getD 0) (sell.bid.getD 0) buyPrice sellPrice
  spread : minSpread ≤ grossSpread buyPrice sellPrice

def routeRecord (symbol : String) (notional : ℚ) (now : ℤ) (buyEx sellEx : String)
    (buy sell : ExchangeConfig) (buyPrice sellPrice : ℚ) : Opportunity where
  id := opportunityId now buyEx sellEx symbol
  symbol := symbol
  buyExchange := buyEx
  sellExchange := sellEx
  buyPrice := buyPrice
  sellPrice := sellPrice
  grossSpreadPct := pyRound (grossSpread buyPrice sellPrice) 4
  buyFeePct := buy.takerFeePct
  sellFeePct := sell.takerFeePct
  withdrawalFeeUsd := sell.withdrawalUsdt
  netSpreadPct := pyRound (grossSpread buyPrice sellPrice - buy.takerFeePct - sell.takerFeePct -
    sell.withdrawalUsdt / notional * 100) 4
  detectedAt := now
  ttlSeconds := 5

/-- `opp` is what is emitted for its route at these prices. -/
def IsRecord (symbol : String) (notional : ℚ) (now : ℤ) (buyPrice sellPrice : ℚ)
    (opp : Opportunity) : Prop :=
  ∃ buy sell, exchangeConfig opp.buyExchange = some buy ∧
    exchangeConfig opp.sellExchange = some sell ∧
    opp = routeRecord symbol notional now opp.buyExchange opp.sellExchange buy sell buyPrice
      sellPrice

section Route
variable {symbol : String} {minSpread n : ℚ} {books : List (String × Book)} {now : ℤ}
  {buyEx sellEx : String} {topAsk topBid : ℚ}

theorem routePrices_books (hn : 0 < n) :
    ∃ found, routePrices n ((depthMap books).lookup buyEx) ((depthMap books).lookup sellEx)
        topAsk topBid = .ok found ∧
      ∀ p s, found = some (p, s) ↔ RoutePriced books n buyEx sellEx topAsk topBid p s := by
  unfold RoutePriced
  rw [lookup_depthMap, lookup_depthMap]
  cases books.lookup buyEx with
  | none => exact ⟨_, rfl, fun p s => by simp [eq_comm]⟩
  | some buy =>
    cases books.lookup sellEx with
    | none => exact ⟨_, rfl, fun p s => by simp [eq_comm]⟩
    | some sell =>
      simp only [Option.map_some, routePrices, bind, Except.bind]
      have hasks := walkAsks_levels buy.asks hn
      change walkAsksForNotional buy.depth.asks n = _ at hasks
      rw [hasks]
      split
      · rename_i x heq
        split at heq <;> cases heq
      · rename_i walked heq
        cases walked with
        | none => exact ⟨none, rfl, fun p s => by simp [heq]⟩
        | some av =>
          obtain ⟨amount, vwap⟩ := av
          obtain ⟨-, hamount, -⟩ := walkAsksForNotional_some (hasks.trans heq)
          have hbids := walkBids_levels sell.bids hamount
          change walkBidsForAmount sell.depth.bids amount = _ at hbids
          simp only [heq]
          cases hw : walkBidsForAmount sell.depth.bids amount with
          | error x =>
            rw [hw] at hbids
            split at hbids <;> cases hbids
          | ok found =>
            cases found with
            | none =>
              refine ⟨none, rfl, fun p s => ⟨nofun, ?_⟩⟩
              rintro ⟨a, ha, hs⟩
              cases ha
              rw [hw] at hs
              cases hs
            | some vwapSell =>
              refine ⟨_, rfl, fun p s => ⟨?_, ?_⟩⟩
              · intro h
                cases h
                exact ⟨amount, rfl, hw⟩
              · rintro ⟨a, ha, hs⟩
                cases ha
                rw [hw] at hs
                cases hs
                rfl

theorem RoutePriced.pos {p s : ℚ} (h : RoutePriced books n buyEx sellEx topAsk topBid p s)
    (hask : 0 < topAsk) (hbid : 0 < topBid) : 0 < p ∧ 0 < s := by
  unfold RoutePriced at h
  split at h
  · rename_i buy sell _ _
    obtain ⟨amount, hasks, hbids⟩ := h
    obtain ⟨hn, hamount, rfl⟩ := walkAsksForNotional_some hasks
    obtain ⟨hcover, rfl⟩ := (walkBids_some hamount s).mp hbids
    rw [← bidLevels_total] at hcover
    exact ⟨div_pos hn hamount,
      div_pos (covered_fill_pos (bidLevels_positive sell.bids) hamount hcover) hamount⟩
  · obtain ⟨rfl, rfl⟩ := h
    exact ⟨hask, hbid⟩

theorem routeOpportunity_record {buy sell : ExchangeConfig} {p s : ℚ} (hn : 0 < n)
    (hbuy : exchangeConfig buyEx = some buy) (hsell : exchangeConfig sellEx = some sell)
    (hp : 0 < p) (hs : 0 < s) :
    routeOpportunity symbol n now buyEx sellEx p s =
      .ok (routeRecord symbol n now buyEx sellEx buy sell p s) := by
  simp only [routeOpportunity, hbuy, hsell, if_neg hn.ne', if_pos (And.intro hp hs)]
  rfl

theorem spreadRoute_books {buy sell : ExchangeConfig} (hn : 0 < n)
    (hbuy : exchangeConfig buyEx = some buy) (hsell : exchangeConfig sellEx = some sell)
    (hask : 0 < topAsk) (hbid : 0 < topBid) :
    ∃ found, spreadRoute symbol minSpread n (depthMap books) now buyEx topAsk sellEx topBid =
        .ok found ∧
      ∀ opp, found = some opp ↔ ∃ p s, RoutePriced books n buyEx sellEx topAsk topBid p s ∧
        minSpread ≤ grossSpread p s ∧
        opp = routeRecord symbol n now buyEx sellEx buy sell p s := by
  obtain ⟨priced, hprices, hpriced⟩ := @routePrices_books _ n books buyEx sellEx topAsk topBid hn
  simp only [spreadRoute, hprices, bind, Except.bind]
  cases priced with
  | none =>
    refine ⟨none, rfl, fun opp => ⟨nofun, ?_⟩⟩
    rintro ⟨p, s, h, -, -⟩
    cases (hpriced p s).mpr h
  | some ps =>
    obtain ⟨p, s⟩ := ps
    have hroute := (hpriced p s).mp rfl
    obtain ⟨hp, hs⟩ := hroute.pos hask hbid
    have honly : ∀ p' s', RoutePriced books n buyEx sellEx topAsk topBid p' s' →
        p' = p ∧ s' = s := by
      intro p' s' h
      cases (hpriced p' s').mpr h
      exact ⟨rfl, rfl⟩
    by_cases hmin : (s - p) / p * 100 < minSpread
    · refine ⟨none, by simp only [if_pos hmin], fun opp => ⟨nofun, ?_⟩⟩
      rintro ⟨p', s', h, hle, -⟩
      obtain ⟨rfl, rfl⟩ := honly p' s' h
      exact absurd hmin (not_lt.mpr hle)
    · simp only [if_neg hmin, routeOpportunity_record hn hbuy hsell hp hs]
      refine ⟨_, rfl, fun opp => ⟨?_, ?_⟩⟩
      · intro h
        cases h
        exact ⟨p, s, hroute, not_lt.mp hmin, rfl⟩
      · rintro ⟨p', s', h, -, rfl⟩
        obtain ⟨rfl, rfl⟩ := honly p' s' h
        rfl

end Route

section Loops
variable (symbol : String) (minSpread n : ℚ) (books : List (String × Book)) (now : ℤ)

def foundOn (buy sell : String × Quote) : List Opportunity :=
  if buy.2.ask.getD 0 ≤ 0 ∨ sell.1 = buy.1 ∨ sell.2.bid.getD 0 ≤ 0 then []
  else
    match spreadRoute symbol minSpread n (depthMap books) now buy.1 (buy.2.ask.getD 0) sell.1
      (sell.2.bid.getD 0) with
    | .ok found => found.toList
    | .error _ => []

variable {symbol minSpread n books now}

theorem sellLoop_flatMap (hn : 0 < n) {buy : String × Quote} {names : List (String × Quote)}
    (hbuy : (exchangeConfig buy.1).isSome = true) (hask : 0 < buy.2.ask.getD 0)
    (hnames : ∀ s ∈ names, (exchangeConfig s.1).isSome = true) :
    sellLoop symbol minSpread n (depthMap books) now buy.1 (buy.2.ask.getD 0) names =
      .ok (names.flatMap (foundOn symbol minSpread n books now buy)) := by
  induction names with
  | nil => rfl
  | cons s rest ih =>
    have hrest := ih fun x hx => hnames x (List.mem_cons_of_mem _ hx)
    obtain ⟨sellEx, quote⟩ := s
    rw [List.flatMap_cons]
    unfold sellLoop foundOn
    by_cases hskip : sellEx = buy.1 ∨ quote.bid.getD 0 ≤ 0
    · rw [if_pos hskip, if_pos (.inr hskip), hrest]
      rfl
    · have hall : ¬(buy.2.ask.getD 0 ≤ 0 ∨ sellEx = buy.1 ∨ quote.bid.getD 0 ≤ 0) :=
        not_or.mpr ⟨not_le.mpr hask, hskip⟩
      obtain ⟨cfgBuy, hcfgBuy⟩ := Option.isSome_iff_exists.mp hbuy
      obtain ⟨cfgSell, hcfgSell⟩ := Option.isSome_iff_exists.mp
        (hnames (sellEx, quote) List.mem_cons_self)
      obtain ⟨found, hfound, -⟩ := @spreadRoute_books _ symbol minSpread n books now buy.1 sellEx
        (buy.2.ask.getD 0) (quote.bid.getD 0) _ _ hn hcfgBuy hcfgSell hask
        (not_le.mp (not_or.mp hskip).2)
      rw [if_neg hskip, if_neg hall, hfound, hrest]
      rfl

theorem buyLoop_flatMap (hn : 0 < n) {known names : List (String × Quote)}
    (hknown : ∀ s ∈ known, (exchangeConfig s.1).isSome = true)
    (hnames : ∀ b ∈ names, (exchangeConfig b.1).isSome = true) :
    buyLoop symbol minSpread n (depthMap books) now known names =
      .ok (names.flatMap fun b => known.flatMap (foundOn symbol minSpread n books now b)) := by
  induction names with
  | nil => rfl
  | cons b rest ih =>
    have hrest := ih fun x hx => hnames x (List.mem_cons_of_mem _ hx)
    obtain ⟨buyEx, quote⟩ := b
    rw [List.flatMap_cons]
    unfold buyLoop
    by_cases hskip : quote.ask.getD 0 ≤ 0
    · have hnone : known.flatMap (foundOn symbol minSpread n books now (buyEx, quote)) = [] := by
        rw [List.flatMap_eq_nil_iff]
        intro s _
        exact if_pos (.inl hskip)
      rw [if_pos hskip, hrest, hnone]
      rfl
    · have hsell := @sellLoop_flatMap _ symbol minSpread n books now hn (buyEx, quote) known
        (hnames _ List.mem_cons_self) (not_le.mp hskip) hknown
      rw [if_neg hskip, hsell, hrest]
      rfl

def knownPrices (prices : List (String × Quote)) : List (String × Quote) :=
  prices.filter fun p => (exchangeConfig p.1).isSome

theorem calculateSpreads_flatMap (hn : 0 < n) (prices : List (String × Quote)) :
    calculateSpreads symbol prices minSpread n (depthMap books) now =
      .ok ((knownPrices prices).flatMap fun b =>
        (knownPrices prices).flatMap (foundOn symbol minSpread n books now b)) := by
  have hknown : ∀ s ∈ knownPrices prices, (exchangeConfig s.1).isSome = true := fun s hs =>
    (List.mem_filter.mp hs).2
  exact buyLoop_flatMap hn hknown hknown

theorem mem_foundOn (hn : 0 < n) {buy sell : String × Quote}
    (hbuy : (exchangeConfig buy.1).isSome = true) (hsell : (exchangeConfig sell.1).isSome = true)
    {opp : Opportunity} :
    opp ∈ foundOn symbol minSpread n books now buy sell ↔
      opp.exchanges = (buy.1, sell.1) ∧ 0 < buy.2.ask.getD 0 ∧ buy.1 ≠ sell.1 ∧
        0 < sell.2.bid.getD 0 ∧ ∃ p s,
          RoutePriced books n buy.1 sell.1 (buy.2.ask.getD 0) (sell.2.bid.getD 0) p s ∧
          minSpread ≤ grossSpread p s ∧ IsRecord symbol n now p s opp := by
  obtain ⟨cfgBuy, hcfgBuy⟩ := Option.isSome_iff_exists.mp hbuy
  obtain ⟨cfgSell, hcfgSell⟩ := Option.isSome_iff_exists.mp hsell
  unfold foundOn
  split
  · rename_i hskip
    refine ⟨nofun, ?_⟩
    rintro ⟨-, hask, hne, hbid, -⟩
    rcases hskip with h | h | h
    · exact absurd hask (not_lt.mpr h)
    · exact absurd h.symm hne
    · exact absurd hbid (not_lt.mpr h)
  · rename_i hskip
    obtain ⟨hask, hne, hbid⟩ : 0 < buy.2.ask.getD 0 ∧ sell.1 ≠ buy.1 ∧ 0 < sell.2.bid.getD 0 := by
      simpa using hskip
    obtain ⟨found, hfound, hiff⟩ := @spreadRoute_books _ symbol minSpread n books now buy.1 sell.1
      (buy.2.ask.getD 0) (sell.2.bid.getD 0) _ _ hn hcfgBuy hcfgSell hask hbid
    rw [hfound, Option.mem_toList, hiff]
    constructor
    · rintro ⟨p, s, hroute, hmin, rfl⟩
      exact ⟨rfl, hask, hne.symm, hbid, p, s, hroute, hmin, cfgBuy, cfgSell, hcfgBuy, hcfgSell,
        rfl⟩
    · rintro ⟨hex, -, -, -, p, s, hroute, hmin, cfgBuy', cfgSell', hb, hs, hrec⟩
      obtain ⟨hbx, hsx⟩ := Prod.mk.inj hex
      rw [hbx] at hb hrec
      rw [hsx] at hs hrec
      cases hcfgBuy.symm.trans hb
      cases hcfgSell.symm.trans hs
      exact ⟨p, s, hroute, hmin, hrec⟩

theorem calculateSpreads_iff (hn : 0 < n) {prices : List (String × Quote)}
    (hnd : (prices.map Prod.fst).Nodup) {opps : List Opportunity}
    (h : calculateSpreads symbol prices minSpread n (depthMap books) now = .ok opps)
    (opp : Opportunity) :
    opp ∈ opps ↔ ∃ p s, Emits prices books minSpread n opp.buyExchange opp.sellExchange p s ∧
      IsRecord symbol n now p s opp := by
  rw [calculateSpreads_flatMap hn] at h
  cases h
  simp only [List.mem_flatMap]
  constructor
  · rintro ⟨b, hb, s, hs, hmem⟩
    obtain ⟨hb, hbuy⟩ := List.mem_filter.mp hb
    obtain ⟨hs, hsell⟩ := List.mem_filter.mp hs
    obtain ⟨hex, hask, hne, hbid, p, q, hroute, hmin, hrec⟩ := (mem_foundOn hn hbuy hsell).mp hmem
    obtain ⟨hbx, hsx⟩ := Prod.mk.inj hex
    refine ⟨p, q, ⟨?_, ?_, ?_, ?_, hmin⟩, hrec⟩
    · rw [hbx, hsx]
      exact hne
    · rw [hbx]
      exact hbuy
    · rw [hsx]
      exact hsell
    · rw [hbx, hsx]
      exact ⟨b.2, s.2, (mem_iff_lookup hnd b).mp hb, (mem_iff_lookup hnd s).mp hs, hask, hbid,
        hroute⟩
  · rintro ⟨p, q, hemit, hrec⟩
    obtain ⟨buy, sell, hbuy, hsell, hask, hbid, hroute⟩ := hemit.quotes
    have hb := (mem_iff_lookup hnd (opp.buyExchange, buy)).mpr hbuy
    have hs := (mem_iff_lookup hnd (opp.sellExchange, sell)).mpr hsell
    refine ⟨_, List.mem_filter.mpr ⟨hb, hemit.buyKnown⟩, _,
      List.mem_filter.mpr ⟨hs, hemit.sellKnown⟩, ?_⟩
    exact (mem_foundOn hn hemit.buyKnown hemit.sellKnown).mpr ⟨rfl, hask, hemit.distinct, hbid, p,
      q, hroute, hemit.spread, hrec⟩

theorem calculateSpreads_perm (hn : 0 < n) {prices prices' : List (String × Quote)}
    (hp : prices'.Perm prices) {opps : List Opportunity}
    (h : calculateSpreads symbol prices minSpread n (depthMap books) now = .ok opps) :
    ∃ opps', calculateSpreads symbol prices' minSpread n (depthMap books) now = .ok opps' ∧
      opps'.Perm opps := by
  rw [calculateSpreads_flatMap hn] at h
  cases h
  have hknown : (knownPrices prices').Perm (knownPrices prices) := hp.filter _
  exact ⟨_, calculateSpreads_flatMap hn prices', hknown.flatMap fun b _ =>
    hknown.flatMap_right _⟩

theorem emits_congr {prices prices' : List (String × Quote)} {books books' : List (String × Book)}
    {buyEx sellEx : String} (hbuy : prices'.lookup buyEx = prices.lookup buyEx)
    (hsell : prices'.lookup sellEx = prices.lookup sellEx)
    (hbook : books'.lookup buyEx = books.lookup buyEx)
    (hbook' : books'.lookup sellEx = books.lookup sellEx) (p s : ℚ) :
    Emits prices' books' minSpread n buyEx sellEx p s ↔
      Emits prices books minSpread n buyEx sellEx p s := by
  have hpriced : ∀ topAsk topBid, RoutePriced books' n buyEx sellEx topAsk topBid p s ↔
      RoutePriced books n buyEx sellEx topAsk topBid p s := by
    intro topAsk topBid
    unfold RoutePriced
    rw [hbook, hbook']
  constructor
  · intro h
    obtain ⟨hne, hb, hs, hq, hmin⟩ := h
    simp only [hbuy, hsell, hpriced] at hq
    exact ⟨hne, hb, hs, hq, hmin⟩
  · intro h
    obtain ⟨hne, hb, hs, hq, hmin⟩ := h
    simp only [← hbuy, ← hsell, ← hpriced] at hq
    exact ⟨hne, hb, hs, hq, hmin⟩

/-- The result has exactly one opportunity for each pair of exchanges to be emitted, with the
figures of its route, and no other. The order of the prices changes nothing but the order,
and the quotes and books of other exchanges change nothing. -/
theorem calculateSpreads_exact (symbol : String) (prices : List (String × Quote))
    (books : List (String × Book)) (minSpread n : ℚ) (now : ℤ) (hn : 0 < n)
    (hnd : (prices.map Prod.fst).Nodup) :
    ∃ opps, calculateSpreads symbol prices minSpread n (depthMap books) now = .ok opps ∧
      (opps.map Opportunity.exchanges).Nodup ∧
      (∀ buyEx sellEx, (∃ opp ∈ opps, opp.exchanges = (buyEx, sellEx)) ↔
        ∃ p s, Emits prices books minSpread n buyEx sellEx p s) ∧
      (∀ opp ∈ opps, ∃ p s, IsRecord symbol n now p s opp ∧
        Emits prices books minSpread n opp.buyExchange opp.sellExchange p s) ∧
      (∀ prices', prices'.Perm prices → ∃ opps',
        calculateSpreads symbol prices' minSpread n (depthMap books) now = .ok opps' ∧
          opps'.Perm opps) ∧
      ∀ prices' books' opps', (prices'.map Prod.fst).Nodup →
        calculateSpreads symbol prices' minSpread n (depthMap books') now = .ok opps' →
        ∀ buyEx sellEx, prices'.lookup buyEx = prices.lookup buyEx →
          prices'.lookup sellEx = prices.lookup sellEx →
          books'.lookup buyEx = books.lookup buyEx →
          books'.lookup sellEx = books.lookup sellEx →
          ∀ opp : Opportunity, opp.exchanges = (buyEx, sellEx) → (opp ∈ opps' ↔ opp ∈ opps) := by
  have hrun := @calculateSpreads_flatMap _ symbol minSpread n books now hn prices
  have hmem := calculateSpreads_iff hn hnd hrun
  refine ⟨_, hrun, calculateSpreads_routes hrun hnd, ?_, ?_, ?_, ?_⟩
  · intro buyEx sellEx
    constructor
    · rintro ⟨opp, hopp, hex⟩
      obtain ⟨hbx, hsx⟩ := Prod.mk.inj hex
      obtain ⟨p, s, hemit, -⟩ := (hmem opp).mp hopp
      rw [hbx, hsx] at hemit
      exact ⟨p, s, hemit⟩
    · rintro ⟨p, s, hemit⟩
      obtain ⟨buy, hbuy⟩ := Option.isSome_iff_exists.mp hemit.buyKnown
      obtain ⟨sell, hsell⟩ := Option.isSome_iff_exists.mp hemit.sellKnown
      refine ⟨routeRecord symbol n now buyEx sellEx buy sell p s, (hmem _).mpr ?_, rfl⟩
      exact ⟨p, s, hemit, buy, sell, hbuy, hsell, rfl⟩
  · intro opp hopp
    obtain ⟨p, s, hemit, hrec⟩ := (hmem opp).mp hopp
    exact ⟨p, s, hrec, hemit⟩
  · intro prices' hp
    exact calculateSpreads_perm hn hp hrun
  · intro prices' books' opps' hnd' hrun' buyEx sellEx hbuy hsell hbook hbook' opp hex
    obtain ⟨rfl, rfl⟩ := Prod.mk.inj hex
    rw [hmem, calculateSpreads_iff hn hnd' hrun']
    simp only [emits_congr hbuy hsell hbook hbook']

end Loops

end

/-- kucoin sells to binance at two percent more; the other way there is nothing. -/
theorem calculateSpreads_exact_two : ∃ opps,
    @calculateSpreads sampleText "BTC/USDT" [("binance", ⟨some 102, some 103⟩),
      ("kucoin", ⟨some 99, some 100⟩)] 1 1000 (depthMap []) 0 = .ok opps ∧
    (opps.map Opportunity.exchanges).Nodup ∧
    ∃ opp ∈ opps, opp.exchanges = ("kucoin", "binance") := by
  obtain ⟨opps, hrun, hnd, hiff, -⟩ := @calculateSpreads_exact sampleText "BTC/USDT"
    [("binance", ⟨some 102, some 103⟩), ("kucoin", ⟨some 99, some 100⟩)] [] 1 1000 0
    (by decide +kernel) (by decide)
  refine ⟨opps, hrun, hnd, (hiff "kucoin" "binance").mpr ⟨100, 102, ?_⟩⟩
  exact @Emits.mk sampleText _ _ _ _ _ _ _ _ (by decide) rfl rfl
    ⟨_, _, rfl, rfl, by decide +kernel, by decide +kernel, rfl, rfl⟩ (by decide +kernel)

end CriptoParser
