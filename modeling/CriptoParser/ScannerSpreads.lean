import CriptoParser.ServiceWorld
import CriptoParser.SharedConfig
import CriptoParser.SharedDepth

set_option autoImplicit false

namespace CriptoParser

def Opportunity.exchanges (opp : Opportunity) : String × String :=
  (opp.buyExchange, opp.sellExchange)

section
variable [PyText]

/-- `opp_{now}_{buy}_{sell}_{symbol}`, the symbol without its slash and in lower case. -/
def opportunityId (now : ℤ) (buyEx sellEx symbol : String) : String :=
  "opp_" ++ PyText.strInt now ++ "_" ++ buyEx ++ "_" ++ sellEx ++ "_" ++
    PyText.lower (String.ofList (symbol.toList.filter (· ≠ '/')))

/-- The prices a route is computed with: those of the walks when both depths are known,
the quotes otherwise; `none` where a book is too thin. -/
def routePrices (notional : ℚ) (buyDepth sellDepth : Option Depth) (topAsk topBid : ℚ) :
    Except PyExc (Option (ℚ × ℚ)) :=
  match buyDepth, sellDepth with
  | some buy, some sell => do
    match ← walkAsksForNotional buy.asks notional with
    | none => .ok none
    | some (amount, vwapBuy) =>
      match ← walkBidsForAmount sell.bids amount with
      | none => .ok none
      | some vwapSell => .ok (some (vwapBuy, vwapSell))
  | _, _ => .ok (some (topAsk, topBid))

/-- The opportunity of a route at its prices. The division by the buy price is safe: it is
a positive quote or the average of a walk. -/
def routeOpportunity (symbol : String) (notional : ℚ) (now : ℤ) (buyEx sellEx : String)
    (buyPrice sellPrice : ℚ) : Except PyExc Opportunity := do
  let gross := (sellPrice - buyPrice) / buyPrice * 100
  let some buy := exchangeConfig buyEx | .error .keyError
  let some sell := exchangeConfig sellEx | .error .keyError
  if notional = 0 then .error .zeroDivisionError
  else if 0 < buyPrice ∧ 0 < sellPrice then .ok {
    id := opportunityId now buyEx sellEx symbol
    symbol := symbol
    buyExchange := buyEx
    sellExchange := sellEx
    buyPrice := buyPrice
    sellPrice := sellPrice
    grossSpreadPct := pyRound gross 4
    buyFeePct := buy.takerFeePct
    sellFeePct := sell.takerFeePct
    withdrawalFeeUsd := sell.withdrawalUsdt
    netSpreadPct := pyRound (gross - buy.takerFeePct - sell.takerFeePct -
      sell.withdrawalUsdt / notional * 100) 4
    detectedAt := now
    ttlSeconds := 5 }
  else .error .valueError

def spreadRoute (symbol : String) (minSpread notional : ℚ) (depth : List (String × Depth))
    (now : ℤ) (buyEx : String) (topAsk : ℚ) (sellEx : String) (topBid : ℚ) :
    Except PyExc (Option Opportunity) := do
  match ← routePrices notional (depth.lookup buyEx) (depth.lookup sellEx) topAsk topBid with
  | none => .ok none
  | some (buyPrice, sellPrice) =>
    if (sellPrice - buyPrice) / buyPrice * 100 < minSpread then .ok none
    else some <$> routeOpportunity symbol notional now buyEx sellEx buyPrice sellPrice

def sellLoop (symbol : String) (minSpread notional : ℚ) (depth : List (String × Depth))
    (now : ℤ) (buyEx : String) (topAsk : ℚ) :
    List (String × Quote) → Except PyExc (List Opportunity)
  | [] => .ok []
  | (sellEx, quote) :: rest =>
    if sellEx = buyEx ∨ quote.bid.getD 0 ≤ 0 then
      sellLoop symbol minSpread notional depth now buyEx topAsk rest
    else do
      let found ← spreadRoute symbol minSpread notional depth now buyEx topAsk sellEx
        (quote.bid.getD 0)
      let more ← sellLoop symbol minSpread notional depth now buyEx topAsk rest
      .ok (found.toList ++ more)

def buyLoop (symbol : String) (minSpread notional : ℚ) (depth : List (String × Depth))
    (now : ℤ) (known : List (String × Quote)) :
    List (String × Quote) → Except PyExc (List Opportunity)
  | [] => .ok []
  | (buyEx, quote) :: rest =>
    if quote.ask.getD 0 ≤ 0 then buyLoop symbol minSpread notional depth now known rest
    else do
      let found ← sellLoop symbol minSpread notional depth now buyEx (quote.ask.getD 0) known
      let more ← buyLoop symbol minSpread notional depth now known rest
      .ok (found ++ more)

def calculateSpreads (symbol : String) (prices : List (String × Quote))
    (minSpread notional : ℚ) (depth : List (String × Depth)) (now : ℤ) :
    Except PyExc (List Opportunity) :=
  let known := prices.filter fun p => (exchangeConfig p.1).isSome
  buyLoop symbol minSpread notional depth now known known

structure RouteOf (symbol : String) (notional : ℚ) (now : ℤ) (buyEx sellEx : String)
    (buyPrice sellPrice : ℚ) (opp : Opportunity) : Prop where
  symbol_eq : opp.symbol = symbol
  buyExchange : opp.buyExchange = buyEx
  sellExchange : opp.sellExchange = sellEx
  buyPrice_eq : opp.buyPrice = buyPrice
  sellPrice_eq : opp.sellPrice = sellPrice
  buyFee : ∃ cfg, exchangeConfig buyEx = some cfg ∧ opp.buyFeePct = cfg.takerFeePct
  sellFee : ∃ cfg, exchangeConfig sellEx = some cfg ∧ opp.sellFeePct = cfg.takerFeePct
  detectedAt : opp.detectedAt = now

/-- The one route by which an opportunity comes about: both exchanges configured, both prices
positive. -/
theorem routeOpportunity_spec {symbol : String} {notional : ℚ} {now : ℤ} {buyEx sellEx : String}
    {buyPrice sellPrice : ℚ} {opp : Opportunity}
    (h : routeOpportunity symbol notional now buyEx sellEx buyPrice sellPrice = .ok opp) :
    RouteOf symbol notional now buyEx sellEx buyPrice sellPrice opp ∧
      opp.grossSpreadPct = pyRound ((sellPrice - buyPrice) / buyPrice * 100) 4 ∧
      0 < buyPrice ∧ 0 < sellPrice ∧ opp.id = opportunityId now buyEx sellEx symbol := by
  unfold routeOpportunity at h
  cases hb : exchangeConfig buyEx with
  | none => simp only [hb] at h; cases h
  | some buy =>
    cases hs : exchangeConfig sellEx with
    | none => simp only [hb, hs] at h; cases h
    | some sell =>
      simp only [hb, hs] at h
      split at h
      · cases h
      · split at h
        · rename_i hpos
          cases h
          exact ⟨⟨rfl, rfl, rfl, rfl, rfl, ⟨buy, hb, rfl⟩, ⟨sell, hs, rfl⟩, rfl⟩, rfl, hpos.1,
            hpos.2, rfl⟩
        · cases h

theorem spreadRoute_routed {symbol : String} {minSpread notional : ℚ}
    {depth : List (String × Depth)} {now : ℤ} {buyEx sellEx : String} {topAsk topBid : ℚ}
    {opp : Opportunity}
    (h : spreadRoute symbol minSpread notional depth now buyEx topAsk sellEx topBid =
      .ok (some opp)) :
    ∃ buyPrice sellPrice,
      routePrices notional (depth.lookup buyEx) (depth.lookup sellEx) topAsk topBid =
        .ok (some (buyPrice, sellPrice)) ∧
      minSpread ≤ (sellPrice - buyPrice) / buyPrice * 100 ∧
      routeOpportunity symbol notional now buyEx sellEx buyPrice sellPrice = .ok opp := by
  unfold spreadRoute at h
  cases hp : routePrices notional (depth.lookup buyEx) (depth.lookup sellEx) topAsk topBid with
  | error x => simp only [hp, bind, Except.bind] at h; cases h
  | ok found =>
    simp only [hp, bind, Except.bind] at h
    cases found with
    | none => cases h
    | some prices =>
      obtain ⟨buyPrice, sellPrice⟩ := prices
      simp only at h
      split at h
      · cases h
      · rename_i hmin
        cases hr : routeOpportunity symbol notional now buyEx sellEx buyPrice sellPrice with
        | error x => rw [hr] at h; cases h
        | ok o =>
          rw [hr] at h
          cases h
          exact ⟨buyPrice, sellPrice, rfl, not_lt.mp hmin, hr⟩

theorem spreadRoute_some {symbol : String} {minSpread notional : ℚ}
    {depth : List (String × Depth)} {now : ℤ} {buyEx sellEx : String} {topAsk topBid : ℚ}
    {opp : Opportunity}
    (h : spreadRoute symbol minSpread notional depth now buyEx topAsk sellEx topBid =
      .ok (some opp)) :
    ∃ buyPrice sellPrice, RouteOf symbol notional now buyEx sellEx buyPrice sellPrice opp ∧
      routePrices notional (depth.lookup buyEx) (depth.lookup sellEx) topAsk topBid =
        .ok (some (buyPrice, sellPrice)) := by
  obtain ⟨buyPrice, sellPrice, hprices, -, hr⟩ := spreadRoute_routed h
  exact ⟨buyPrice, sellPrice, (routeOpportunity_spec hr).1, hprices⟩

section Loops
variable {symbol : String} {minSpread notional : ℚ} {depth : List (String × Depth)} {now : ℤ}

theorem sellLoop_cons {buyEx : String} {topAsk : ℚ} {sellEx : String} {quote : Quote}
    {rest : List (String × Quote)} {opps : List Opportunity}
    (h : sellLoop symbol minSpread notional depth now buyEx topAsk ((sellEx, quote) :: rest) =
      .ok opps) :
    sellLoop symbol minSpread notional depth now buyEx topAsk rest = .ok opps ∨
      sellEx ≠ buyEx ∧ ∃ found more,
        spreadRoute symbol minSpread notional depth now buyEx topAsk sellEx
          (quote.bid.getD 0) = .ok found ∧
        sellLoop symbol minSpread notional depth now buyEx topAsk rest = .ok more ∧
        opps = found.toList ++ more := by
  unfold sellLoop at h
  by_cases hskip : sellEx = buyEx ∨ quote.bid.getD 0 ≤ 0
  · rw [if_pos hskip] at h
    exact .inl h
  · rw [if_neg hskip] at h
    refine .inr ⟨(not_or.mp hskip).1, ?_⟩
    cases hr : spreadRoute symbol minSpread notional depth now buyEx topAsk sellEx
        (quote.bid.getD 0) with
    | error x => simp only [hr, bind, Except.bind] at h; cases h
    | ok found =>
      cases hl : sellLoop symbol minSpread notional depth now buyEx topAsk rest with
      | error x => simp only [hr, hl, bind, Except.bind] at h; cases h
      | ok more =>
        simp only [hr, hl, bind, Except.bind] at h
        cases h
        exact ⟨found, more, rfl, rfl, rfl⟩

theorem buyLoop_cons {known rest : List (String × Quote)} {buyEx : String} {quote : Quote}
    {opps : List Opportunity}
    (h : buyLoop symbol minSpread notional depth now known ((buyEx, quote) :: rest) = .ok opps) :
    buyLoop symbol minSpread notional depth now known rest = .ok opps ∨
      ∃ found more,
        sellLoop symbol minSpread notional depth now buyEx (quote.ask.getD 0) known = .ok found ∧
        buyLoop symbol minSpread notional depth now known rest = .ok more ∧
        opps = found ++ more := by
  unfold buyLoop at h
  by_cases hskip : quote.ask.getD 0 ≤ 0
  · rw [if_pos hskip] at h
    exact .inl h
  · rw [if_neg hskip] at h
    cases hs : sellLoop symbol minSpread notional depth now buyEx (quote.ask.getD 0) known with
    | error x => simp only [hs, bind, Except.bind] at h; cases h
    | ok found =>
      cases hl : buyLoop symbol minSpread notional depth now known rest with
      | error x => simp only [hs, hl, bind, Except.bind] at h; cases h
      | ok more =>
        simp only [hs, hl, bind, Except.bind] at h
        cases h
        exact .inr ⟨found, more, rfl, rfl, rfl⟩

theorem sellLoop_mem {buyEx : String} {topAsk : ℚ} {names : List (String × Quote)}
    {opps : List Opportunity} {opp : Opportunity}
    (h : sellLoop symbol minSpread notional depth now buyEx topAsk names = .ok opps)
    (hmem : opp ∈ opps) :
    ∃ s ∈ names, s.1 ≠ buyEx ∧
      spreadRoute symbol minSpread notional depth now buyEx topAsk s.1 (s.2.bid.getD 0) =
        .ok (some opp) := by
  induction names generalizing opps with
  | nil =>
    cases h
    cases hmem
  | cons s rest ih =>
    obtain ⟨sellEx, quote⟩ := s
    have hlater : ∀ {more : List Opportunity},
        sellLoop symbol minSpread notional depth now buyEx topAsk rest = .ok more → opp ∈ more →
        ∃ s ∈ (sellEx, quote) :: rest, s.1 ≠ buyEx ∧
          spreadRoute symbol minSpread notional depth now buyEx topAsk s.1 (s.2.bid.getD 0) =
            .ok (some opp) := by
      intro more hrest hopp
      obtain ⟨s, hs, hroute⟩ := ih hrest hopp
      exact ⟨s, List.mem_cons_of_mem _ hs, hroute⟩
    rcases sellLoop_cons h with hrest | ⟨hne, found, more, hroute, hrest, rfl⟩
    · exact hlater hrest hmem
    · rcases List.mem_append.mp hmem with hfound | hmore
      · rw [Option.mem_toList] at hfound
        rw [hfound] at hroute
        exact ⟨(sellEx, quote), List.mem_cons_self, hne, hroute⟩
      · exact hlater hrest hmore

theorem buyLoop_mem {known names : List (String × Quote)} {opps : List Opportunity}
    {opp : Opportunity}
    (h : buyLoop symbol minSpread notional depth now known names = .ok opps)
    (hmem : opp ∈ opps) :
    ∃ b ∈ names, ∃ s ∈ known, s.1 ≠ b.1 ∧
      spreadRoute symbol minSpread notional depth now b.1 (b.2.ask.getD 0) s.1
        (s.2.bid.getD 0) = .ok (some opp) := by
  induction names generalizing opps with
  | nil =>
    cases h
    cases hmem
  | cons b rest ih =>
    obtain ⟨buyEx, quote⟩ := b
    rcases buyLoop_cons h with hrest | ⟨found, more, hsell, hrest, rfl⟩
    · obtain ⟨b, hb, hroute⟩ := ih hrest hmem
      exact ⟨b, List.mem_cons_of_mem _ hb, hroute⟩
    · rcases List.mem_append.mp hmem with hfound | hmore
      · obtain ⟨s, hs, hne, hroute⟩ := sellLoop_mem hsell hfound
        exact ⟨(buyEx, quote), List.mem_cons_self, s, hs, hne, hroute⟩
      · obtain ⟨b, hb, hroute⟩ := ih hrest hmore
        exact ⟨b, List.mem_cons_of_mem _ hb, hroute⟩

theorem calculateSpreads_mem {prices : List (String × Quote)} {opps : List Opportunity}
    {opp : Opportunity}
    (h : calculateSpreads symbol prices minSpread notional depth now = .ok opps)
    (hmem : opp ∈ opps) :
    opp.buyExchange ≠ opp.sellExchange ∧ ∃ topAsk topBid buyPrice sellPrice,
      RouteOf symbol notional now opp.buyExchange opp.sellExchange buyPrice sellPrice opp ∧
      routePrices notional (depth.lookup opp.buyExchange) (depth.lookup opp.sellExchange)
        topAsk topBid = .ok (some (buyPrice, sellPrice)) := by
  obtain ⟨b, -, s, -, hne, hroute⟩ := buyLoop_mem h hmem
  obtain ⟨buyPrice, sellPrice, hof, hprices⟩ := spreadRoute_some hroute
  have hb := hof.buyExchange
  have hs := hof.sellExchange
  rw [← hb, ← hs] at hof hprices hne
  exact ⟨hne.symm, _, _, buyPrice, sellPrice, hof, hprices⟩

theorem sellLoop_routes {buyEx : String} {topAsk : ℚ} {names : List (String × Quote)}
    {opps : List Opportunity}
    (h : sellLoop symbol minSpread notional depth now buyEx topAsk names = .ok opps) :
    (opps.map Opportunity.exchanges).Sublist ((names.map Prod.fst).map (Prod.mk buyEx)) := by
  induction names generalizing opps with
  | nil =>
    cases h
    exact List.Sublist.refl _
  | cons s rest ih =>
    obtain ⟨sellEx, quote⟩ := s
    rcases sellLoop_cons h with hrest | ⟨-, found, more, hr, hrest, rfl⟩
    · exact (ih hrest).cons _
    · cases found with
      | none => exact (ih hrest).cons _
      | some opp =>
        obtain ⟨buyPrice, sellPrice, hof, -⟩ := spreadRoute_some hr
        have hroute : opp.exchanges = (buyEx, sellEx) := by
          rw [Opportunity.exchanges, hof.buyExchange, hof.sellExchange]
        simp only [Option.toList_some, List.singleton_append, List.map_cons, hroute]
        exact (ih hrest).cons_cons _

theorem buyLoop_routes {known names : List (String × Quote)} {opps : List Opportunity}
    (h : buyLoop symbol minSpread notional depth now known names = .ok opps) :
    (opps.map Opportunity.exchanges).Sublist
      ((names.map Prod.fst).product (known.map Prod.fst)) := by
  induction names generalizing opps with
  | nil =>
    cases h
    exact List.Sublist.refl _
  | cons b rest ih =>
    obtain ⟨buyEx, quote⟩ := b
    rcases buyLoop_cons h with hrest | ⟨found, more, hsell, hrest, rfl⟩
    · exact (ih hrest).trans (List.sublist_append_right _ _)
    · rw [List.map_append]
      exact (sellLoop_routes hsell).append (ih hrest)

theorem calculateSpreads_routes {prices : List (String × Quote)} {opps : List Opportunity}
    (h : calculateSpreads symbol prices minSpread notional depth now = .ok opps)
    (hnd : (prices.map Prod.fst).Nodup) : (opps.map Opportunity.exchanges).Nodup := by
  have hknown : ((prices.filter fun p => (exchangeConfig p.1).isSome).map Prod.fst).Nodup :=
    hnd.sublist (List.filter_sublist.map _)
  exact (hknown.product hknown).sublist (buyLoop_routes h)

end Loops

end

end CriptoParser
