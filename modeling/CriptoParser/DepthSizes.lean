import CriptoParser.GreedyFill
import CriptoParser.SpreadProfit

set_option autoImplicit false

namespace CriptoParser

open Greedy

def positiveLevels (side : List (ℚ × ℚ)) : List (ℚ × ℚ) :=
  side.filter fun pq => 0 < pq.1 ∧ 0 < pq.2

def askLevels (side : List (ℚ × ℚ)) : List (Level ℚ) :=
  (positiveLevels side).map fun pq => ⟨pq.1 * pq.2, 1 / pq.1⟩

def bidLevels (side : List (ℚ × ℚ)) : List (Level ℚ) :=
  (positiveLevels side).map fun pq => ⟨pq.2, pq.1⟩

/-- The positive asks go up, the positive bids go down. -/
structure Book.Sorted (b : Book) : Prop where
  asks : (positiveLevels b.asks).Pairwise fun x y => x.1 ≤ y.1
  bids : (positiveLevels b.bids).Pairwise fun x y => y.1 ≤ x.1

theorem mem_positiveLevels {side : List (ℚ × ℚ)} {pq : ℚ × ℚ} :
    pq ∈ positiveLevels side ↔ pq ∈ side ∧ 0 < pq.1 ∧ 0 < pq.2 := by
  simp [positiveLevels]

theorem positiveLevels_cons (pq : ℚ × ℚ) (rest : List (ℚ × ℚ)) :
    positiveLevels (pq :: rest) =
      if pq.1 ≤ 0 ∨ pq.2 ≤ 0 then positiveLevels rest else pq :: positiveLevels rest := by
  unfold positiveLevels
  rw [List.filter_cons]
  by_cases h : 0 < pq.1 ∧ 0 < pq.2
  · have hno : ¬(pq.1 ≤ 0 ∨ pq.2 ≤ 0) := by simpa using h
    simp [h, hno]
  · have hno : pq.1 ≤ 0 ∨ pq.2 ≤ 0 := by
      by_contra hc
      push Not at hc
      exact h hc
    rw [if_pos hno]
    simp [h]

theorem askLevels_positive (side : List (ℚ × ℚ)) : Positive (askLevels side) := by
  intro l hl
  obtain ⟨pq, hpq, rfl⟩ := List.mem_map.mp hl
  obtain ⟨-, hp, hq⟩ := mem_positiveLevels.mp hpq
  exact ⟨mul_pos hp hq, one_div_pos.mpr hp⟩

theorem bidLevels_positive (side : List (ℚ × ℚ)) : Positive (bidLevels side) := by
  intro l hl
  obtain ⟨pq, hpq, rfl⟩ := List.mem_map.mp hl
  obtain ⟨-, hp, hq⟩ := mem_positiveLevels.mp hpq
  exact ⟨hq, hp⟩

theorem askLevels_bestFirst {side : List (ℚ × ℚ)}
    (h : (positiveLevels side).Pairwise fun x y => x.1 ≤ y.1) : BestFirst (askLevels side) := by
  refine List.pairwise_map.mpr (h.imp_of_mem ?_)
  intro x y hx hy hxy
  exact one_div_le_one_div_of_le (mem_positiveLevels.mp hx).2.1 hxy

theorem bidLevels_bestFirst {side : List (ℚ × ℚ)}
    (h : (positiveLevels side).Pairwise fun x y => y.1 ≤ x.1) : BestFirst (bidLevels side) :=
  List.pairwise_map.mpr h

def grossSpread (buyPrice sellPrice : ℚ) : ℚ := (sellPrice - buyPrice) / buyPrice * 100

theorem left_tolerance {levels : List (Level ℚ)} (h : Positive levels) {x y : ℚ} (hx : 0 < x)
    (hxy : x ≤ y) (hy : left levels y ≤ depthEps * y) : left levels x ≤ depthEps * x := by
  have hpos : 0 < y := hx.trans_le hxy
  have hshare := left_share h hx.le hxy
  have hscaled := mul_le_mul_of_nonneg_right hy hx.le
  have hboth : left levels x * y ≤ depthEps * x * y := by linarith
  exact le_of_mul_le_mul_right hboth hpos

theorem average_anti {levels : List (Level ℚ)} (h : Positive levels) (hs : BestFirst levels)
    {x y : ℚ} (hx : 0 < x) (hxy : x ≤ y) : fill levels y / y ≤ fill levels x / x := by
  rw [div_le_div_iff₀ (hx.trans_le hxy) hx]
  exact fill_average h hs hx.le hxy

theorem grossSpread_mono {b b' s s' : ℚ} (hb : 0 < b) (hbb : b ≤ b') (hs : 0 ≤ s') (hss : s' ≤ s) :
    grossSpread b' s' ≤ grossSpread b s := by
  have hratio : s' / b' ≤ s / b := div_le_div₀ (hs.trans hss) hss hb hbb
  have hform : ∀ {x y : ℚ}, 0 < x → grossSpread x y = (y / x - 1) * 100 := by
    intro x y hx
    unfold grossSpread
    field_simp
  rw [hform hb, hform (hb.trans_le hbb)]
  linarith

section
variable [PyText]

def Json.level (pq : ℚ × ℚ) : Json := .list [.num pq.1, .num pq.2]

theorem readLevel_level (pq : ℚ × ℚ) : readLevel (Json.level pq) = .ok pq := rfl

theorem walkAsksLoop_fill (side : List (ℚ × ℚ)) {remaining : ℚ} (amount : ℚ) :
    walkAsksLoop (side.map Json.level) remaining amount =
      .ok (left (askLevels side) remaining, amount + fill (askLevels side) remaining) := by
  induction side generalizing remaining amount with
  | nil => simp [walkAsksLoop, askLevels, positiveLevels, left, fill]
  | cons pq rest ih =>
    unfold walkAsksLoop
    simp only [List.map_cons, readLevel_level, askLevels, positiveLevels_cons]
    by_cases hskip : pq.1 ≤ 0 ∨ pq.2 ≤ 0
    · rw [if_pos hskip, if_pos hskip]
      exact ih amount
    · rw [if_neg hskip, if_neg hskip]
      simp only [List.map_cons, left, fill]
      by_cases hlast : remaining ≤ pq.1 * pq.2
      · simp only [if_pos hlast]
        rw [one_div, inv_mul_eq_div]
      · obtain ⟨hp, -⟩ : 0 < pq.1 ∧ 0 < pq.2 := by simpa using hskip
        have hall : 1 / pq.1 * (pq.1 * pq.2) = pq.2 := by field_simp
        simp only [if_neg hlast, ih, hall, add_assoc]
        rfl

theorem walkBidsLoop_fill (side : List (ℚ × ℚ)) {remaining : ℚ} (proceeds : ℚ)
    (hpos : 0 < remaining) :
    walkBidsLoop (side.map Json.level) remaining proceeds =
      .ok (left (bidLevels side) remaining, proceeds + fill (bidLevels side) remaining) := by
  induction side generalizing remaining proceeds with
  | nil => simp [walkBidsLoop, bidLevels, positiveLevels, left, fill]
  | cons pq rest ih =>
    unfold walkBidsLoop
    simp only [List.map_cons, readLevel_level, bidLevels, positiveLevels_cons]
    by_cases hskip : pq.1 ≤ 0 ∨ pq.2 ≤ 0
    · rw [if_pos hskip, if_pos hskip]
      exact ih proceeds hpos
    · rw [if_neg hskip, if_neg hskip]
      simp only [List.map_cons, left, fill]
      by_cases hlast : remaining ≤ pq.2
      · rw [if_neg (not_lt.mpr hlast), if_pos hlast, if_pos hlast]
        simp [mul_comm]
      · have hlt := not_le.mp hlast
        rw [if_pos hlt, if_neg hlast, if_neg hlast, if_neg (by linarith)]
        rw [ih _ (by linarith), mul_comm pq.2, add_assoc]
        rfl

theorem walkAsks_levels (side : List (ℚ × ℚ)) {n : ℚ} (hn : 0 < n) :
    walkAsksForNotional (.levels side) n =
      if depthEps * n < left (askLevels side) n ∨ fill (askLevels side) n ≤ 0 then .ok none
      else .ok (some (fill (askLevels side) n, n / fill (askLevels side) n)) := by
  have hloop := @walkAsksLoop_fill _ side n 0
  rw [zero_add] at hloop
  have hitems : (JsonOf.levels side).items = .ok (side.map Json.level) := rfl
  simp only [walkAsksForNotional, if_neg (not_le.mpr hn), hitems, hloop, bind, Except.bind]

theorem walkBids_levels (side : List (ℚ × ℚ)) {a : ℚ} (ha : 0 < a) :
    walkBidsForAmount (.levels side) a =
      if depthEps * a < left (bidLevels side) a then .ok none
      else .ok (some (fill (bidLevels side) a / a)) := by
  have hloop := walkBidsLoop_fill side 0 ha
  rw [zero_add] at hloop
  have hitems : (JsonOf.levels side).items = .ok (side.map Json.level) := rfl
  simp only [walkBidsForAmount, if_neg (not_le.mpr ha), hitems, hloop, bind, Except.bind]

/-- The round trip: the notional buys `amount` at `buyPrice`, which sells at `sellPrice`. -/
structure RoundTrip (buy sell : Book) (notional amount buyPrice sellPrice : ℚ) : Prop where
  asks : walkAsksForNotional buy.depth.asks notional = .ok (some (amount, buyPrice))
  bids : walkBidsForAmount sell.depth.bids amount = .ok (some sellPrice)

theorem roundTrip_iff (buy sell : Book) {n : ℚ} (hn : 0 < n) (a b s : ℚ) :
    RoundTrip buy sell n a b s ↔
      left (askLevels buy.asks) n ≤ depthEps * n ∧ 0 < a ∧
        left (bidLevels sell.bids) a ≤ depthEps * a ∧ a = fill (askLevels buy.asks) n ∧
        b = n / a ∧ s = fill (bidLevels sell.bids) a / a := by
  have hasks := walkAsks_levels buy.asks hn
  constructor
  · intro h
    obtain ⟨h₁, h₂⟩ := h
    obtain ⟨-, ha, rfl⟩ := walkAsksForNotional_some h₁
    have hbids := walkBids_levels sell.bids ha
    rw [Book.depth, hasks] at h₁
    rw [Book.depth, hbids] at h₂
    split at h₁
    · cases h₁
    · rename_i hleft
      split at h₂
      · cases h₂
      · rename_i hrest
        cases h₁
        cases h₂
        exact ⟨not_lt.mp fun hl => hleft (.inl hl), ha, not_lt.mp hrest, rfl, rfl, rfl⟩
  · intro h
    obtain ⟨hleft, ha, hrest, rfl, rfl, rfl⟩ := h
    have hbids := walkBids_levels sell.bids ha
    constructor
    · rw [Book.depth, hasks, if_neg (by simp [hleft, ha])]
    · rw [Book.depth, hbids, if_neg (not_lt.mpr hrest)]

theorem RoundTrip.smaller {buy sell : Book} (hbuy : buy.Sorted) (hsell : sell.Sorted)
    {n₁ n₂ a₂ b₂ s₂ : ℚ} (hn : 0 < n₁) (hle : n₁ ≤ n₂) (h : RoundTrip buy sell n₂ a₂ b₂ s₂) :
    ∃ a₁ b₁ s₁, RoundTrip buy sell n₁ a₁ b₁ s₁ ∧ a₁ ≤ a₂ ∧ 0 < b₁ ∧ b₁ ≤ b₂ ∧ 0 ≤ s₂ ∧
      s₂ ≤ s₁ := by
  have hn₂ : 0 < n₂ := hn.trans_le hle
  obtain ⟨hleft, ha, hrest, rfl, rfl, rfl⟩ := (roundTrip_iff buy sell hn₂ _ _ _).mp h
  have hasks := askLevels_positive buy.asks
  have hbids := bidLevels_positive sell.bids
  have hne : askLevels buy.asks ≠ [] := by
    intro hnil
    rw [hnil] at ha
    exact lt_irrefl 0 ha
  have hamount : 0 < fill (askLevels buy.asks) n₁ := fill_pos hasks hne hn
  have hmono := fill_mono hasks hle
  have haverage := average_anti hasks (askLevels_bestFirst hbuy.asks) hn hle
  refine ⟨_, _, _, (roundTrip_iff buy sell hn _ _ _).mpr ⟨left_tolerance hasks hn hle hleft,
    hamount, left_tolerance hbids hamount hmono hrest, rfl, rfl, rfl⟩, hmono,
    div_pos hn hamount, ?_, ?_, average_anti hbids (bidLevels_bestFirst hsell.bids) hamount hmono⟩
  · have hinv := one_div_le_one_div_of_le (div_pos ha hn₂) haverage
    rwa [one_div_div, one_div_div] at hinv
  · exact div_nonneg (fill_nonneg hbids ha.le) ha.le

/-- The best prices of a side: the least positive ask, the greatest positive bid. -/
def BestAsk (b : Book) (p : ℚ) : Prop := IsLeast {x | ∃ pq ∈ positiveLevels b.asks, pq.1 = x} p

def BestBid (b : Book) (p : ℚ) : Prop := IsGreatest {x | ∃ pq ∈ positiveLevels b.bids, pq.1 = x} p

theorem RoundTrip.best {buy sell : Book} {n a b s ask bid : ℚ} (hn : 0 < n)
    (h : RoundTrip buy sell n a b s) (hask : BestAsk buy ask) (hbid : BestBid sell bid) :
    0 < ask ∧ ask ≤ b ∧ 0 ≤ s ∧ s ≤ bid := by
  obtain ⟨-, ha, -, rfl, rfl, rfl⟩ := (roundTrip_iff buy sell hn _ _ _).mp h
  have hasks := askLevels_positive buy.asks
  have hbids := bidLevels_positive sell.bids
  obtain ⟨⟨pq, hpq, rfl⟩, hleast⟩ := hask
  obtain ⟨⟨pq', hpq', rfl⟩, hgreatest⟩ := hbid
  have hask0 : 0 < pq.1 := (mem_positiveLevels.mp hpq).2.1
  have hbid0 : 0 < pq'.1 := (mem_positiveLevels.mp hpq').2.1
  have hbought : fill (askLevels buy.asks) n ≤ 1 / pq.1 * n := by
    refine fill_le hasks (fun l hl => ?_) (one_div_pos.mpr hask0).le hn.le
    obtain ⟨x, hx, rfl⟩ := List.mem_map.mp hl
    exact one_div_le_one_div_of_le hask0 (hleast ⟨x, hx, rfl⟩)
  have hsold : fill (bidLevels sell.bids) (fill (askLevels buy.asks) n) ≤
      pq'.1 * fill (askLevels buy.asks) n := by
    refine fill_le hbids (fun l hl => ?_) hbid0.le ha.le
    obtain ⟨x, hx, rfl⟩ := List.mem_map.mp hl
    exact hgreatest ⟨x, hx, rfl⟩
  refine ⟨hask0, ?_, div_nonneg (fill_nonneg hbids ha.le) ha.le, ?_⟩
  · rw [le_div_iff₀ ha]
    calc pq.1 * fill (askLevels buy.asks) n ≤ pq.1 * (1 / pq.1 * n) :=
          mul_le_mul_of_nonneg_left hbought hask0.le
      _ = n := by field_simp
  · rw [div_le_iff₀ ha]
    exact hsold

theorem calculateSpreads_roundTrip {symbol : String} {prices : List (String × Quote)}
    {minSpread n : ℚ} {depth : List (String × Depth)} {now : ℤ} {opps : List Opportunity}
    {opp : Opportunity} {buy sell : Book}
    (hemit : calculateSpreads symbol prices minSpread n depth now = .ok opps) (hopp : opp ∈ opps)
    (hbuy : depth.lookup opp.buyExchange = some buy.depth)
    (hsell : depth.lookup opp.sellExchange = some sell.depth) :
    ∃ amount, RoundTrip buy sell n amount opp.buyPrice opp.sellPrice ∧
      opp.grossSpreadPct = pyRound (grossSpread opp.buyPrice opp.sellPrice) 4 := by
  obtain ⟨b, -, s, -, -, hroute⟩ := buyLoop_mem hemit hopp
  obtain ⟨buyPrice, sellPrice, hprices, -, hr⟩ := spreadRoute_routed hroute
  obtain ⟨hof, hspread, -⟩ := routeOpportunity_spec hr
  rw [← hof.buyExchange, ← hof.sellExchange, hbuy, hsell] at hprices
  obtain ⟨amount, hasks, hbids⟩ := routePrices_walks hprices
  rw [hof.buyPrice_eq, hof.sellPrice_eq]
  exact ⟨amount, ⟨hasks, hbids⟩, hspread⟩

/-- On sorted books a smaller size never gets a worse spread, no size beats the tops of the
books, and what the scanner has priced by depth the executor fills at any smaller size. The
published spread has four digits: it is compared at four digits. -/
theorem smaller_size_no_worse {buy sell : Book} (hbuy : buy.Sorted) (hsell : sell.Sorted) :
    (∀ n₁ n₂ a₂ b₂ s₂, 0 < n₁ → n₁ ≤ n₂ → RoundTrip buy sell n₂ a₂ b₂ s₂ →
      ∃ a₁ b₁ s₁, RoundTrip buy sell n₁ a₁ b₁ s₁ ∧ a₁ ≤ a₂ ∧ b₁ ≤ b₂ ∧ s₂ ≤ s₁ ∧
        grossSpread b₂ s₂ ≤ grossSpread b₁ s₁) ∧
    (∀ n a b s ask bid, 0 < n → RoundTrip buy sell n a b s → BestAsk buy ask → BestBid sell bid →
      grossSpread b s ≤ (bid - ask) / ask * 100) ∧
    (∀ symbol prices minSpread n₂ depth now opps opp,
      calculateSpreads symbol prices minSpread n₂ depth now = .ok opps → opp ∈ opps →
      depth.lookup opp.buyExchange = some buy.depth →
      depth.lookup opp.sellExchange = some sell.depth →
      ∀ n₁ rawBuy rawSell nowMs, 0 < n₁ → n₁ ≤ n₂ →
        parseDepth rawBuy = .ok (some buy.depth) → parseDepth rawSell = .ok (some sell.depth) →
        isFresh (some buy.depth) nowMs depthMaxAgeMs = true →
        isFresh (some sell.depth) nowMs depthMaxAgeMs = true →
        ∃ f, fillFromDepth rawBuy rawSell nowMs n₁ = .ok (some f) ∧
          grossSpread opp.buyPrice opp.sellPrice ≤ grossSpread f.effectiveBuy f.effectiveSell ∧
          opp.grossSpreadPct ≤ pyRound (grossSpread f.effectiveBuy f.effectiveSell) 4) := by
  have hsmaller : ∀ n₁ n₂ a₂ b₂ s₂, 0 < n₁ → n₁ ≤ n₂ → RoundTrip buy sell n₂ a₂ b₂ s₂ →
      ∃ a₁ b₁ s₁, RoundTrip buy sell n₁ a₁ b₁ s₁ ∧ a₁ ≤ a₂ ∧ b₁ ≤ b₂ ∧ s₂ ≤ s₁ ∧
        grossSpread b₂ s₂ ≤ grossSpread b₁ s₁ := by
    intro n₁ n₂ a₂ b₂ s₂ hn hle h
    obtain ⟨a₁, b₁, s₁, h₁, ha, hb0, hb, hs0, hs⟩ := h.smaller hbuy hsell hn hle
    exact ⟨a₁, b₁, s₁, h₁, ha, hb, hs, grossSpread_mono hb0 hb hs0 hs⟩
  refine ⟨hsmaller, ?_, ?_⟩
  · intro n a b s ask bid hn h hask hbid
    obtain ⟨hask0, hask, hs0, hbid⟩ := h.best hn hask hbid
    exact grossSpread_mono hask0 hask hs0 hbid
  · intro symbol prices minSpread n₂ depth now opps opp hemit hopp hlookBuy hlookSell n₁ rawBuy
      rawSell nowMs hn hle hrawBuy hrawSell hfreshBuy hfreshSell
    obtain ⟨amount, htrip, hspread⟩ := calculateSpreads_roundTrip hemit hopp hlookBuy hlookSell
    obtain ⟨a₁, b₁, s₁, h₁, -, -, -, hgross⟩ := hsmaller n₁ n₂ _ _ _ hn hle htrip
    obtain ⟨f, hf, -, hb, hs⟩ := fillFromDepth_books hrawBuy hrawSell hfreshBuy hfreshSell
      h₁.asks h₁.bids
    refine ⟨f, hf, ?_, ?_⟩
    · rw [hb, hs]
      exact hgross
    · rw [hspread, hb, hs]
      exact pyRound_mono hgross 4

end

/-- Two thousand takes three levels of each side, eight hundred takes two. -/
theorem smaller_size_no_worse_three :
    let book : Book := ⟨0, threeLevelBids, threeLevelAsks⟩
    ∃ a b s, @RoundTrip threeLevelText book book 800 a b s ∧
      a ≤ 2020 / 103 ∧ b ≤ 10300 / 101 ∧ 2000097 / 20200 ≤ s ∧
      grossSpread (10300 / 101) (2000097 / 20200) ≤ grossSpread b s := by
  intro book
  have hsorted : book.Sorted := ⟨by decide +kernel, by decide +kernel⟩
  have hall := @smaller_size_no_worse threeLevelText book book hsorted hsorted
  refine hall.1 800 2000 (2020 / 103) (10300 / 101) (2000097 / 20200) (by decide +kernel)
    (by decide +kernel) ?_
  exact @RoundTrip.mk threeLevelText _ _ _ _ _ _ (by decide +kernel) (by decide +kernel)

/-- A spread of 0.30006 percent is published as 0.3001; at half the size it is 0.30006 again. -/
theorem published_above_filled :
    routeSpreads "100.30006" (10030006 / 100000) =
      .ok [routeOpp (10030006 / 100000) (3001 / 10000) (1001 / 10000)] ∧
    @fillFromDepth (bookReader "100.30006" (10030006 / 100000)) (some (bookText "99" "100"))
      (some (bookText "100.30006" "102")) 0 500 =
        .ok (some ⟨5, 100, 10030006 / 100000, 100, 10030006 / 100000⟩) ∧
    grossSpread 100 (10030006 / 100000) <
      (routeOpp (10030006 / 100000) (3001 / 10000) (1001 / 10000)).grossSpreadPct := by
  decide +kernel

end CriptoParser
