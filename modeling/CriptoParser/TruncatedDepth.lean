import CriptoParser.BestExecution

/-!
The book that is stored against the book the exchange sent: the stored levels are the first
ones of each side, and a walk over them promises no more than the whole side gives.
-/

set_option autoImplicit false

namespace CriptoParser

open Greedy

/-- A level of the exchange as the price and the quantity it starts with. -/
def levelPair (level : List ℚ) : ℚ × ℚ := (level.getD 0 0, level.getD 1 0)

def depthDocument (ts : ℤ) (bids asks : List (ℚ × ℚ)) : Json :=
  .dict [("ts", .num ts), ("bids", .levels bids), ("asks", .levels asks)]

theorem positiveLevels_append (side more : List (ℚ × ℚ)) :
    positiveLevels (side ++ more) = positiveLevels side ++ positiveLevels more := by
  simp [positiveLevels]

theorem askLevels_append (side more : List (ℚ × ℚ)) :
    askLevels (side ++ more) = askLevels side ++ askLevels more := by
  rw [askLevels, positiveLevels_append, List.map_append]
  rfl

theorem bidLevels_append (side more : List (ℚ × ℚ)) :
    bidLevels (side ++ more) = bidLevels side ++ bidLevels more := by
  rw [bidLevels, positiveLevels_append, List.map_append]
  rfl

theorem sideCost_append (side more : List (ℚ × ℚ)) :
    sideCost (side ++ more) = sideCost side + sideCost more := by simp [sideCost]

theorem sideQuantity_append (side more : List (ℚ × ℚ)) :
    sideQuantity (side ++ more) = sideQuantity side + sideQuantity more := by simp [sideQuantity]

theorem sideCost_nonneg (side : List (ℚ × ℚ)) : 0 ≤ sideCost (positiveLevels side) := by
  rw [← askLevels_total]
  exact total_nonneg (askLevels_positive side)

theorem sideQuantity_nonneg (side : List (ℚ × ℚ)) : 0 ≤ sideQuantity (positiveLevels side) := by
  rw [← bidLevels_total]
  exact total_nonneg (bidLevels_positive side)

theorem fill_covered {levels more : List (Level ℚ)} (h : Positive levels) (hmore : Positive more)
    {x : ℚ} (hx : 0 ≤ x) (hc : x ≤ total levels) :
    fill (levels ++ more) x = fill levels x ∧ left (levels ++ more) x = left levels x := by
  have hleft : left levels x = 0 := by
    rw [left_eq h hx, max_eq_left (by linarith)]
  rw [fill_append hmore, left_append hmore, hleft, fill_zero hmore, left_zero hmore]
  exact ⟨add_zero _, rfl⟩

theorem fill_prefix {levels more : List (Level ℚ)} (h : Positive levels) (hmore : Positive more)
    {x : ℚ} (hx : 0 ≤ x) : fill levels x ≤ fill (levels ++ more) x := by
  have hrest := fill_nonneg hmore (left_nonneg h hx)
  rw [fill_append hmore]
  linarith

section
variable [PyText] {side : List (ℚ × ℚ)} (more : List (ℚ × ℚ)) {n a : ℚ}

theorem walkAsks_prefix {amount vwap : ℚ}
    (h : walkAsksForNotional (.levels side) n = .ok (some (amount, vwap))) :
    ∃ amount' vwap', walkAsksForNotional (.levels (side ++ more)) n =
      .ok (some (amount', vwap')) ∧ amount ≤ amount' ∧ vwap' ≤ vwap := by
  obtain ⟨hn, hamount, -⟩ := walkAsksForNotional_some h
  obtain ⟨hcover, rfl, rfl⟩ := (walkAsks_some hn amount vwap).mp h
  have hmore := sideCost_nonneg more
  have hle := fill_prefix (askLevels_positive side) (askLevels_positive more) hn.le
  rw [← askLevels_append] at hle
  refine ⟨_, _, (walkAsks_some hn _ _).mpr ⟨?_, rfl, rfl⟩, hle, ?_⟩
  · rw [positiveLevels_append, sideCost_append]
    linarith
  · exact div_le_div_of_nonneg_left hn.le hamount hle

theorem walkBids_prefix {vwap : ℚ}
    (h : walkBidsForAmount (.levels side) a = .ok (some vwap)) :
    ∃ vwap', walkBidsForAmount (.levels (side ++ more)) a = .ok (some vwap') ∧ vwap ≤ vwap' := by
  obtain ⟨ha, -⟩ := walkBidsForAmount_some h
  obtain ⟨hcover, rfl⟩ := (walkBids_some ha vwap).mp h
  have hmore := sideQuantity_nonneg more
  have hle := fill_prefix (bidLevels_positive side) (bidLevels_positive more) ha.le
  rw [← bidLevels_append] at hle
  refine ⟨_, (walkBids_some ha _).mpr ⟨?_, rfl⟩, div_le_div_of_nonneg_right hle ha.le⟩
  rw [positiveLevels_append, sideQuantity_append]
  linarith

theorem walkAsks_covered (hc : n ≤ sideCost (positiveLevels side)) :
    walkAsksForNotional (.levels side) n = walkAsksForNotional (.levels (side ++ more)) n := by
  by_cases hn : 0 < n
  · rw [← askLevels_total] at hc
    obtain ⟨hfill, hleft⟩ := fill_covered (askLevels_positive side) (askLevels_positive more)
      hn.le hc
    rw [walkAsks_levels side hn, walkAsks_levels (side ++ more) hn, askLevels_append, hfill,
      hleft]
  · simp only [walkAsksForNotional, if_pos (not_lt.mp hn)]

theorem walkBids_covered (hc : a ≤ sideQuantity (positiveLevels side)) :
    walkBidsForAmount (.levels side) a = walkBidsForAmount (.levels (side ++ more)) a := by
  by_cases ha : 0 < a
  · rw [← bidLevels_total] at hc
    obtain ⟨hfill, hleft⟩ := fill_covered (bidLevels_positive side) (bidLevels_positive more)
      ha.le hc
    rw [walkBids_levels side ha, walkBids_levels (side ++ more) ha, bidLevels_append, hfill,
      hleft]
  · simp only [walkBidsForAmount, if_pos (not_lt.mp ha)]

omit [PyText] in
theorem topLevels_ok (levels : ℕ) {book : List (List ℚ)} (h : ∀ level ∈ book, 2 ≤ level.length) :
    topLevels levels book = .ok ((book.map levelPair).take levels) := by
  unfold topLevels
  rw [← List.map_take]
  have hall : ∀ level ∈ book.take levels, 2 ≤ level.length := fun level hl =>
    h level (List.mem_of_mem_take hl)
  generalize book.take levels = top at hall
  induction top with
  | nil => rfl
  | cons level rest ih =>
    have hrest := ih fun l hl => hall l (List.mem_cons_of_mem _ hl)
    have hlevel : unpackLevel level = .ok (levelPair level) := by
      have hlen := hall level List.mem_cons_self
      match level, hlen with
      | p :: q :: _, _ => rfl
    rw [List.mapM_cons, hlevel, hrest]
    rfl

theorem depthText_ne (ts : ℤ) (bids asks : List (ℚ × ℚ)) : depthText ts bids asks ≠ "" := by
  simp [depthText]

theorem parseDepth_text {ts : ℤ} {bids asks : List (ℚ × ℚ)} (hb : bids ≠ []) (ha : asks ≠ [])
    (hjson : PyText.loads (depthText ts bids asks) = some (depthDocument ts bids asks)) :
    parseDepth (some (depthText ts bids asks)) =
      .ok (some ⟨ts, .levels bids, .levels asks⟩) := by
  have htruthy : ∀ side : List (ℚ × ℚ), side ≠ [] → (JsonOf.levels side).truthy = true := by
    intro side hside
    cases side with
    | nil => exact absurd rfl hside
    | cons pq rest => rfl
  have hts : pyInt (ts : ℚ) = ts := by
    unfold pyInt
    split <;> simp
  have hgetBids : (depthDocument ts bids asks).get "bids" = .ok (some (.levels bids)) := rfl
  have hgetAsks : (depthDocument ts bids asks).get "asks" = .ok (some (.levels asks)) := rfl
  have hgetTs : (depthDocument ts bids asks).get "ts" = .ok (some (.num ts)) := rfl
  have hread : readDepth (depthText ts bids asks) =
      .ok (some ⟨ts, .levels bids, .levels asks⟩) := by
    simp [readDepth, hjson, hgetBids, hgetAsks, hgetTs, bind, Except.bind, Option.filter,
      htruthy bids hb, htruthy asks ha, Json.toInt, JsonOf.convert, ExactNumber.toInt, hts]
  rw [parseDepth, if_neg (depthText_ne ts bids asks), hread]

/-- The stored book of a full one is read back, and it is conservative: what its walks find
the full sides give at no worse a price, and what its levels cover is found alike. -/
theorem stored_depth_conservative {bids asks : List (List ℚ)} (ts : ℤ) (hb : bids ≠ [])
    (ha : asks ≠ []) (hlevels : ∀ level ∈ bids ++ asks, 2 ≤ level.length)
    (hjson : PyText.loads (depthText ts ((bids.map levelPair).take depthLevels)
        ((asks.map levelPair).take depthLevels)) =
      some (depthDocument ts ((bids.map levelPair).take depthLevels)
        ((asks.map levelPair).take depthLevels))) :
    ∃ raw d, dumpDepth bids asks ts depthLevels = .ok raw ∧ parseDepth (some raw) = .ok (some d) ∧
      d.ts = ts ∧
      (∀ n amount vwap, walkAsksForNotional d.asks n = .ok (some (amount, vwap)) →
        ∃ amount' vwap', walkAsksForNotional (.levels (asks.map levelPair)) n =
          .ok (some (amount', vwap')) ∧ amount ≤ amount' ∧ vwap' ≤ vwap) ∧
      (∀ a vwap, walkBidsForAmount d.bids a = .ok (some vwap) →
        ∃ vwap', walkBidsForAmount (.levels (bids.map levelPair)) a = .ok (some vwap') ∧
          vwap ≤ vwap') ∧
      (∀ n, n ≤ sideCost (positiveLevels ((asks.map levelPair).take depthLevels)) →
        walkAsksForNotional d.asks n = walkAsksForNotional (.levels (asks.map levelPair)) n) ∧
      ∀ a, a ≤ sideQuantity (positiveLevels ((bids.map levelPair).take depthLevels)) →
        walkBidsForAmount d.bids a = walkBidsForAmount (.levels (bids.map levelPair)) a := by
  have hbids := topLevels_ok depthLevels fun level hl =>
    hlevels level (List.mem_append_left asks hl)
  have hasks := topLevels_ok depthLevels fun level hl =>
    hlevels level (List.mem_append_right bids hl)
  have hdump : dumpDepth bids asks ts depthLevels =
      .ok (depthText ts ((bids.map levelPair).take depthLevels)
        ((asks.map levelPair).take depthLevels)) := by
    rw [dumpDepth, hbids, hasks]
    rfl
  have hne : ∀ book : List (List ℚ), book ≠ [] → (book.map levelPair).take depthLevels ≠ [] := by
    intro book hbook
    simp [depthLevels, hbook]
  have hparse := parseDepth_text (hne bids hb) (hne asks ha) hjson
  refine ⟨_, _, hdump, hparse, rfl, ?_, ?_, ?_, ?_⟩
  · intro n amount vwap h
    have hwhole := walkAsks_prefix ((asks.map levelPair).drop depthLevels) h
    rwa [List.take_append_drop] at hwhole
  · intro a vwap h
    have hwhole := walkBids_prefix ((bids.map levelPair).drop depthLevels) h
    rwa [List.take_append_drop] at hwhole
  · intro n hc
    have hwhole := walkAsks_covered ((asks.map levelPair).drop depthLevels) hc
    rwa [List.take_append_drop] at hwhole
  · intro a hc
    have hwhole := walkBids_covered ((bids.map levelPair).drop depthLevels) hc
    rwa [List.take_append_drop] at hwhole

end

/-- Eleven levels of a unit a side; the bids carry a third number. -/
def deepBids : List (List ℚ) := List.replicate 11 [100, 1, 7]

def deepAsks : List (List ℚ) := List.replicate 11 [101, 1]

def deepNumbers : List (String × ℚ) := [("1.0", 1), ("100.0", 100), ("101.0", 101)]

def deepText : String :=
  @depthText (.ofTables deepNumbers []) 5 (List.replicate 10 (100, 1)) (List.replicate 10 (101, 1))

@[reducible] def deepReader : PyText :=
  .ofTables deepNumbers [(deepText,
    depthDocument 5 (List.replicate 10 (100, 1)) (List.replicate 10 (101, 1)))]

/-- Ten of the eleven levels are stored; they cover ten units. -/
theorem stored_depth_conservative_ten :
    ∃ raw d, @dumpDepth deepReader deepBids deepAsks 5 depthLevels = .ok raw ∧
      @parseDepth deepReader (some raw) = .ok (some d) ∧ d.ts = 5 ∧
      @walkAsksForNotional deepReader d.asks 1010 =
        @walkAsksForNotional deepReader (.levels (deepAsks.map levelPair)) 1010 ∧
      @walkBidsForAmount deepReader d.bids 10 =
        @walkBidsForAmount deepReader (.levels (deepBids.map levelPair)) 10 := by
  have hbids : (deepBids.map levelPair).take depthLevels = List.replicate 10 (100, 1) := by
    decide +kernel
  have hasks : (deepAsks.map levelPair).take depthLevels = List.replicate 10 (101, 1) := by
    decide +kernel
  obtain ⟨raw, d, hdump, hparse, hts, -, -, hasks, hbids⟩ :=
    @stored_depth_conservative deepReader deepBids deepAsks 5 (by decide) (by decide)
      (by decide) (by
        rw [hbids, hasks]
        change List.lookup deepText [(deepText, _)] = _
        simp)
  exact ⟨raw, d, hdump, hparse, hts, hasks 1010 (by decide +kernel),
    hbids 10 (by decide +kernel)⟩

end CriptoParser
