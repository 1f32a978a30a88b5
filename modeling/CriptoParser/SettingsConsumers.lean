import CriptoParser.FloatRoutes
import CriptoParser.GatewaySettings

set_option autoImplicit false

namespace CriptoParser

namespace Floating

section
variable [PyText] [PyReader] {symbol : String} {minSpread notional : PyFloat}
  {depth : List (String × Depth)} {now : ℤ}

theorem sellLoop_fine {buyEx : String} {topAsk : PyFloat} (names : List (String × Quote)) :
    (∃ opps, sellLoop symbol minSpread notional depth now buyEx topAsk names = .ok opps ∧
      ∀ opp ∈ opps, opp.InOrder) ↔
    ∀ s ∈ names, s.1 ≠ buyEx → (s.2.bid.getD (.finite 0)).le (.finite 0) = false →
      RouteFine symbol minSpread notional depth now buyEx topAsk s.1
        (s.2.bid.getD (.finite 0)) := by
  induction names with
  | nil => simp [sellLoop]
  | cons s rest ih =>
    obtain ⟨sellEx, quote⟩ := s
    unfold sellLoop
    rw [List.forall_mem_cons, ← ih]
    by_cases hskip : sellEx = buyEx ∨ (quote.bid.getD (.finite 0)).le (.finite 0) = true
    · rw [if_pos hskip]
      constructor
      · intro h
        refine ⟨fun hne hpos => ?_, h⟩
        rcases hskip with heq | hle
        · exact absurd heq hne
        · exact absurd (hpos.symm.trans hle) Bool.false_ne_true
      · exact fun h => h.2
    · rw [if_neg hskip]
      obtain ⟨hne, hpos⟩ := not_or.mp hskip
      constructor
      · rintro ⟨opps, hopps, hall⟩
        cases hr : spreadRoute symbol minSpread notional depth now buyEx topAsk sellEx
            (quote.bid.getD (.finite 0)) with
        | error x =>
          simp only [hr, bind, Except.bind] at hopps
          cases hopps
        | ok found =>
          cases hl : sellLoop symbol minSpread notional depth now buyEx topAsk rest with
          | error x =>
            simp only [hr, hl, bind, Except.bind] at hopps
            cases hopps
          | ok more =>
            simp only [hr, hl, bind, Except.bind] at hopps
            obtain rfl := Except.ok.inj hopps
            refine ⟨fun _ _ => ⟨found, hr, fun opp hopp => hall opp ?_⟩,
              more, rfl, fun opp hopp => hall opp (List.mem_append_right _ hopp)⟩
            exact List.mem_append_left _ (Option.mem_toList.mpr hopp)
      · rintro ⟨hroute, more, hl, hmore⟩
        obtain ⟨found, hr, hfound⟩ := hroute hne (Bool.not_eq_true _ ▸ hpos)
        refine ⟨found.toList ++ more, by simp only [hr, hl, bind, Except.bind],
          fun opp hopp => ?_⟩
        rcases List.mem_append.mp hopp with hopp | hopp
        · exact hfound opp (Option.mem_toList.mp hopp)
        · exact hmore opp hopp

theorem buyLoop_fine (known names : List (String × Quote)) :
    (∃ opps, buyLoop symbol minSpread notional depth now known names = .ok opps ∧
      ∀ opp ∈ opps, opp.InOrder) ↔
    ∀ b ∈ names, (b.2.ask.getD (.finite 0)).le (.finite 0) = false →
      ∀ s ∈ known, s.1 ≠ b.1 → (s.2.bid.getD (.finite 0)).le (.finite 0) = false →
        RouteFine symbol minSpread notional depth now b.1 (b.2.ask.getD (.finite 0)) s.1
          (s.2.bid.getD (.finite 0)) := by
  induction names with
  | nil => simp [buyLoop]
  | cons b rest ih =>
    obtain ⟨buyEx, quote⟩ := b
    unfold buyLoop
    rw [List.forall_mem_cons, ← ih]
    by_cases hskip : (quote.ask.getD (.finite 0)).le (.finite 0) = true
    · rw [if_pos hskip]
      refine ⟨fun h => ⟨fun hpos => ?_, h⟩, fun h => h.2⟩
      exact absurd (hpos.symm.trans hskip) Bool.false_ne_true
    · rw [if_neg hskip]
      simp only [Bool.not_eq_true _ ▸ hskip, forall_const]
      rw [← sellLoop_fine known]
      constructor
      · rintro ⟨opps, hopps, hall⟩
        cases hs : sellLoop symbol minSpread notional depth now buyEx
            (quote.ask.getD (.finite 0)) known with
        | error x =>
          simp only [hs, bind, Except.bind] at hopps
          cases hopps
        | ok found =>
          cases hl : buyLoop symbol minSpread notional depth now known rest with
          | error x =>
            simp only [hs, hl, bind, Except.bind] at hopps
            cases hopps
          | ok more =>
            simp only [hs, hl, bind, Except.bind] at hopps
            obtain rfl := Except.ok.inj hopps
            exact ⟨⟨found, rfl, fun opp hopp => hall opp (List.mem_append_left _ hopp)⟩,
              more, rfl, fun opp hopp => hall opp (List.mem_append_right _ hopp)⟩
      · rintro ⟨⟨found, hs, hfound⟩, more, hl, hmore⟩
        refine ⟨found ++ more, by simp only [hs, hl, bind, Except.bind], fun opp hopp => ?_⟩
        rcases List.mem_append.mp hopp with hopp | hopp
        · exact hfound opp hopp
        · exact hmore opp hopp

end

/-- What a call of `calculate_spreads` works on, beside the settings. -/
structure SpreadInput where
  symbol : String
  prices : List (String × Quote)
  depth : List (String × Depth)
  now : ℤ

/-- The quotes are floats, and the walks can read the depth. -/
structure SpreadInput.WellFormed [PyReader] (input : SpreadInput) : Prop where
  asks : ∀ p ∈ input.prices, ∀ x ∈ p.2.ask, x.IsFloat
  bids : ∀ p ∈ input.prices, ∀ x ∈ p.2.bid, x.IsFloat
  depth : ∀ d ∈ input.depth, d.2.WellFormed

def SpreadInput.Routes (input : SpreadInput)
    (cond : String → PyFloat → String → PyFloat → Prop) : Prop :=
  ∀ b ∈ input.prices, (exchangeConfig b.1).isSome →
    (b.2.ask.getD (.finite 0)).le (.finite 0) = false →
      ∀ s ∈ input.prices, (exchangeConfig s.1).isSome → s.1 ≠ b.1 →
        (s.2.bid.getD (.finite 0)).le (.finite 0) = false →
          cond b.1 (b.2.ask.getD (.finite 0)) s.1 (s.2.bid.getD (.finite 0))

section
variable [PyText] [PyReader] {input : SpreadInput} {minSpread notional : PyFloat}

/-- The spreads are computed, and no opportunity has more net spread than gross. -/
def SpreadInput.Fine (input : SpreadInput) (minSpread notional : PyFloat) : Prop :=
  ∃ opps, calculateSpreads input.symbol input.prices minSpread notional input.depth
    input.now = .ok opps ∧ ∀ opp ∈ opps, opp.InOrder

theorem fine_iff : input.Fine minSpread notional ↔ input.Routes
    (RouteFine input.symbol minSpread notional input.depth input.now) := by
  unfold SpreadInput.Fine calculateSpreads SpreadInput.Routes
  rw [buyLoop_fine]
  simp only [List.mem_filter, and_imp]

theorem fine_of (hinput : input.WellFormed)
    (hpriced : input.Routes fun buyEx topAsk sellEx topBid =>
      OnPrices notional input.depth buyEx topAsk sellEx topBid (Priced minSpread notional))
    (hdivided : input.Routes fun buyEx topAsk sellEx topBid =>
      OnPrices notional input.depth buyEx topAsk sellEx topBid (Divided minSpread notional)) :
    input.Fine minSpread notional := by
  rw [fine_iff]
  intro b hb hbuy hask s hs hsell hne hbid
  refine routeFine_of hbuy hsell ?_ hinput.depth
    (hpriced b hb hbuy hask s hs hsell hne hbid) (hdivided b hb hbuy hask s hs hsell hne hbid)
  cases ha : b.2.ask with
  | none =>
    rw [ha] at hask
    cases hask
  | some x => exact hinput.asks b hb x ha

theorem of_fine (h : input.Fine minSpread notional) :
    (input.Routes fun buyEx topAsk sellEx topBid =>
        OnPrices notional input.depth buyEx topAsk sellEx topBid (Priced minSpread notional)) ∧
      ((∀ n, notional = .finite n → n < 0 → n ≤ -801) →
        input.Routes fun buyEx topAsk sellEx topBid =>
          OnPrices notional input.depth buyEx topAsk sellEx topBid
            (Divided minSpread notional)) := by
  rw [fine_iff] at h
  constructor
  · intro b hb hbuy hask s hs hsell hne hbid
    exact (of_routeFine hbuy (h b hb hbuy hask s hs hsell hne hbid)).1
  · intro hsmall b hb hbuy hask s hs hsell hne hbid
    exact (of_routeFine hbuy (h b hb hbuy hask s hs hsell hne hbid)).2 hsmall

end

end Floating

open Floating (SpreadInput OnPrices)

def FitNotional : PyFloat → Prop
  | .finite n => 0 < n ∨ n ≤ -801
  | .inf | .negInf => True
  | .nan => False

theorem fitNotional_all {notional : PyFloat} (h : FitNotional notional) (sell : ExchangeConfig) :
    Floating.FitNotional notional sell := by
  cases notional with
  | finite n =>
    refine ⟨?_, .inr h⟩
    rintro rfl
    rcases h with h | h
    · exact absurd h (lt_irrefl 0)
    · norm_num at h
  | inf => trivial
  | negInf => trivial
  | nan => exact h

section
variable [SettingText]

def Readable (raw : String) : Prop := raw = "" ∨ ∃ x, SettingText.float (stripQuotes raw) = some x

theorem engineSetting_iff (raw : Option String) (default : ℚ) :
    (∃ x, engineSetting raw default = .ok x) ↔ ∀ s, raw = some s → Readable s := by
  cases raw with
  | none => simp [engineSetting]
  | some s =>
    by_cases hs : s = ""
    · simp [engineSetting, Readable, hs]
    · simp only [engineSetting, readSetting, Readable, Option.some.injEq,
        forall_eq', hs, false_or]
      cases SettingText.float (stripQuotes s) <;> simp

theorem engineSettings_iff (t : Settings) :
    (∃ v, engineSettings t = .ok v) ↔
      (∀ s, t "max_position_pct" = some s → Readable s) ∧
        ∀ s, t "rebalance_threshold_usd" = some s → Readable s := by
  rw [← engineSetting_iff _ 10, ← engineSetting_iff _ 100]
  unfold engineSettings
  cases engineSetting (t "max_position_pct") 10 with
  | error x => simp [bind, Except.bind]
  | ok maxPosition =>
    cases engineSetting (t "rebalance_threshold_usd") 100 <;> simp [bind, Except.bind]

/-- The executor finds a float in each of its two texts, or nothing. -/
structure SettingsState.Starts (s : SettingsState) : Prop where
  maxPosition : ∀ raw, s.table "max_position_pct" = some raw → Readable raw
  rebalance : ∀ raw, s.table "rebalance_threshold_usd" = some raw → Readable raw

section
variable [PyText] [PyReader]

/-- The executor can start, and the scanner can compute the spreads. -/
def SettingsState.Serves (s : SettingsState) (input : SpreadInput) : Prop :=
  (∃ v, engineSettings s.table = .ok v) ∧ input.Fine s.held.minSpread s.held.notional

/-- Every route has prices that a spread can be made of. -/
def SettingsState.Priced (s : SettingsState) (input : SpreadInput) : Prop :=
  input.Routes fun buyEx topAsk sellEx topBid =>
    OnPrices s.held.notional input.depth buyEx topAsk sellEx topBid
      (Floating.Priced s.held.minSpread s.held.notional)

/-- The notional fits each route whose spread is not below the least one. -/
def SettingsState.Divided (s : SettingsState) (input : SpreadInput) : Prop :=
  input.Routes fun buyEx topAsk sellEx topBid =>
    OnPrices s.held.notional input.depth buyEx topAsk sellEx topBid
      (Floating.Divided s.held.minSpread s.held.notional)

theorem serves_of {s : SettingsState} {input : SpreadInput} (hinput : input.WellFormed)
    (hstarts : s.Starts) (hpriced : s.Priced input) (hdivided : s.Divided input) :
    s.Serves input :=
  ⟨(engineSettings_iff s.table).mpr ⟨hstarts.maxPosition, hstarts.rebalance⟩,
    Floating.fine_of hinput hpriced hdivided⟩

theorem of_serves {s : SettingsState} {input : SpreadInput} (h : s.Serves input) :
    s.Starts ∧ s.Priced input ∧
      ((∀ n, s.held.notional = .finite n → n < 0 → n ≤ -801) → s.Divided input) := by
  obtain ⟨hmax, hrebalance⟩ := (engineSettings_iff s.table).mp h.1
  exact ⟨⟨hmax, hrebalance⟩, Floating.of_fine h.2⟩

end

def FitText (raw : String) : Prop :=
  ∀ x, SettingText.float (stripQuotes raw) = some x → FitNotional x

def SettingsStep.Fits : SettingsStep → Prop
  | .update key value => ∀ text, SettingText.jsonb value = some text →
    (key = "max_position_pct" ∨ key = "rebalance_threshold_usd" → Readable text) ∧
      (key = "estimated_trade_notional" → FitText text)
  | .refresh | .queryFails => True

structure SettingsState.Sound (s : SettingsState) : Prop extends s.Starts where
  stored : ∀ raw, s.table "estimated_trade_notional" = some raw → FitText raw
  held : FitNotional s.held.notional

theorem SettingsState.Sound.divided [PyReader] {s : SettingsState} (h : s.Sound)
    (input : SpreadInput) : s.Divided input :=
  fun _ _ _ _ _ _ _ _ _ sell _ _ _ _ _ _ _ => fitNotional_all h.held sell

theorem refreshNotional_fits {raw : Option String} {held next : HeldSettings}
    (h : refreshNotional raw held = .ok next) (hraw : ∀ s, raw = some s → FitText s)
    (hheld : FitNotional held.notional) : FitNotional next.notional := by
  cases raw with
  | none =>
    obtain rfl := Except.ok.inj h
    exact hheld
  | some s =>
    have hs := hraw s rfl
    unfold FitText at hs
    simp only [refreshNotional, readSetting] at h
    cases hx : SettingText.float (stripQuotes s) with
    | none =>
      rw [hx] at h
      cases h
    | some x =>
      rw [hx] at h hs
      obtain rfl := Except.ok.inj h
      exact hs x rfl

theorem refreshMinSpread_notional {raw : Option String} {held next : HeldSettings}
    (h : refreshMinSpread raw held = .ok next) : next.notional = held.notional := by
  cases raw with
  | none =>
    obtain rfl := Except.ok.inj h
    rfl
  | some s =>
    simp only [refreshMinSpread] at h
    cases hx : readSetting s with
    | error x =>
      rw [hx] at h
      cases h
    | ok x =>
      rw [hx] at h
      obtain rfl := Except.ok.inj h
      rfl

theorem updateSetting_row {key other : String} {value : Json} {t t' : Settings} {raw : String}
    (h : updateSetting key value t = .ok t') (hraw : t' other = some raw) :
    t other = some raw ∨ other = key ∧ SettingText.jsonb value = some raw := by
  unfold updateSetting at h
  split at h
  · cases h
  · rename_i text htext
    obtain rfl := Except.ok.inj h
    split at hraw
    · by_cases hkey : other = key
      · subst hkey
        rw [Function.update_self] at hraw
        exact .inr ⟨rfl, htext.trans hraw⟩
      · rw [Function.update_of_ne hkey] at hraw
        exact .inl hraw
    · exact .inl hraw

theorem sound_step {s : SettingsState} {step : SettingsStep} (hs : s.Sound) (hstep : step.Fits) :
    (s.step step).Sound := by
  cases step with
  | update key value =>
    unfold SettingsState.step
    simp only
    split
    · rename_i t ht
      refine ⟨⟨?_, ?_⟩, ?_, hs.held⟩
      · intro raw hraw
        rcases updateSetting_row ht hraw with hold | ⟨rfl, htext⟩
        · exact hs.maxPosition raw hold
        · exact (hstep raw htext).1 (.inl rfl)
      · intro raw hraw
        rcases updateSetting_row ht hraw with hold | ⟨rfl, htext⟩
        · exact hs.rebalance raw hold
        · exact (hstep raw htext).1 (.inr rfl)
      · intro raw hraw
        rcases updateSetting_row ht hraw with hold | ⟨rfl, htext⟩
        · exact hs.stored raw hold
        · exact (hstep raw htext).2 rfl
    · exact hs
  | refresh =>
    unfold SettingsState.step
    simp only
    split
    · split
      · rename_i held hheld
        exact { hs with held := refreshNotional_fits hheld hs.stored hs.held }
      · exact { hs with }
    · split
      · rename_i held hheld
        have hsame := refreshMinSpread_notional hheld
        exact { hs with held := hsame.symm ▸ hs.held }
      · exact hs
  | queryFails => exact { hs with }

theorem sound_run {s : SettingsState} (hs : s.Sound) (steps : List SettingsStep)
    (hsteps : ∀ step ∈ steps, step.Fits) : (s.run steps).Sound := by
  induction steps generalizing s with
  | nil => exact hs
  | cons step rest ih =>
    exact ih (sound_step hs (hsteps step List.mem_cons_self))
      fun d hd => hsteps d (List.mem_cons_of_mem _ hd)

structure SeedReads : Prop where
  maxPosition : SettingText.float "10.00" = some (.finite 10)
  rebalance : SettingText.float "100.00" = some (.finite 100)
  notional : SettingText.float "1000.00" = some (.finite 1000)

theorem seeded_sound (h : SeedReads) : seededSettings.Sound := by
  refine ⟨⟨?_, ?_⟩, ?_, .inl (by norm_num)⟩
  · intro raw hraw
    obtain rfl : "10.00" = raw := Option.some.inj hraw
    exact .inr ⟨_, h.maxPosition⟩
  · intro raw hraw
    obtain rfl : "100.00" = raw := Option.some.inj hraw
    exact .inr ⟨_, h.rebalance⟩
  · intro raw hraw x hx
    obtain rfl : "1000.00" = raw := Option.some.inj hraw
    obtain rfl := Option.some.inj (h.notional.symm.trans hx)
    exact .inl (by norm_num)

/-- After any run from the seed the consumers can use the settings if the executor finds its two
floats, the routes have prices and the notional fits; and only then, except that a notional
between -801 and 0 may be lost in the rounding. A run whose updates fit leaves only the prices
to be asked for. -/
theorem settings_serve [PyText] [PyReader] (h : SeedReads) (steps : List SettingsStep)
    {input : SpreadInput} (hinput : input.WellFormed) :
    ((seededSettings.run steps).Starts ∧ (seededSettings.run steps).Priced input ∧
        (seededSettings.run steps).Divided input → (seededSettings.run steps).Serves input) ∧
      ((seededSettings.run steps).Serves input →
        (seededSettings.run steps).Starts ∧ (seededSettings.run steps).Priced input ∧
          ((∀ n, (seededSettings.run steps).held.notional = .finite n → n < 0 → n ≤ -801) →
            (seededSettings.run steps).Divided input)) ∧
      ((∀ step ∈ steps, step.Fits) → (seededSettings.run steps).Priced input →
        (seededSettings.run steps).Serves input) := by
  refine ⟨fun hall => serves_of hinput hall.1 hall.2.1 hall.2.2, of_serves,
    fun hsteps hpriced => ?_⟩
  have hsound := sound_run (seeded_sound h) steps hsteps
  exact serves_of hinput hsound.toStarts hpriced (hsound.divided input)

end

@[reducible] def plainSettings : SettingText where
  jsonb
    | .null => some "null"
    | .num q => some (if q = 0 then "0" else if q = 15 then "15" else if q = 500 then "500"
      else "-100")
    | _ => none
  float s := (([("0.30", 3 / 10), ("10.00", 10), ("100.00", 100), ("1000.00", 1000), ("0", 0),
    ("15", 15), ("500", 500), ("-100", -100)] : List (String × ℚ)).lookup s).map
      FloatRounding.round

theorem plainSettings_seed : @SeedReads plainSettings :=
  @SeedReads.mk plainSettings (by decide +kernel) (by decide +kernel) (by decide +kernel)

/-- Two exchanges that quote 100 and 101, with or without depth. -/
def twoQuotes (depth : List (String × Floating.Depth)) : SpreadInput where
  symbol := "BTC/USDT"
  prices := [("kucoin", ⟨some (.finite 99), some (.finite 100)⟩),
    ("bybit", ⟨some (.finite 101), some (.finite 102)⟩)]
  depth := depth
  now := 1000

def floatLevel (level : ℚ × ℚ) : JsonValue :=
  .list [.float (.finite level.1), .float (.finite level.2)]

theorem floatLevels_walkable [PyReader] (level : ℚ × ℚ) (rest : List (ℚ × ℚ)) :
    Floating.Walkable (.list ((level :: rest).map floatLevel)) := by
  refine ⟨floatLevel level, rest.map floatLevel, rfl, nofun, ?_⟩
  rw [← List.map_cons, List.forall_mem_map]
  exact fun l _ => ⟨.float (.finite l.1), .float (.finite l.2), rfl, ⟨_, rfl⟩, _, rfl⟩

def twoBooks : List (String × Floating.Depth) :=
  [("kucoin", ⟨1000, .list ([(99, 4), (98, 4)].map floatLevel),
      .list ([(100, 4), (101, 4)].map floatLevel)⟩),
    ("bybit", ⟨1000, .list ([(101, 4), (100, 4)].map floatLevel),
      .list ([(102, 4), (103, 4)].map floatLevel)⟩)]

theorem twoQuotes_wellFormed :
    @SpreadInput.WellFormed Floating.depthReader (twoQuotes twoBooks) := by
  let _ := Floating.depthReader
  refine ⟨by decide +kernel, by decide +kernel, ?_⟩
  intro d hd
  simp only [twoQuotes, twoBooks, List.mem_cons, List.not_mem_nil, or_false] at hd
  rcases hd with rfl | rfl
  · exact ⟨floatLevels_walkable (99, 4) [(98, 4)], floatLevels_walkable (100, 4) [(101, 4)]⟩
  · exact ⟨floatLevels_walkable (101, 4) [(100, 4)], floatLevels_walkable (102, 4) [(103, 4)]⟩

theorem priced_of_finite {minSpread notional : PyFloat} {sell : ExchangeConfig} {b s : ℚ}
    (hb : 0 < b) (hs : 0 < s) (hg : Floating.grossSpread (.finite b) (.finite s) ≠ .ok .inf) :
    Floating.Priced minSpread notional sell (.finite b) (.finite s) := by
  refine ⟨fun h => hb.ne' (PyFloat.finite.inj h), fun g' hg' _ => ⟨⟨b, rfl, hb⟩, ?_, ?_⟩⟩
  · exact decide_eq_true hs
  · rintro ⟨rfl, -⟩
    exact hg hg'

/-- The settings after a larger position and a smaller notional. -/
def smallerNotional : SettingsState :=
  @SettingsState.run plainSettings seededSettings
    [.update "max_position_pct" (.num 15), .update "estimated_trade_notional" (.num 500),
      .refresh, .refresh]

theorem smallerNotional_serves :
    @SettingsState.Serves plainSettings plainText Floating.depthReader smallerNotional
      (twoQuotes twoBooks) := by
  let _ := plainSettings
  let _ := Floating.depthReader
  refine (@settings_serve plainSettings plainText Floating.depthReader plainSettings_seed _ _
    twoQuotes_wellFormed).2.2 ?_ ?_
  · intro step hstep
    simp only [List.mem_cons, List.not_mem_nil, or_false] at hstep
    rcases hstep with rfl | rfl | rfl | rfl
    · intro text htext
      obtain rfl := Option.some.inj htext
      exact ⟨fun _ => .inr ⟨.finite 15, by decide +kernel⟩, fun hkey => absurd hkey (by decide)⟩
    · intro text htext
      obtain rfl := Option.some.inj htext
      refine ⟨fun hkey => absurd hkey (by decide), fun _ x hx => ?_⟩
      have hread : SettingText.float (stripQuotes "500") = some (.finite 500) := by decide +kernel
      obtain rfl := Option.some.inj (hread.symm.trans hx)
      exact .inl (by norm_num)
    · trivial
    · trivial
  · have hthere : Floating.routePrices (.finite 500) (twoBooks.lookup "kucoin")
        (twoBooks.lookup "bybit") (.finite 100) (.finite 101) =
          .ok (some (.finite (7050836470182603 / 70368744177664),
            .finite (7093281109527861 / 70368744177664))) := by decide +kernel
    have hback : Floating.routePrices (.finite 500) (twoBooks.lookup "bybit")
        (twoBooks.lookup "kucoin") (.finite 102) (.finite 99) =
          .ok (some (.finite (1797614248586159 / 17592186044416),
            .finite (6953660585365829 / 70368744177664))) := by decide +kernel
    have hnotional : smallerNotional.held.notional = .finite 500 := by decide +kernel
    intro b hb _ _ s hs _ hne _ sell x y _ hprices
    simp only [twoQuotes, List.mem_cons, List.not_mem_nil, or_false] at hb hs
    rcases hb with rfl | rfl <;> rcases hs with rfl | rfl
    · exact absurd rfl hne
    · cases hthere.symm.trans (hnotional ▸ hprices)
      exact priced_of_finite (by norm_num) (by norm_num) (by decide +kernel)
    · cases hback.symm.trans (hnotional ▸ hprices)
      exact priced_of_finite (by norm_num) (by norm_num) (by decide +kernel)
    · exact absurd rfl hne

/-- What the executor and the scanner make of one `PUT`, after a pass of the refresher. -/
def afterPut (key : String) (value : Json) : SettingsState :=
  @SettingsState.run plainSettings seededSettings [.update key value, .refresh, .refresh]

def SettingsState.spreads (s : SettingsState) (input : SpreadInput) :
    Except PyExc (List Floating.Opportunity) :=
  @Floating.calculateSpreads plainText Floating.depthReader input.symbol input.prices
    s.held.minSpread s.held.notional input.depth input.now

/-- Asks so low, and so many, that the walk finds an infinite amount at the price 0. -/
def lowAsks : List (String × Floating.Depth) :=
  let level := floatLevel (double.nearest (4 / 10 ^ 306), double.nearest (10 ^ 308))
  let side : JsonValue := .list [level, level, level]
  [("kucoin", ⟨1000, .list [floatLevel (1, 1)], side⟩),
    ("bybit", ⟨1000, .list [floatLevel (1, 1)], side⟩)]

/-- A `null` stops the executor; a notional of 0 stops the scanner, one of -100 gives the route
more net spread than gross. The seed itself stops it at a price that is walked to 0. -/
theorem settings_break :
    @engineSettings plainSettings (afterPut "max_position_pct" .null).table =
        .error .valueError ∧
      (afterPut "estimated_trade_notional" (.num 0)).spreads (twoQuotes []) =
        .error .zeroDivisionError ∧
      (afterPut "estimated_trade_notional" (.num (-100))).spreads (twoQuotes []) = .ok [{
        id := "opp_1000_kucoin_bybit_btcusdt"
        symbol := "BTC/USDT"
        buyExchange := "kucoin"
        sellExchange := "bybit"
        buyPrice := .finite 100
        sellPrice := .finite 101
        grossSpreadPct := .finite 1
        buyFeePct := FloatRounding.round (1 / 10)
        sellFeePct := FloatRounding.round (1 / 10)
        withdrawalFeeUsd := .finite 1
        netSpreadPct := FloatRounding.round (9 / 5)
        detectedAt := 1000
        ttlSeconds := 5 }] ∧
      seededSettings.spreads (twoQuotes lowAsks) = .error .zeroDivisionError := by
  decide +kernel

end CriptoParser
