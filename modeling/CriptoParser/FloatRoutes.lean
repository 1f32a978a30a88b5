import CriptoParser.FloatSpreads

/-!
Which routes give a spread, and a net spread not above the gross one, in floats. The withdrawal
is a share of the notional, so a negative notional makes a refund of it.
-/

set_option autoImplicit false

namespace CriptoParser.Floating

open PyFloat

theorem takerFee_bounds {ex : String} {cfg : ExchangeConfig} (h : exchangeConfig ex = some cfg) :
    ∃ fee : ℚ, takerFee cfg = .finite fee ∧ 1 / 10 ≤ fee ∧ fee ≤ 1 := by
  have hall : ∀ kv ∈ exchanges, takerFee kv.2 = .finite (double.nearest kv.2.takerFeePct) ∧
      1 / 10 ≤ double.nearest kv.2.takerFeePct ∧ double.nearest kv.2.takerFeePct ≤ 1 := by
    decide +kernel
  have hcfg := hall (ex, cfg) (exchangeConfig_mem h)
  exact ⟨double.nearest cfg.takerFeePct, hcfg⟩

theorem withdrawalUsdt_values {ex : String} {cfg : ExchangeConfig}
    (h : exchangeConfig ex = some cfg) :
    cfg.withdrawalUsdt = 0 ∧ withdrawalUsdt cfg = .finite 0 ∨
      cfg.withdrawalUsdt ≠ 0 ∧ withdrawalUsdt cfg = .finite 1 := by
  have hall : ∀ kv ∈ exchanges, kv.2.withdrawalUsdt = 0 ∧ withdrawalUsdt kv.2 = .finite 0 ∨
      kv.2.withdrawalUsdt ≠ 0 ∧ withdrawalUsdt kv.2 = .finite 1 := by
    decide +kernel
  exact hall _ (exchangeConfig_mem h)

theorem place_le {q : ℚ} {k : ℤ} (hk : 0 ≤ k) (h : |q| < 2 ^ k) : double.place q ≤ k - 53 := by
  have hform : double.place q = max (Binary.leading q + 1 - 53) (-1074) := rfl
  have hlead : Binary.leading q ≤ k - 1 := by
    by_cases hq : q = 0
    · rw [hq, show Binary.leading 0 = -1 by decide +kernel]
      omega
    · exact Binary.leading_le hq (by rwa [sub_add_cancel])
  rw [hform]
  omega

theorem le_place {q : ℚ} {k : ℤ} (h : 2 ^ k ≤ q) : k - 52 ≤ double.place q := by
  have hq : 0 < q := lt_of_lt_of_le (by positivity) h
  have hform : double.place q = max (Binary.leading q + 1 - 53) (-1074) := rfl
  have hlead := Binary.le_leading hq.ne' (h.trans (le_abs_self q))
  rw [hform]
  omega

theorem nearest_off {q : ℚ} {k : ℤ} (hk : 0 ≤ k) (h : |q| < 2 ^ k) :
    double.nearest q ≤ q + 2 ^ (k - 53) / 2 := by
  have hnear := abs_le.mp (double.nearest_near q)
  have hpow : (2 : ℚ) ^ double.place q ≤ 2 ^ (k - 53) :=
    zpow_le_zpow_right₀ one_le_two (place_le hk h)
  linarith [hnear.1]

/-- Two fees of a tenth outweigh a refund below an eighth, whatever is rounded on the way: up to
`2 ^ 50` the rounding is too fine, and from there on too coarse, to lose the one and keep the
other. -/
theorem nearest_refund {g buyFee sellFee share : ℚ} (hg : double.Holds g) (hlow : -100 ≤ g)
    (hbuy : 1 / 10 ≤ buyFee) (hbuy' : buyFee ≤ 1) (hsell : 1 / 10 ≤ sellFee) (hsell' : sellFee ≤ 1)
    (hshare : -(1 / 8) < share) :
    double.nearest (double.nearest (double.nearest (g - buyFee) - sellFee) - share) ≤ g := by
  have hmono : ∀ {a b : ℚ}, a ≤ b → double.nearest a ≤ double.nearest b :=
    double.nearest_mono (by decide)
  have hy : double.nearest (g - buyFee) ≤ g := by
    have hstep := hmono (show g - buyFee ≤ g by linarith)
    rwa [hg] at hstep
  have hylow : -101 ≤ double.nearest (g - buyFee) := by
    have hstep := hmono (show -101 ≤ g - buyFee by linarith)
    rwa [show double.nearest (-101) = -101 by decide +kernel] at hstep
  have hyoff : ∀ k : ℤ, 0 ≤ k → |g - buyFee| < 2 ^ k →
      double.nearest (g - buyFee) ≤ g - buyFee + 2 ^ (k - 53) / 2 := fun k => nearest_off
  have hheld : double.Holds (double.nearest (g - buyFee)) := double.holds_nearest (by decide) _
  generalize double.nearest (g - buyFee) = y at hy hylow hyoff hheld ⊢
  have hb : double.nearest (y - sellFee) ≤ y := by
    have hstep := hmono (show y - sellFee ≤ y by linarith)
    rwa [hheld] at hstep
  have hboff : ∀ k : ℤ, 0 ≤ k → |y - sellFee| < 2 ^ k →
      double.nearest (y - sellFee) ≤ y - sellFee + 2 ^ (k - 53) / 2 := fun k => nearest_off
  generalize double.nearest (y - sellFee) = b at hb hboff ⊢
  have hwide : (102 : ℚ) < 2 ^ (49 : ℤ) := by norm_num
  rcases lt_or_ge g (2 ^ (49 : ℤ)) with hsmall | hlarge
  · have hy49 := hyoff 49 (by norm_num) (abs_lt.mpr ⟨by linarith, by linarith⟩)
    have hb49 := hboff 49 (by norm_num) (abs_lt.mpr ⟨by linarith, by linarith⟩)
    have hsum : b - share ≤ g := by
      norm_num at hy49 hb49
      linarith
    have hstep := hmono hsum
    rwa [hg] at hstep
  · have hpos : 0 < g := lt_of_lt_of_le (by positivity) hlarge
    refine double.nearest_le_held (by decide) hg hpos ?_
    rcases lt_or_ge g (2 ^ (50 : ℤ)) with hsmall | hhuge
    · have hwide' : (2 : ℚ) ^ (49 : ℤ) ≤ 2 ^ (50 : ℤ) := by norm_num
      have hy50 := hyoff 50 (by norm_num) (abs_lt.mpr ⟨by linarith, by linarith⟩)
      have hb50 := hboff 50 (by norm_num) (abs_lt.mpr ⟨by linarith, by linarith⟩)
      have hunit : (2 : ℚ) ^ (-3 : ℤ) ≤ 2 ^ double.place g :=
        zpow_le_zpow_right₀ one_le_two (le_place hlarge)
      norm_num at hy50 hb50 hunit
      linarith
    · have hunit : (2 : ℚ) ^ (-2 : ℤ) ≤ 2 ^ double.place g :=
        zpow_le_zpow_right₀ one_le_two (le_place hhuge)
      norm_num at hunit
      linarith

theorem sub_fee {q fee : ℚ} (hq : |q| < floatLimit) (hheld : double.Holds q) (hlow : -101 ≤ q)
    (hfee : 0 ≤ fee) (hfee' : fee ≤ 1) :
    (PyFloat.finite q).sub (.finite fee) = .finite (double.nearest (q - fee)) ∧
      |double.nearest (q - fee)| < floatLimit := by
  have hmono : ∀ {a b : ℚ}, a ≤ b → double.nearest a ≤ double.nearest b :=
    double.nearest_mono (by decide)
  have hhigh : double.nearest (q - fee) ≤ q := by
    have hstep := hmono (show q - fee ≤ q by linarith)
    rwa [hheld] at hstep
  have hlow' : -102 ≤ double.nearest (q - fee) := by
    have hstep := hmono (show -102 ≤ q - fee by linarith)
    rwa [show double.nearest (-102) = -102 by decide +kernel] at hstep
  have hlimit : -floatLimit < -102 := by decide +kernel
  have hupper := (abs_lt.mp hq).2
  refine ⟨?_, abs_lt.mpr ⟨hlimit.trans_le hlow', hhigh.trans_lt hupper⟩⟩
  have hround := round_between hlimit hupper hlow' hhigh
  rwa [sub_eq_add_neg] at hround ⊢

theorem net_le {gross : PyFloat} {buyFee sellFee share : ℚ} (hg : gross.IsFloat)
    (hlow : (PyFloat.finite (-100)).le gross = true) (hbuy : 1 / 10 ≤ buyFee) (hbuy' : buyFee ≤ 1)
    (hsell : 1 / 10 ≤ sellFee) (hsell' : sellFee ≤ 1) (hshare : -(1 / 8) < share) :
    (((gross.sub (.finite buyFee)).sub (.finite sellFee)).sub (.finite share)).le gross = true := by
  rcases finite_le_cases hlow with rfl | ⟨g, rfl, hlow'⟩
  · rfl
  obtain ⟨hheld, hlimit⟩ := hg
  have hmono : ∀ {a b : ℚ}, a ≤ b → double.nearest a ≤ double.nearest b :=
    double.nearest_mono (by decide)
  obtain ⟨hy, hylimit⟩ := sub_fee hlimit hheld (by linarith) (by linarith : 0 ≤ buyFee) hbuy'
  have hylow : -101 ≤ double.nearest (g - buyFee) := by
    have hstep := hmono (show -101 ≤ g - buyFee by linarith)
    rwa [show double.nearest (-101) = -101 by decide +kernel] at hstep
  obtain ⟨hb, -⟩ := sub_fee hylimit (double.holds_nearest (by decide) _) hylow
    (by linarith : 0 ≤ sellFee) hsell'
  rw [hy, hb]
  have hrefund := nearest_refund hheld hlow' hbuy hbuy' hsell hsell' hshare
  rw [sub_eq_add_neg _ share] at hrefund
  exact round_le_of_nearest hlimit hrefund

/-- A notional by which the withdrawal can be divided, and which makes no refund of an eighth or
more of it. -/
def FitNotional (notional : PyFloat) (sell : ExchangeConfig) : Prop :=
  match notional with
  | .finite n => n ≠ 0 ∧ (sell.withdrawalUsdt = 0 ∨ 0 < n ∨ n ≤ -801)
  | .inf | .negInf => True
  | .nan => False

theorem withdrawalPct_fits {notional : PyFloat} {ex : String} {sell : ExchangeConfig}
    (hsell : exchangeConfig ex = some sell) (hn : FitNotional notional sell) :
    ∃ share, withdrawalPct (withdrawalUsdt sell) notional = .ok share ∧
      (share = .inf ∨ ∃ q, share = .finite q ∧ -(1 / 8) < q) := by
  have hzero : (PyFloat.finite 0).mul (.finite 100) = .finite 0 := by decide +kernel
  have hfree : ∀ {r : PyFloat}, withdrawalPct (withdrawalUsdt sell) notional = .ok r →
      r = .finite 0 → ∃ share, withdrawalPct (withdrawalUsdt sell) notional = .ok share ∧
        (share = .inf ∨ ∃ q, share = .finite q ∧ -(1 / 8) < q) := by
    rintro r hr rfl
    exact ⟨_, hr, .inr ⟨0, rfl, by norm_num⟩⟩
  have hinfinite : ∀ {w : ℚ}, withdrawalUsdt sell = .finite w →
      notional = .inf ∨ notional = .negInf →
        withdrawalPct (withdrawalUsdt sell) notional = .ok (.finite 0) := by
    rintro w hw (rfl | rfl)
    · simp [withdrawalPct, hw, div, hzero, bind, Except.bind]
    · simp [withdrawalPct, hw, div, hzero, bind, Except.bind]
  have hvalue : ∃ w, withdrawalUsdt sell = .finite w := by
    rcases withdrawalUsdt_values hsell with ⟨-, hw⟩ | ⟨-, hw⟩
    · exact ⟨0, hw⟩
    · exact ⟨1, hw⟩
  obtain ⟨w, hw⟩ := hvalue
  cases notional with
  | inf => exact hfree (hinfinite hw (.inl rfl)) rfl
  | negInf => exact hfree (hinfinite hw (.inr rfl)) rfl
  | nan => exact hn.elim
  | finite n =>
    obtain ⟨hne, hn⟩ := hn
    have hdiv := div_finite hne w rfl
    rcases withdrawalUsdt_values hsell with ⟨-, hw'⟩ | ⟨hcharge, hw'⟩
    · obtain rfl : w = 0 := PyFloat.finite.inj (hw.symm.trans hw')
      refine hfree (r := .finite 0) ?_ rfl
      rw [zero_div, show FloatRounding.round 0 = PyFloat.finite 0 by decide +kernel] at hdiv
      simp only [withdrawalPct, hw, hdiv, bind, Except.bind, hzero]
    · obtain rfl : w = 1 := PyFloat.finite.inj (hw.symm.trans hw')
      -- the least share is that of -801
      have hlow : -(1 / 801) ≤ 1 / n := by
        rcases hn.resolve_left hcharge with hpos | hneg
        · have hinv := one_div_pos.mpr hpos
          linarith
        · have hinv := one_div_le_one_div_of_le (by norm_num) (le_neg_of_le_neg hneg)
          rw [div_neg] at hinv
          linarith
      have hratio := round_mono hlow
      have hleast : FloatRounding.round (-(1 / 801)) =
          PyFloat.finite (double.nearest (-(1 / 801))) := by decide +kernel
      rw [hleast] at hratio
      have hmul := finite_mul_le hratio (c := 100) (by norm_num)
      have hshare : FloatRounding.round (double.nearest (-(1 / 801)) * 100) =
          PyFloat.finite (double.nearest (double.nearest (-(1 / 801)) * 100)) := by decide +kernel
      have heighth : -(1 / 8) < double.nearest (double.nearest (-(1 / 801)) * 100) := by
        decide +kernel
      rw [hshare] at hmul
      refine ⟨(FloatRounding.round (1 / n)).mul (.finite 100),
        by simp only [withdrawalPct, hw, hdiv, bind, Except.bind], ?_⟩
      rcases finite_le_cases hmul with h | ⟨q, h, hq⟩
      · exact .inl h
      · exact .inr ⟨q, h, by linarith⟩

theorem grossSpread_low {b : ℚ} {s g : PyFloat} (hb : (PyFloat.finite b).IsFloat) (hpos : 0 < b)
    (hs : (PyFloat.finite 0).lt s = true) (h : grossSpread (.finite b) s = .ok g) :
    (PyFloat.finite (-100)).le g = true ∧ g.IsFloat := by
  have hdiff : (PyFloat.finite (-b)).le (s.sub (.finite b)) = true := by
    cases s with
    | finite r =>
      have hr : 0 < r := by simpa [lt] using hs
      have hround := round_mono (show -b ≤ r + -b by linarith)
      rwa [round_self (isFloat_neg hb)] at hround
    | inf => rfl
    | negInf => cases hs
    | nan => cases hs
  have hratio : ∀ {ratio : PyFloat}, (s.sub (.finite b)).div (.finite b) = .ok ratio →
      (PyFloat.finite (-1)).le ratio = true := by
    intro ratio hdiv
    rcases finite_le_cases hdiff with hinf | ⟨t, ht, hle⟩
    · rw [hinf, inf_div hpos] at hdiv
      cases hdiv
      rfl
    · rw [div_finite hpos.ne' t ht] at hdiv
      cases hdiv
      have hquot : -1 ≤ t / b := by
        rw [le_div_iff₀ hpos]
        linarith
      have hround := round_mono hquot
      rwa [show FloatRounding.round (-1) = PyFloat.finite (-1) by decide +kernel] at hround
  unfold grossSpread at h
  cases hdiv : (s.sub (.finite b)).div (.finite b) with
  | error x =>
    rw [hdiv] at h
    cases h
  | ok ratio =>
    rw [hdiv] at h
    cases h
    have hmul := finite_mul_le (hratio hdiv) (c := 100) (by norm_num)
    rw [show FloatRounding.round (-1 * 100) = PyFloat.finite (-100) by decide +kernel] at hmul
    exact ⟨hmul, isFloat_mul _ _⟩

theorem grossSpread_returns {b : PyFloat} (hb : b ≠ .finite 0) (s : PyFloat) :
    ∃ g, grossSpread b s = .ok g := by
  obtain ⟨ratio, hratio⟩ : ∃ ratio, (s.sub b).div b = .ok ratio := by
    unfold PyFloat.div
    rw [if_neg hb]
    split <;> exact ⟨_, rfl⟩
  exact ⟨_, by rw [grossSpread, hratio]; rfl⟩

theorem grossSpread_zero (s : PyFloat) :
    grossSpread (.finite 0) s = .error .zeroDivisionError := rfl

theorem grossSpread_inf {s g : PyFloat} (hs : (PyFloat.finite 0).lt s = true)
    (h : grossSpread .inf s = .ok g) : g = .nan := by
  cases s with
  | finite r =>
    cases h
    rfl
  | inf =>
    cases h
    rfl
  | negInf => cases hs
  | nan => cases hs

/-- What a book and a notional have to make of the prices of a route. -/
def Priced (minSpread notional : PyFloat) (sell : ExchangeConfig) (b s : PyFloat) : Prop :=
  b ≠ .finite 0 ∧ ∀ g, grossSpread b s = .ok g → g.lt minSpread = false →
    (∃ q, b = .finite q ∧ 0 < q) ∧ (PyFloat.finite 0).lt s = true ∧
      ¬(g = .inf ∧ withdrawalPct (withdrawalUsdt sell) notional = .ok .inf)

/-- The notional fits where the spread is not below the least one. -/
def Divided (minSpread notional : PyFloat) (sell : ExchangeConfig) (b s : PyFloat) : Prop :=
  ∀ g, grossSpread b s = .ok g → g.lt minSpread = false → FitNotional notional sell

def Opportunity.InOrder (opp : Opportunity) : Prop :=
  opp.netSpreadPct.le opp.grossSpreadPct = true

section
variable [PyText] {symbol : String} {minSpread notional : PyFloat} {now : ℤ} {buyEx sellEx : String}

theorem opportunity_inOrder {buy sell : ExchangeConfig} (hbuy : exchangeConfig buyEx = some buy)
    (hsell : exchangeConfig sellEx = some sell) {b s g : PyFloat} (hb : b.IsFloat)
    (hg : grossSpread b s = .ok g) (hlow : g.lt minSpread = false)
    (hpriced : Priced minSpread notional sell b s) (hfit : Divided minSpread notional sell b s) :
    ∃ opp, routeOpportunity symbol notional now buyEx sellEx b s g = .ok opp ∧ opp.InOrder := by
  obtain ⟨⟨q, rfl, hq⟩, hs, hclash⟩ := hpriced.2 g hg hlow
  obtain ⟨hgross, hfloat⟩ := grossSpread_low hb hq hs hg
  obtain ⟨buyFee, hbuyFee, hbf, hbf'⟩ := takerFee_bounds hbuy
  obtain ⟨sellFee, hsellFee, hsf, hsf'⟩ := takerFee_bounds hsell
  obtain ⟨share, hshare, hcase⟩ := withdrawalPct_fits hsell (hfit g hg hlow)
  have hvalid : ((PyFloat.finite 0).lt (.finite q) && (PyFloat.finite 0).lt s) = true := by
    rw [hs, Bool.and_true]
    simpa [lt] using hq
  refine ⟨_, by simp only [routeOpportunity, hbuy, hsell, hshare, bind, Except.bind,
    if_pos hvalid]; rfl, ?_⟩
  refine roundTo_mono ?_ 4
  rw [hbuyFee, hsellFee]
  rcases hcase with rfl | ⟨δ, rfl, hδ⟩
  · -- an infinite share leaves minus infinity of a spread that is not infinite
    have hnan : g ≠ .nan := by
      rintro rfl
      cases hgross
    have hfees := sub_ne_nan (sub_ne_nan hnan buyFee) sellFee
    have hle := le_trans (sub_le_self (d := sellFee) (isFloat_sub _ _) (sub_ne_nan hnan buyFee)
      (by linarith)) (sub_le_self hfloat hnan (by linarith))
    have hinf : (g.sub (.finite buyFee)).sub (.finite sellFee) ≠ .inf := by
      intro heq
      rw [heq] at hle
      refine hclash ⟨?_, hshare⟩
      cases g with
      | inf => rfl
      | _ => cases hle
    exact le_trans (sub_inf_le hfees hinf) hle
  · exact net_le hfloat hgross hbf hbf' hsf hsf' hδ

end

section
variable [PyReader] {notional : PyFloat} {depth : List (String × Depth)} {buyEx sellEx : String}
  {topAsk topBid : PyFloat}

theorem walkAsks_float {asks : JsonValue} {amount vwap : PyFloat}
    (h : walkAsksForNotional asks notional = .ok (some (amount, vwap))) : vwap.IsFloat := by
  unfold walkAsksForNotional at h
  split at h
  · cases h
  · cases hi : asks.items with
    | error x =>
      rw [hi] at h
      cases h
    | ok levels =>
      cases hl : walkAsksLoop levels notional (.finite 0) with
      | error x =>
        simp only [hi, hl, bind, Except.bind] at h
        cases h
      | ok ra =>
        simp only [hi, hl, bind, Except.bind] at h
        split at h
        · cases h
        · cases hdiv : notional.div ra.2 with
          | error x =>
            rw [hdiv] at h
            cases h
          | ok v =>
            rw [hdiv] at h
            cases h
            exact isFloat_div hdiv

theorem routePrices_float {buyDepth sellDepth : Option Depth} {b s : PyFloat}
    (htop : topAsk.IsFloat)
    (h : routePrices notional buyDepth sellDepth topAsk topBid = .ok (some (b, s))) :
    b.IsFloat := by
  cases buyDepth with
  | none =>
    cases h
    exact htop
  | some buy =>
    cases sellDepth with
    | none =>
      cases h
      exact htop
    | some sell =>
      simp only [routePrices, bind, Except.bind] at h
      cases hw : walkAsksForNotional buy.asks notional with
      | error x =>
        rw [hw] at h
        cases h
      | ok walked =>
        cases walked with
        | none =>
          rw [hw] at h
          cases h
        | some av =>
          simp only [hw] at h
          cases hs : walkBidsForAmount sell.bids av.1 with
          | error x =>
            rw [hs] at h
            cases h
          | ok vwap =>
            cases vwap with
            | none =>
              rw [hs] at h
              cases h
            | some vwap =>
              rw [hs] at h
              cases h
              exact walkAsks_float hw

def Depth.WellFormed (d : Depth) : Prop := Walkable d.bids ∧ Walkable d.asks

theorem routePrices_returns (hdepth : ∀ p ∈ depth, p.2.WellFormed) :
    Returns (routePrices notional (depth.lookup buyEx) (depth.lookup sellEx) topAsk topBid) := by
  have hmem : ∀ {ex : String} {d : Depth}, depth.lookup ex = some d → d.WellFormed := by
    intro ex d h
    obtain ⟨l, l', hl, -⟩ := List.lookup_eq_some_iff.mp h
    exact hdepth (ex, d) (by simp [hl])
  cases hb : depth.lookup buyEx with
  | none => exact ⟨_, rfl⟩
  | some buy =>
    cases hs : depth.lookup sellEx with
    | none => exact ⟨_, rfl⟩
    | some sell =>
      obtain ⟨level, rest, hasks, -, hread⟩ := (hmem hb).2
      obtain ⟨level', rest', hbids, -, hread'⟩ := (hmem hs).1
      have hbuy : ∀ n, Returns (walkAsksForNotional buy.asks n) :=
        walkAsksForNotional_returns.mpr ⟨level :: rest, by rw [hasks]; rfl, hread⟩
      have hsell : ∀ a, Returns (walkBidsForAmount sell.bids a) :=
        walkBidsForAmount_returns.mpr ⟨level' :: rest', by rw [hbids]; rfl, hread'⟩
      obtain ⟨walked, hw⟩ := hbuy notional
      simp only [routePrices, hw, bind, Except.bind]
      cases walked with
      | none => exact ⟨_, rfl⟩
      | some av =>
        obtain ⟨vwap, hv⟩ := hsell av.1
        simp only [hv]
        cases vwap <;> exact ⟨_, rfl⟩

end

theorem pos_cases {b : PyFloat} (hb : (PyFloat.finite 0).lt b = true) :
    b = .inf ∨ ∃ q, b = .finite q ∧ 0 < q := by
  cases b with
  | finite q => exact .inr ⟨q, rfl, by simpa [lt] using hb⟩
  | inf => exact .inl rfl
  | negInf => cases hb
  | nan => cases hb

section
variable [PyText] [PyReader] {symbol : String} {minSpread notional : PyFloat}
  {depth : List (String × Depth)} {now : ℤ} {buyEx sellEx : String} {topAsk topBid : PyFloat}

/-- The route is computed, and an opportunity of it has no more net spread than gross. -/
def RouteFine (symbol : String) (minSpread notional : PyFloat) (depth : List (String × Depth))
    (now : ℤ) (buyEx : String) (topAsk : PyFloat) (sellEx : String) (topBid : PyFloat) : Prop :=
  ∃ found, spreadRoute symbol minSpread notional depth now buyEx topAsk sellEx topBid =
    .ok found ∧ ∀ opp ∈ found, opp.InOrder

def OnPrices (notional : PyFloat) (depth : List (String × Depth)) (buyEx : String)
    (topAsk : PyFloat) (sellEx : String) (topBid : PyFloat)
    (cond : ExchangeConfig → PyFloat → PyFloat → Prop) : Prop :=
  ∀ sell b s, exchangeConfig sellEx = some sell →
    routePrices notional (depth.lookup buyEx) (depth.lookup sellEx) topAsk topBid =
      .ok (some (b, s)) → cond sell b s

theorem routeFine_of (hbuy : (exchangeConfig buyEx).isSome) (hsell : (exchangeConfig sellEx).isSome)
    (htop : topAsk.IsFloat) (hdepth : ∀ p ∈ depth, p.2.WellFormed)
    (hpriced : OnPrices notional depth buyEx topAsk sellEx topBid (Priced minSpread notional))
    (hfit : OnPrices notional depth buyEx topAsk sellEx topBid (Divided minSpread notional)) :
    RouteFine symbol minSpread notional depth now buyEx topAsk sellEx topBid := by
  obtain ⟨buy, hbuy⟩ := Option.isSome_iff_exists.mp hbuy
  obtain ⟨sell, hsell⟩ := Option.isSome_iff_exists.mp hsell
  have hreturns : Returns (routePrices notional (depth.lookup buyEx) (depth.lookup sellEx) topAsk
      topBid) := routePrices_returns hdepth
  obtain ⟨prices, hprices⟩ := hreturns
  unfold RouteFine spreadRoute
  cases prices with
  | none => exact ⟨none, by rw [hprices]; rfl, fun opp hopp => by cases hopp⟩
  | some bs =>
    obtain ⟨b, s⟩ := bs
    have hp := hpriced sell b s hsell hprices
    obtain ⟨g, hg⟩ := grossSpread_returns hp.1 s
    simp only [hprices, hg, bind, Except.bind]
    cases hlow : g.lt minSpread with
    | true => exact ⟨none, rfl, fun opp hopp => by cases hopp⟩
    | false =>
      have hroute : ∃ opp, routeOpportunity symbol notional now buyEx sellEx b s g = .ok opp ∧
          opp.InOrder := opportunity_inOrder hbuy hsell (routePrices_float htop hprices) hg hlow hp
        (hfit sell b s hsell hprices)
      obtain ⟨opp, hopp, horder⟩ := hroute
      refine ⟨some opp, by rw [hopp]; rfl, fun opp' hopp' => ?_⟩
      obtain rfl := Option.some.inj hopp'
      exact horder

theorem RouteFine.computed {buy sell : ExchangeConfig} {b s g : PyFloat}
    (h : RouteFine symbol minSpread notional depth now buyEx topAsk sellEx topBid)
    (hbuy : exchangeConfig buyEx = some buy) (hsell : exchangeConfig sellEx = some sell)
    (hprices : routePrices notional (depth.lookup buyEx) (depth.lookup sellEx) topAsk topBid =
      .ok (some (b, s))) (hg : grossSpread b s = .ok g) (hlow : g.lt minSpread = false) :
    ∃ share, withdrawalPct (withdrawalUsdt sell) notional = .ok share ∧
      (PyFloat.finite 0).lt b = true ∧ (PyFloat.finite 0).lt s = true ∧
      ((((g.sub (takerFee buy)).sub (takerFee sell)).sub share).round 4).le
        (g.round 4) = true := by
  obtain ⟨found, hroute, horder⟩ := h
  simp only [spreadRoute, hprices, hg, hlow, bind, Except.bind, Bool.false_eq_true, if_false,
    routeOpportunity, hbuy, hsell] at hroute
  cases hshare : withdrawalPct (withdrawalUsdt sell) notional with
  | error x =>
    rw [hshare] at hroute
    cases hroute
  | ok share =>
    simp only [hshare] at hroute
    split at hroute
    · rename_i hvalid
      obtain ⟨hb, hs⟩ := Bool.and_eq_true_iff.mp hvalid
      cases hroute
      exact ⟨share, rfl, hb, hs, horder _ rfl⟩
    · cases hroute

/-- Of a route that is computed the prices are as they have to be, and unless the notional is
slightly negative it fits. -/
theorem of_routeFine (hbuy : (exchangeConfig buyEx).isSome)
    (h : RouteFine symbol minSpread notional depth now buyEx topAsk sellEx topBid) :
    OnPrices notional depth buyEx topAsk sellEx topBid (Priced minSpread notional) ∧
      ((∀ n, notional = .finite n → n < 0 → n ≤ -801) →
        OnPrices notional depth buyEx topAsk sellEx topBid (Divided minSpread notional)) := by
  obtain ⟨buy, hbuy⟩ := Option.isSome_iff_exists.mp hbuy
  refine ⟨fun sell b s hsell hprices => ⟨?_, fun g hg hlow => ?_⟩,
    fun hsmall sell b s hsell hprices g hg hlow => ?_⟩
  · obtain ⟨found, hroute, -⟩ := h
    rintro rfl
    simp only [spreadRoute, hprices, grossSpread_zero, bind, Except.bind] at hroute
    cases hroute
  · obtain ⟨share, hshare, hb, hs, hle⟩ := h.computed hbuy hsell hprices hg hlow
    refine ⟨?_, hs, ?_⟩
    · rcases pos_cases hb with rfl | hfinite
      · obtain rfl := grossSpread_inf hs hg
        simp [nan_sub, PyFloat.round] at hle
      · exact hfinite
    · rintro ⟨rfl, hinf⟩
      obtain rfl := Except.ok.inj (hshare.symm.trans hinf)
      obtain ⟨buyFee, hbuyFee, -⟩ := takerFee_bounds hbuy
      obtain ⟨sellFee, hsellFee, -⟩ := takerFee_bounds hsell
      have hnan : (((PyFloat.inf.sub (.finite buyFee)).sub (.finite sellFee)).sub .inf) =
          .nan := rfl
      rw [hbuyFee, hsellFee, hnan] at hle
      cases hle
  · obtain ⟨share, hshare, -, -, hle⟩ := h.computed hbuy hsell hprices hg hlow
    cases notional with
    | inf => trivial
    | negInf => trivial
    | nan =>
      have hnan : share = .nan := by
        rcases withdrawalUsdt_values hsell with ⟨-, hw⟩ | ⟨-, hw⟩
        · rw [hw] at hshare
          exact (Except.ok.inj hshare).symm
        · rw [hw] at hshare
          exact (Except.ok.inj hshare).symm
      have hsub : ∀ x : PyFloat, x.sub .nan = .nan := fun x => by cases x <;> rfl
      rw [hnan, hsub] at hle
      cases hle
    | finite n =>
      have hne : n ≠ 0 := by
        rintro rfl
        cases hshare
      refine ⟨hne, .inr ?_⟩
      rcases lt_or_gt_of_ne hne with hneg | hpos
      · exact .inr (hsmall n rfl hneg)
      · exact .inl hpos

end

end CriptoParser.Floating
