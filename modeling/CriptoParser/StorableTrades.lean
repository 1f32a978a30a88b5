import CriptoParser.RebalanceCure
import CriptoParser.StorableOpportunities
import CriptoParser.TradeAccounting

/-!
Which trades the tables `trades` and `balance` take. The rows are written after the balances
have moved, so a row that breaks a column loses the record of a trade that was made.
-/

set_option autoImplicit false

namespace CriptoParser

open Await Sql

def TradeRow.accepted (row : TradeRow) : Bool :=
  fitsVarchar 100 row.id && fitsVarchar 100 row.opportunityId && fitsVarchar 20 row.symbol &&
    fitsVarchar 20 row.buyExchange && fitsVarchar 20 row.sellExchange &&
    fitsDecimal 18 8 row.buyPrice && fitsDecimal 18 8 row.sellPrice &&
    fitsDecimal 18 8 row.amount &&
    fitsDecimal 18 8 row.buyFee && fitsDecimal 18 8 row.sellFee &&
    fitsDecimal 18 8 row.withdrawalFee && fitsDecimal 18 8 row.slippageCost &&
    fitsDecimal 18 8 row.grossPnl && fitsDecimal 18 8 row.netPnl &&
    fitsVarchar 20 row.status &&
    decide (row.status ∈ ["pending", "completed", "failed", "cancelled"]) &&
    row.durationMs.all fitsInteger

def BalanceRow.accepted (row : BalanceRow) : Bool :=
  fitsVarchar 20 row.exchange && fitsVarchar 10 row.asset &&
    fitsDecimal 18 8 row.amount && row.tradeId.all (fitsVarchar 100) &&
    row.changeAmount.all (fitsDecimal 18 8) && fitsVarchar 50 row.reason &&
    decide (0 ≤ decimalRound 8 row.amount) &&
    decide (row.reason ∈
      ["trade", "deposit", "withdrawal", "adjustment", "initial", "rebalance"])

/-- Both copies of `_persist` take the rows of the result. -/
def persistAccepted (res : ExecutionResult) : Bool :=
  match persistRecords [res] with
  | .ok (trades, balances) => trades.all TradeRow.accepted && balances.all BalanceRow.accepted
  | .error _ => false

/-- The magnitude up to which a number fits `DECIMAL(18,8)`. -/
def decimalRoom : ℚ := 10 ^ 10 - 5 / 10 ^ 9

theorem fits_room (q : ℚ) : fitsDecimal 18 8 q = true ↔ |q| < decimalRoom :=
  fitsDecimal_price q

theorem fits_pos {q : ℚ} (hq : 0 ≤ q) : fitsDecimal 18 8 q = true ↔ q < decimalRoom := by
  rw [fits_room, abs_of_nonneg hq]

theorem balanceRow_accepted {executed amount change : ℚ} {exchange reason : String}
    {tradeId : Option String} (hname : fitsVarchar 20 exchange = true)
    (hreason : reason = "trade" ∨ reason = "rebalance")
    (hid : tradeId.all (fitsVarchar 100) = true) (hamount : 0 ≤ amount) :
    (balanceRow executed exchange amount tradeId change reason).accepted = true ↔
      amount < decimalRoom ∧ |change| < decimalRoom := by
  have hcheck : decide (0 ≤ decimalRound 8 amount) = true :=
    decide_eq_true (decimalRound_nonneg 8 hamount)
  have htext : fitsVarchar 10 "USDT" = true ∧ fitsVarchar 50 reason = true ∧
      decide (reason ∈ ["trade", "deposit", "withdrawal", "adjustment", "initial",
        "rebalance"]) = true := by
    rcases hreason with rfl | rfl <;> decide +kernel
  obtain ⟨hasset, hlength, hlisted⟩ := htext
  unfold BalanceRow.accepted balanceRow
  simp only [hname, hasset, hid, hlength, hlisted, hcheck, Option.all_some, Bool.true_and,
    Bool.and_true, Bool.and_eq_true]
  rw [fits_pos hamount, fits_room]

theorem follows_mem {w w' : World} {es : List (Event Service)} {c : Call} {v : c.Reply}
    (h : Follows World.serve w es w') (he : (⟨c, .ok v⟩ : Event Service) ∈ es) :
    ∃ m : World, m.outside = w.outside ∧ v = m.arrive.answer c := by
  induction es generalizing w with
  | nil => cases he
  | cons e es ih =>
    rcases List.mem_cons.mp he with rfl | hmem
    · exact ⟨w, rfl, (follows_cons_ok h).1⟩
    · obtain ⟨m, hm, hv⟩ := ih h.2 hmem
      have hone : Follows World.serve w [e] (World.serve e.call w).2 := ⟨h.1, rfl⟩
      exact ⟨m, hm.trans (follows_outside hone), hv⟩

def tradeId [PyText] (now : ℚ) (uuid : String) : String :=
  "trade_" ++ PyText.strInt (pyInt (now * 1000)) ++ "_" ++ String.ofList (uuid.toList.take 8)

section
variable [PyText]

/-- The clock and the ids of the process fit the columns they are written to: the id of a trade
has some thirty characters, and a call takes no weeks. -/
structure ClockFits (w : World) : Prop where
  id : ∀ j k, fitsVarchar 100 (tradeId (w.outside j).time (w.outside k).uuid) = true
  duration : ∀ j k,
    fitsInteger (pyInt (((w.outside j).time - (w.outside k).time) * 1000)) = true

variable {engine : Engine} {opp : Opportunity} {res : ExecutionResult}

theorem tradeWith_stamped {start balance : ℚ} {rb : Option RebalanceResult}
    {es : List (Event Service)}
    (h : (tradeWith engine opp start balance rb).Goes es (.ok (some res))) :
    ∃ (f : Fill) (t : ℚ) (uuid : String) (t' : ℚ), (⟨.time, .ok t⟩ : Event Service) ∈ es ∧
      (⟨.uuid4, .ok uuid⟩ : Event Service) ∈ es ∧ (⟨.time, .ok t'⟩ : Event Service) ∈ es ∧
      res.trade = f.trade opp (pyInt (t * 1000)) uuid (pyInt ((t' - start) * 1000)) := by
  unfold tradeWith at h
  by_cases hn : balance * engine.maxPositionPct / 100 < minNotionalUsdt
  · rw [if_pos hn] at h
    obtain ⟨-, hr⟩ := (Prog.goes_pure _ _ _).mp h
    cases hr
  simp only [if_neg hn, Prog.goes_call_bind, Prog.goes_lift_bind] at h
  obtain ⟨now, es', rfl, raws, es'', rfl, h⟩ := h
  rcases h with ⟨fill, hfill, h⟩ | ⟨x, -, -, hx⟩
  · cases fill with
    | none =>
      obtain ⟨-, hr⟩ := (Prog.goes_pure _ _ _).mp h
      cases hr
    | some f =>
      simp only [bookFill, updateBalance, Prog.goes_call_bind] at h
      obtain ⟨newBuy, es₁, rfl, newSell, es₂, rfl, t, es₃, rfl, uuid, es₄, rfl, t', es₅, rfl,
        h⟩ := h
      obtain ⟨-, hr⟩ := (Prog.goes_pure _ _ _).mp h
      cases hr
      exact ⟨f, t, uuid, t', by simp, by simp, by simp, rfl⟩
  · cases hx

theorem executeOpportunity_stamped {es : List (Event Service)}
    (h : (executeOpportunity engine opp).Goes es (.ok (some res))) :
    ∃ (f : Fill) (start t : ℚ) (uuid : String) (t' : ℚ), (⟨.time, .ok start⟩ : Event Service) ∈ es ∧
      (⟨.time, .ok t⟩ : Event Service) ∈ es ∧ (⟨.uuid4, .ok uuid⟩ : Event Service) ∈ es ∧
      (⟨.time, .ok t'⟩ : Event Service) ∈ es ∧
      res.trade = f.trade opp (pyInt (t * 1000)) uuid (pyInt ((t' - start) * 1000)) := by
  unfold executeOpportunity at h
  rw [Prog.goes_call_bind] at h
  obtain ⟨stopped, es', rfl, h⟩ := h
  cases stopped with
  | true =>
    obtain ⟨-, hr⟩ := (Prog.goes_pure _ _ _).mp h
    cases hr
  | false =>
    rw [if_neg Bool.false_ne_true, Prog.goes_call_bind] at h
    obtain ⟨start, es₁, rfl, h⟩ := h
    rw [Prog.goes_bind] at h
    rcases h with ⟨b, es₂, es₃, rfl, -, h⟩ | ⟨x, -, hx⟩
    · rw [Prog.goes_bind] at h
      rcases h with ⟨rb, es₄, es₅, rfl, -, h⟩ | ⟨x, -, hx⟩
      · have htrade : ∃ balance, (tradeWith engine opp start balance rb).Goes es₅
            (.ok (some res)) := by
          cases rb with
          | some rb => exact ⟨_, h⟩
          | none =>
            simp only at h
            split at h
            · obtain ⟨-, hr⟩ := (Prog.goes_pure _ _ _).mp h
              cases hr
            · exact ⟨_, h⟩
        obtain ⟨balance, htrade⟩ := htrade
        obtain ⟨f, t, uuid, t', ht, hu, ht', hrec⟩ := tradeWith_stamped htrade
        exact ⟨f, start, t, uuid, t', by simp, by simp [ht], by simp [hu], by simp [ht'], hrec⟩
      · cases hx
    · cases hx

theorem returned_stamp {w : World} (hclock : ClockFits w)
    (h : ((executeOpportunity engine opp).run World.serve w).1 = .ok (some res)) :
    fitsVarchar 100 res.trade.id = true ∧ res.trade.durationMs.all fitsInteger = true := by
  have hgoes := (executeOpportunity_straight engine opp).goes_trace World.serve h
  have hfollows := Prog.follows_trace World.serve (executeOpportunity engine opp) w
  obtain ⟨f, start, t, uuid, t', hstart, ht, hu, ht', hrec⟩ := executeOpportunity_stamped hgoes
  obtain ⟨m₀, hm₀, rfl⟩ := follows_mem hfollows hstart
  obtain ⟨m₁, hm₁, rfl⟩ := follows_mem hfollows ht
  obtain ⟨m₂, hm₂, rfl⟩ := follows_mem hfollows hu
  obtain ⟨m₃, hm₃, rfl⟩ := follows_mem hfollows ht'
  have hclockAt : ∀ {m : World}, m.outside = w.outside →
      m.arrive.answer .time = (w.outside m.tick).time := by
    intro m hm
    rw [← hm]
    rfl
  have huuidAt : m₂.arrive.answer .uuid4 = (w.outside m₂.tick).uuid := by
    rw [← hm₂]
    rfl
  rw [hclockAt hm₀, hclockAt hm₁, hclockAt hm₃, huuidAt] at hrec
  rw [hrec]
  exact ⟨hclock.id m₁.tick m₂.tick, hclock.duration m₃.tick m₀.tick⟩

end

/-- The figures of a fill that have no bound of their own. -/
structure FillFits (opp : Opportunity) (sellBalance : ℚ) (f : Fill) : Prop where
  amount : f.amount < decimalRoom
  buyPrice : f.effectiveBuy < decimalRoom
  sellPrice : f.effectiveSell < decimalRoom
  gross : |f.grossPnl| < decimalRoom
  slippage : |f.slippageCost| < decimalRoom
  credit : f.sellChange opp < decimalRoom
  balance : sellBalance + f.sellChange opp < decimalRoom

/-- The figures that are bounded by the position `n`, and by the credit of the sale. -/
structure FillBounded (opp : Opportunity) (n : ℚ) (f : Fill) : Prop where
  amount : 0 < f.amount
  buyPrice : 0 < f.effectiveBuy
  sellPrice : 0 ≤ f.effectiveSell
  position : 0 < n ∧ n < 10 ^ 9
  debit : -(2 * n) ≤ f.buyChange opp ∧ f.buyChange opp ≤ -n
  buyFee : |f.buyFeeAbs opp| < decimalRoom
  sellFee : 0 ≤ f.sellFeeAbs opp ∧ f.sellFeeAbs opp ≤ f.sellChange opp

theorem Scanned.fees {opp : Opportunity} (h : Scanned opp) :
    (0 ≤ opp.buyFeePct ∧ opp.buyFeePct ≤ 3 / 10) ∧
      0 ≤ opp.sellFeePct ∧ opp.sellFeePct ≤ 3 / 10 := by
  obtain ⟨buy, hbuy, hbuyFee⟩ := h.buy
  obtain ⟨sell, hsell, hsellFee⟩ := h.sell
  obtain ⟨-, -, -, hb, hb', -⟩ := exchangeConfig_fits hbuy
  obtain ⟨-, -, -, hs, hs', -⟩ := exchangeConfig_fits hsell
  rw [hbuyFee, hsellFee]
  exact ⟨⟨hb, hb'⟩, hs, hs'⟩

section
variable {opp : Opportunity} {f : Fill} {n : ℚ}

theorem Fill.Spends.bounded (h : f.Spends n) (hscan : Scanned opp) (hn : 0 < n)
    (hn' : n < 10 ^ 9) : FillBounded opp n f := by
  obtain ⟨⟨hb, hb'⟩, hs, hs'⟩ := hscan.fees
  have hprice : 0 < f.effectiveBuy := by
    have hcost := h.cost
    unfold Fill.buyCost at hcost
    exact pos_of_mul_pos_right (hcost ▸ hn) h.amount.le
  have hfee : f.buyFeeAbs opp = n * opp.buyFeePct / 100 := by rw [Fill.buyFeeAbs, h.cost]
  have hfeeLow : 0 ≤ n * opp.buyFeePct := mul_nonneg hn.le hb
  have hfeeHigh : n * opp.buyFeePct ≤ n * (3 / 10) := mul_le_mul_of_nonneg_left hb' hn.le
  have hproceeds : 0 ≤ f.sellProceeds := mul_nonneg h.amount.le h.price
  have hpart : f.sellProceeds * opp.sellFeePct ≤ f.sellProceeds * (3 / 10) :=
    mul_le_mul_of_nonneg_left hs' hproceeds
  have hpartLow : 0 ≤ f.sellProceeds * opp.sellFeePct := mul_nonneg hproceeds hs
  refine ⟨h.amount, hprice, h.price, ⟨hn, hn'⟩, ⟨?_, ?_⟩, ?_, ?_, ?_⟩
  · rw [Fill.buyChange, h.cost, hfee]
    linarith
  · rw [Fill.buyChange, h.cost, hfee]
    linarith
  · rw [hfee, decimalRoom, abs_lt]
    constructor <;> linarith
  · rw [Fill.sellFeeAbs]
    linarith
  · rw [Fill.sellChange, Fill.sellFeeAbs]
    linarith

theorem FillBounded.fits (h : FillBounded opp n f) (hcredit : f.sellChange opp < decimalRoom) :
    |f.sellFeeAbs opp| < decimalRoom ∧ |f.netPnl opp| < decimalRoom ∧
      |f.sellChange opp| < decimalRoom ∧ |f.buyChange opp| < decimalRoom := by
  obtain ⟨hpos, hmax⟩ := h.position
  obtain ⟨hlow, hhigh⟩ := h.debit
  obtain ⟨hfee, hle⟩ := h.sellFee
  rw [Fill.netPnl_eq]
  unfold decimalRoom at hcredit ⊢
  refine ⟨abs_lt.mpr ⟨?_, ?_⟩, abs_lt.mpr ⟨?_, ?_⟩, abs_lt.mpr ⟨?_, ?_⟩, abs_lt.mpr ⟨?_, ?_⟩⟩ <;>
    linarith

end

/-- The texts of an opportunity fit the columns they are copied to. -/
structure TextFits (opp : Opportunity) : Prop where
  id : fitsVarchar 100 opp.id = true
  symbol : fitsVarchar 20 opp.symbol = true

theorem Scanned.names {opp : Opportunity} (h : Scanned opp) :
    fitsVarchar 20 opp.buyExchange = true ∧ fitsVarchar 20 opp.sellExchange = true := by
  obtain ⟨buy, hbuy, -⟩ := h.buy
  obtain ⟨sell, hsell, -⟩ := h.sell
  exact ⟨(exchangeConfig_fits hbuy).1, (exchangeConfig_fits hsell).1⟩

theorem transferDue_le {w : World} {exchange : String} {threshold : ℚ} {t : Transfer}
    (h : w.transferDue exchange threshold = some t) : w.balanceOf exchange ≤ threshold := by
  by_contra hc
  rw [World.transferDue, if_pos (not_le.mp hc)] at h
  cases h

theorem transferRows_accepted {executed : ℚ} {w : World} {opp : Opportunity}
    (hscan : Scanned opp) (hbal : ∀ ex, w.balanceOf ex < 10 ^ 10)
    (hfunds : 0 ≤ w.balanceOf opp.buyExchange +
      transferChange (w.transferDue opp.buyExchange 100) opp.buyExchange opp.buyExchange) :
    (rebalanceRecords executed ((w.transferDue opp.buyExchange 100).map
      (w.transferRecord opp.buyExchange))).all BalanceRow.accepted = true := by
  cases ht : w.transferDue opp.buyExchange 100 with
  | none => rfl
  | some t =>
    obtain ⟨hne, hgross, hgt, hfee⟩ := transferDue_spec ht
    obtain ⟨-, cfg, hcfg, hfeeEq⟩ := transferDue_donor ht
    obtain ⟨hname, -, -, -, -, -, hfeeLe⟩ := exchangeConfig_fits hcfg
    have hlow := transferDue_le ht
    have hdonor := hbal t.donor
    rw [ht] at hfunds
    simp only [transferChange, if_neg hne.symm, if_pos, zero_add] at hfunds
    rw [← hfeeEq] at hfeeLe
    have hdonorRow := @balanceRow_accepted executed (w.balanceOf t.donor - t.gross)
      (-(w.balanceOf t.donor / 2)) t.donor "rebalance" none hname (.inr rfl) rfl (by linarith)
    have hreceiverRow := @balanceRow_accepted executed
      (w.balanceOf opp.buyExchange + (t.gross - t.fee)) (w.balanceOf t.donor / 2 - t.fee)
      opp.buyExchange "rebalance" none hscan.names.1 (.inr rfl) rfl hfunds
    have hdonorFits := hdonorRow.mpr (by
      unfold decimalRoom
      refine ⟨by linarith, abs_lt.mpr ⟨by linarith, by linarith⟩⟩)
    have hreceiverFits := hreceiverRow.mpr (by
      unfold decimalRoom
      refine ⟨by linarith, abs_lt.mpr ⟨by linarith, by linarith⟩⟩)
    simp only [Option.map_some, rebalanceRecords, List.all_cons, List.all_nil, Bool.and_true,
      Bool.and_eq_true]
    exact ⟨hdonorFits, hreceiverFits⟩

theorem funds_lt (opp : Opportunity) (pct : ℚ) {w : World}
    (hbal : ∀ ex, w.balanceOf ex < 10 ^ 10) : w.funds ⟨pct, 100⟩ opp < 10 ^ 10 := by
  unfold World.funds
  cases ht : w.transferDue opp.buyExchange 100 with
  | none => simpa [transferChange] using hbal opp.buyExchange
  | some t =>
    obtain ⟨hne, hgross, -, hfee⟩ := transferDue_spec ht
    have hdonor := hbal t.donor
    have hlow := transferDue_le ht
    simp only [transferChange, if_neg hne.symm, if_pos, zero_add]
    linarith

section
variable [PyText] {opp : Opportunity} {f : Fill} {n : ℚ}

theorem tradeRow_accepted {now durationMs : ℤ} {uuid : String} {row : TradeRow}
    (hscan : Scanned opp) (hb : FillBounded opp n f)
    (hid : fitsVarchar 100 (f.trade opp now uuid durationMs).id = true)
    (hduration : (f.trade opp now uuid durationMs).durationMs.all fitsInteger = true)
    (hrow : tradeRecord (f.trade opp now uuid durationMs) = .ok row) :
    row.accepted = true ↔ TextFits opp ∧ f.effectiveBuy < decimalRoom ∧
      f.effectiveSell < decimalRoom ∧ f.amount < decimalRoom ∧
      |f.sellFeeAbs opp| < decimalRoom ∧ |f.slippageCost| < decimalRoom ∧
      |f.grossPnl| < decimalRoom ∧ |f.netPnl opp| < decimalRoom := by
  obtain ⟨hbuyName, hsellName⟩ := hscan.names
  have hstatus : fitsVarchar 20 "completed" = true := by decide +kernel
  have hlisted : decide ("completed" ∈ ["pending", "completed", "failed", "cancelled"]) = true := by
    decide +kernel
  have hzero : fitsDecimal 18 8 0 = true := by decide +kernel
  have hbuyFee := (fits_room _).mpr hb.buyFee
  cases hrow
  simp only [TradeRow.accepted, Fill.trade] at hid hduration ⊢
  simp only [hid, hduration, hbuyName, hsellName, hstatus, hzero, hbuyFee, Bool.and_true,
    Bool.true_and, Bool.and_eq_true, fits_pos hb.buyPrice.le, fits_pos hb.sellPrice,
    fits_pos hb.amount.le, fits_room]
  constructor
  · rintro ⟨⟨⟨⟨⟨⟨⟨⟨⟨hopp, hsym⟩, hbuy⟩, hsell⟩, hamount⟩, hfee⟩, hslip⟩, hgross⟩, hnet⟩, -⟩
    exact ⟨⟨hopp, hsym⟩, hbuy, hsell, hamount, hfee, hslip, hgross, hnet⟩
  · rintro ⟨⟨hopp, hsym⟩, hbuy, hsell, hamount, hfee, hslip, hgross, hnet⟩
    exact ⟨⟨⟨⟨⟨⟨⟨⟨⟨hopp, hsym⟩, hbuy⟩, hsell⟩, hamount⟩, hfee⟩, hslip⟩, hgross⟩, hnet⟩,
      hlisted⟩

theorem fillResult_accepted {w : World} {now durationMs : ℤ} {uuid : String}
    {newBuy newSell : ℚ}
    (hscan : Scanned opp) (hb : FillBounded opp n f)
    (hid : fitsVarchar 100 (f.trade opp now uuid durationMs).id = true)
    (hduration : (f.trade opp now uuid durationMs).durationMs.all fitsInteger = true)
    (hbuy : newBuy < decimalRoom)
    (htransfer : ∀ executed, (rebalanceRecords executed ((w.transferDue opp.buyExchange 100).map
      (w.transferRecord opp.buyExchange))).all BalanceRow.accepted = true) :
    persistAccepted (fillResult opp f ((w.transferDue opp.buyExchange 100).map
        (w.transferRecord opp.buyExchange)) newBuy newSell now uuid durationMs) = true ↔
      TextFits opp ∧ f.effectiveBuy < decimalRoom ∧ f.effectiveSell < decimalRoom ∧
        f.amount < decimalRoom ∧ |f.slippageCost| < decimalRoom ∧ |f.grossPnl| < decimalRoom ∧
        f.sellChange opp < decimalRoom ∧ newSell < decimalRoom := by
  obtain ⟨hbuyName, hsellName⟩ := hscan.names
  obtain ⟨row, hrow⟩ : ∃ row, tradeRecord (f.trade opp now uuid durationMs) = .ok row := ⟨_, rfl⟩
  have hroom : (0 : ℚ) < decimalRoom := by decide +kernel
  have htrade := tradeRow_accepted hscan hb hid hduration hrow
  have hbuyRow := @balanceRow_accepted row.time (max 0 newBuy) (f.buyChange opp) opp.buyExchange
    "trade" (some (f.trade opp now uuid durationMs).id) hbuyName (.inl rfl) hid (le_max_left _ _)
  have hsellRow := @balanceRow_accepted row.time (max 0 newSell) (f.sellChange opp)
    opp.sellExchange "trade" (some (f.trade opp now uuid durationMs).id) hsellName (.inl rfl) hid
    (le_max_left _ _)
  rw [max_lt_iff, and_iff_right hroom] at hbuyRow hsellRow
  have hall : persistAccepted (fillResult opp f ((w.transferDue opp.buyExchange 100).map
      (w.transferRecord opp.buyExchange)) newBuy newSell now uuid durationMs) = true ↔
      row.accepted = true ∧
        (balanceRow row.time opp.buyExchange (max 0 newBuy)
          (some (f.trade opp now uuid durationMs).id) (f.buyChange opp) "trade").accepted = true ∧
        (balanceRow row.time opp.sellExchange (max 0 newSell)
          (some (f.trade opp now uuid durationMs).id) (f.sellChange opp) "trade").accepted =
            true := by
    unfold persistAccepted fillResult
    simp only [persistRecords, hrow, bind, Except.bind, balanceRecords, List.all_cons,
      List.all_nil, List.all_append, List.map_cons, List.map_nil, htransfer, Bool.and_true,
      Bool.and_eq_true]
  rw [hall, htrade, hbuyRow, hsellRow]
  constructor
  · rintro ⟨⟨htext, hp, hs, ha, -, hslip, hgross, -⟩, -, hnewSell, hcredit⟩
    exact ⟨htext, hp, hs, ha, hslip, hgross, (abs_lt.mp hcredit).2, hnewSell⟩
  · rintro ⟨htext, hp, hs, ha, hslip, hgross, hcredit, hnewSell⟩
    obtain ⟨hfee, hnet, hsellChange, hbuyChange⟩ := hb.fits hcredit
    exact ⟨⟨htext, hp, hs, ha, hfee, hslip, hgross, hnet⟩, ⟨hbuy, hbuyChange⟩, hnewSell,
      hsellChange⟩

theorem FillOf.unique {buy sell : Book} {g : Fill} (hf : FillOf buy sell n f)
    (hg : FillOf buy sell n g) : f = g := by
  obtain ⟨amount, effectiveBuy, effectiveSell, topAsk, topBid⟩ := f
  obtain ⟨amount', effectiveBuy', effectiveSell', topAsk', topBid'⟩ := g
  cases hf.asks.symm.trans hg.asks
  cases hf.bids.symm.trans hg.bids
  obtain ⟨qa, ra, ha⟩ := hf.topAsk
  obtain ⟨qa', ra', ha'⟩ := hg.topAsk
  obtain ⟨qb, rb, hb⟩ := hf.topBid
  obtain ⟨qb', rb', hb'⟩ := hg.topBid
  cases ha.symm.trans ha'
  cases hb.symm.trans hb'
  rfl

/-- What a call with the default settings returns is stored exactly if the texts of the
opportunity fit, and the figures that the books alone bound do. -/
theorem trade_storable (opp : Opportunity) (w : World) (buy sell : Book) (res : ExecutionResult)
    (hscan : Scanned opp) (hbal : ∀ ex, w.balanceOf ex < 10 ^ 10) (hclock : ClockFits w)
    (hbooks : BooksDue w ⟨10, 100⟩ opp buy sell)
    (h : ((executeOpportunity ⟨10, 100⟩ opp).run World.serve w).1 = .ok (some res)) :
    persistAccepted res = true ↔ TextFits opp ∧
      ∀ f, FillOf buy sell (w.funds ⟨10, 100⟩ opp * 10 / 100) f →
        FillFits opp (w.balanceOf opp.sellExchange + transferChange
          (w.transferDue opp.buyExchange 100) opp.buyExchange opp.sellExchange) f := by
  have hout := returned_outcome h
  generalize ((executeOpportunity ⟨10, 100⟩ opp).run World.serve w).2 = w' at hout
  cases hout with
  | called m r hoff hm hafter hr =>
    generalize hfill : w.fillDue ⟨10, 100⟩ opp = fill at hr hafter
    cases hr with
    | traded f now uuid durationMs =>
      obtain ⟨hid, hduration⟩ := returned_stamp hclock h
      have hof := fillDue_books hfill hbooks
      obtain ⟨hspend, hmin⟩ := fillDue_spends hfill
      change f.Spends (w.funds ⟨10, 100⟩ opp * 10 / 100) at hspend
      change 10 ≤ w.funds ⟨10, 100⟩ opp * 10 / 100 at hmin
      change FillOf buy sell (w.funds ⟨10, 100⟩ opp * 10 / 100) f at hof
      have hfunds := funds_lt opp 10 hbal
      have hm' := hm opp.buyExchange
      change m.balanceOf opp.buyExchange = w.funds ⟨10, 100⟩ opp at hm'
      have hb := hspend.bounded hscan (by linarith) (by linarith)
      obtain ⟨hlow, hhigh⟩ := hb.debit
      have hsell : w'.balanceOf opp.sellExchange = w.balanceOf opp.sellExchange +
          transferChange (w.transferDue opp.buyExchange 100) opp.buyExchange opp.sellExchange +
            f.sellChange opp := by
        rw [hafter, hm]
        simp [fillChange, hscan.distinct.symm]
      have hnewBuy : m.balanceOf opp.buyExchange + f.buyChange opp < decimalRoom := by
        rw [hm']
        unfold decimalRoom
        linarith
      have hnonneg : 0 ≤ w.funds ⟨10, 100⟩ opp := by linarith
      rw [fillResult_accepted hscan hb hid hduration hnewBuy
        fun _ => transferRows_accepted hscan hbal hnonneg, hsell]
      constructor
      · rintro ⟨htext, hp, hs, ha, hslip, hgross, hcredit, hnewSell⟩
        refine ⟨htext, fun g hg => ?_⟩
        cases hof.unique hg
        exact ⟨ha, hp, hs, hgross, hslip, hcredit, hnewSell⟩
      · rintro ⟨htext, hfits⟩
        have hf := hfits f hof
        exact ⟨htext, hf.buyPrice, hf.sellPrice, hf.amount, hf.slippage, hf.gross, hf.credit,
          hf.balance⟩

end

/-- Two thousand spent and sold over three levels a side. -/
theorem trade_storable_sample : ∃ res,
    ((@executeOpportunity threeLevelText ⟨10, 100⟩ (positionCall 10).opp).run World.serve
      (sampleWorld threeLevelOutside [("binance", 20000)] [])).1 = .ok (some res) ∧
    (persistAccepted res = true ↔ TextFits (positionCall 10).opp ∧
      ∀ f, @FillOf threeLevelText ⟨0, threeLevelBids, threeLevelAsks⟩ ⟨0, threeLevelBids, threeLevelAsks⟩
        ((sampleWorld threeLevelOutside [("binance", 20000)] []).funds ⟨10, 100⟩
          (positionCall 10).opp * 10 / 100) f →
        FillFits (positionCall 10).opp ((sampleWorld threeLevelOutside [("binance", 20000)]
          []).balanceOf "bybit" + transferChange ((sampleWorld threeLevelOutside [("binance", 20000)]
          []).transferDue "binance" 100) "binance" "bybit") f) := by
  obtain ⟨res, hres⟩ := exists_returned (r := ((@executeOpportunity threeLevelText ⟨10, 100⟩
    (positionCall 10).opp).run World.serve
    (sampleWorld threeLevelOutside [("binance", 20000)] [])).1) (by decide +kernel)
  have hclock : @ClockFits threeLevelText (sampleWorld threeLevelOutside [("binance", 20000)] []) := by
    have hid : fitsVarchar 100 (@tradeId threeLevelText 0 "") = true := by decide +kernel
    have hduration : fitsInteger (pyInt ((0 - 0) * 1000)) = true := by decide +kernel
    exact @ClockFits.mk threeLevelText _ (fun _ _ => hid) fun _ _ => hduration
  have hbal : ∀ ex, (sampleWorld threeLevelOutside [("binance", 20000)] []).balanceOf ex <
      10 ^ 10 := by
    intro ex
    rw [sampleWorld_balanceOf]
    by_cases h : ex = "binance"
    · subst h
      decide +kernel
    · have hne : (ex == "binance") = false := by simpa using h
      rw [List.lookup_cons, hne]
      exact (by decide +kernel : (0 : ℚ) < 10 ^ 10)
  exact ⟨res, hres, @trade_storable threeLevelText _ _ _ _ res (by decide +kernel) hbal hclock
    (@BooksDue.mk threeLevelText _ _ _ _ _ rfl rfl) hres⟩

def dustText : String :=
  "\x7b\"ts\": 0, \"bids\": [[1e-09, 1e13]], \"asks\": [[1e-09, 1e13]]\x7d"

/-- Both sides offer ten trillion coins at a billionth of a dollar. -/
def dustBook : Book := ⟨0, [(1 / 10 ^ 9, 10 ^ 13)], [(1 / 10 ^ 9, 10 ^ 13)]⟩

@[reducible] def dustReader : PyText := .ofTables [] [(dustText, dustBook.document)]

def dustWorld : World :=
  sampleWorld (fun _ => { (default : Outside) with depth := fun _ => some dustText })
    [("binance", 10000)] []

/-- The balances have moved, and the amount of 10^12 has no room in its column. -/
theorem trade_unstorable :
    (∀ pq ∈ dustBook.asks ++ dustBook.bids, 0 < pq.1 ∧ 0 < pq.2) ∧
    (((@executeOpportunity dustReader ⟨10, 100⟩ (positionCall 10).opp).run World.serve
      dustWorld).1.toOption.join.map fun res =>
        (res.trade.amount, fitsDecimal 18 8 res.trade.amount, persistAccepted res)) =
      some (10 ^ 12, false, false) ∧
    dustWorld.balanceOf "binance" = 10000 ∧
    ((@executeOpportunity dustReader ⟨10, 100⟩ (positionCall 10).opp).run World.serve
      dustWorld).2.balanceOf "binance" = 8999 := by
  decide +kernel

end CriptoParser
