import CriptoParser.ExecutorForecast
import CriptoParser.ExecutorLoop
import CriptoParser.MoneyConservation

set_option autoImplicit false

namespace CriptoParser

open Await

def World.NonNegative (w : World) : Prop := ∀ exchange, 0 ≤ w.balanceOf exchange

/-- What the scanner puts on the stream: two different configured exchanges, each with
its taker fee. -/
structure Scanned (opp : Opportunity) : Prop where
  distinct : opp.buyExchange ≠ opp.sellExchange
  buy : ∃ cfg, exchangeConfig opp.buyExchange = some cfg ∧ opp.buyFeePct = cfg.takerFeePct
  sell : ∃ cfg, exchangeConfig opp.sellExchange = some cfg ∧ opp.sellFeePct = cfg.takerFeePct

instance (opp : Opportunity) : Decidable (Scanned opp) :=
  decidable_of_iff
    (opp.buyExchange ≠ opp.sellExchange ∧
      (∃ cfg ∈ exchangeConfig opp.buyExchange, opp.buyFeePct = cfg.takerFeePct) ∧
      ∃ cfg ∈ exchangeConfig opp.sellExchange, opp.sellFeePct = cfg.takerFeePct)
    ⟨fun h => ⟨h.1, h.2.1, h.2.2⟩, fun h => ⟨h.1, h.2, h.3⟩⟩

theorem takerFeePct_range {exchange : String} {cfg : ExchangeConfig}
    (h : exchangeConfig exchange = some cfg) : 0 ≤ cfg.takerFeePct ∧ cfg.takerFeePct ≤ 100 := by
  have hall : ∀ kv ∈ exchanges, 0 ≤ kv.2.takerFeePct ∧ kv.2.takerFeePct ≤ 100 := by
    decide +kernel
  exact hall _ (exchangeConfig_mem h)

theorem Scanned.buyFee {opp : Opportunity} (h : Scanned opp) : 0 ≤ opp.buyFeePct := by
  obtain ⟨cfg, hcfg, hfee⟩ := h.buy
  rw [hfee]
  exact (takerFeePct_range hcfg).1

theorem Scanned.buyFee_le {opp : Opportunity} (h : Scanned opp) : opp.buyFeePct ≤ 100 := by
  obtain ⟨cfg, hcfg, hfee⟩ := h.buy
  rw [hfee]
  exact (takerFeePct_range hcfg).2

theorem Scanned.sellFee {opp : Opportunity} (h : Scanned opp) : opp.sellFeePct ≤ 100 := by
  obtain ⟨cfg, hcfg, hfee⟩ := h.sell
  rw [hfee]
  exact (takerFeePct_range hcfg).2

section
variable {engine : Engine} {opp : Opportunity} {w m w' : World}

theorem transfer_nonneg (hw : w.NonNegative)
    (hm : ∀ ex, m.balanceOf ex = w.balanceOf ex + transferChange
      (w.transferDue opp.buyExchange engine.rebalanceThreshold) opp.buyExchange ex)
    (hfee : ∀ t, w.transferDue opp.buyExchange engine.rebalanceThreshold = some t →
      t.fee ≤ w.balanceOf opp.buyExchange + t.gross) : m.NonNegative := by
  intro ex
  rw [hm ex]
  cases ht : w.transferDue opp.buyExchange engine.rebalanceThreshold with
  | none => simpa [transferChange] using hw ex
  | some t =>
    obtain ⟨hne, hgross, -, -⟩ := transferDue_spec ht
    have hfee := hfee t ht
    have hdonor := hw t.donor
    by_cases hd : ex = t.donor
    · subst hd
      simp only [transferChange, if_pos, if_neg hne]
      linarith
    · by_cases hr : ex = opp.buyExchange
      · subst hr
        simp only [transferChange, if_neg hd, if_pos]
        linarith
      · simpa [transferChange, hd, hr] using hw ex

theorem Fill.Spends.sellChange_nonneg {f : Fill} {notional : ℚ} (h : f.Spends notional)
    (hfee : opp.sellFeePct ≤ 100) : 0 ≤ f.sellChange opp := by
  have hp : 0 ≤ f.sellProceeds := mul_nonneg h.amount.le h.price
  have hpart : f.sellProceeds * opp.sellFeePct ≤ f.sellProceeds * 100 :=
    mul_le_mul_of_nonneg_left hfee hp
  unfold Fill.sellChange Fill.sellFeeAbs
  linarith

theorem Fill.Spends.buyChange_fits {f : Fill} {balance pct : ℚ}
    (h : f.Spends (balance * pct / 100)) (hroom : pct * (100 + opp.buyFeePct) ≤ 10000)
    (hbalance : 0 ≤ balance) : 0 ≤ balance + f.buyChange opp := by
  have hb := mul_le_mul_of_nonneg_left hroom hbalance
  unfold Fill.buyChange Fill.buyFeeAbs
  rw [h.cost]
  linarith

theorem trade_nonneg (hscan : Scanned opp) (hm : m.NonNegative)
    {fill : Except PyExc (Option Fill)}
    (hw' : ∀ ex, w'.balanceOf ex = m.balanceOf ex + fillChange fill opp ex)
    (hfit : ∀ f, fill = .ok (some f) → f.Spends (m.balanceOf opp.buyExchange *
      engine.maxPositionPct / 100) ∧ engine.maxPositionPct * (100 + opp.buyFeePct) ≤ 10000) :
    w'.NonNegative := by
  intro ex
  rw [hw' ex]
  cases hfill : fill with
  | error x => simpa [fillChange] using hm ex
  | ok o =>
    cases o with
    | none => simpa [fillChange] using hm ex
    | some f =>
      obtain ⟨hspend, hroom⟩ := hfit f hfill
      have hsell := hspend.sellChange_nonneg hscan.sellFee
      have hbuy := hspend.buyChange_fits hroom (hm opp.buyExchange)
      by_cases hex : ex = opp.buyExchange
      · subst hex
        simpa [fillChange, hscan.distinct] using hbuy
      · by_cases hex' : ex = opp.sellExchange
        · subst hex'
          simp only [fillChange, if_neg hex, if_pos, zero_add]
          exact add_nonneg (hm _) hsell
        · simpa [fillChange, hex, hex'] using hm ex

end

section
variable [PyText]

theorem fillLater_spends {w : World} {engine : Engine} {opp : Opportunity} {balance : ℚ}
    {calls : ℕ} {f : Fill} (h : w.fillLater engine opp balance calls = .ok (some f)) :
    f.Spends (balance * engine.maxPositionPct / 100) ∧
      minNotionalUsdt ≤ balance * engine.maxPositionPct / 100 := by
  unfold World.fillLater at h
  split at h
  · cases h
  · rename_i hn
    exact ⟨fillFromDepth_spends h, not_lt.mp hn⟩

def World.funds (w : World) (engine : Engine) (opp : Opportunity) : ℚ :=
  w.balanceOf opp.buyExchange + transferChange
    (w.transferDue opp.buyExchange engine.rebalanceThreshold) opp.buyExchange opp.buyExchange

theorem fillDue_spends {w : World} {engine : Engine} {opp : Opportunity} {f : Fill}
    (h : w.fillDue engine opp = .ok (some f)) :
    f.Spends (w.funds engine opp * engine.maxPositionPct / 100) ∧
      minNotionalUsdt ≤ w.funds engine opp * engine.maxPositionPct / 100 := by
  unfold World.fillDue at h
  unfold World.funds
  cases ht : w.transferDue opp.buyExchange engine.rebalanceThreshold with
  | none =>
    simp only [ht] at h
    split at h
    · cases h
    · simpa [transferChange] using fillLater_spends h
  | some t =>
    simp only [ht] at h
    have hne := (transferDue_spec ht).1
    simpa [transferChange, Ne.symm hne] using fillLater_spends h

/-- The condition on the state a call starts in: the transfer due brings the receiver at
least its fee, and the position taken leaves room for the taker fee. -/
structure CallSolvent (engine : Engine) (opp : Opportunity) (w : World) : Prop where
  transfer : w.killSwitch = false →
    ∀ t, w.transferDue opp.buyExchange engine.rebalanceThreshold = some t →
      t.fee ≤ w.balanceOf opp.buyExchange + t.gross
  debit : w.killSwitch = false → ∀ f, w.fillDue engine opp = .ok (some f) →
    engine.maxPositionPct * (100 + opp.buyFeePct) ≤ 10000

section Outcome
variable {engine : Engine} {opp : Opportunity} {w m w' : World}

theorem outcome_nonneg_iff {r : Except PyExc (Option ExecutionResult)} (hscan : Scanned opp)
    (hpct : 0 < engine.maxPositionPct) (hw : w.NonNegative) (h : Outcome engine opp w w' r) :
    w'.NonNegative ↔ CallSolvent engine opp w := by
  cases h with
  | stopped hon hw' =>
    constructor
    · intro _
      exact ⟨fun hoff => by simp [hon] at hoff, fun hoff => by simp [hon] at hoff⟩
    · intro _ ex
      rw [hw' ex]
      exact hw ex
  | called m r hoff hm hw' hr =>
    have hfunds : m.balanceOf opp.buyExchange = w.funds engine opp := hm opp.buyExchange
    constructor
    · intro hafter
      refine ⟨fun _ t ht => ?_, fun _ f hf => ?_⟩
      · by_contra hlt
        push Not at hlt
        obtain ⟨hne, -, -, -⟩ := transferDue_spec ht
        have hneg : w.funds engine opp < 0 := by
          simp only [World.funds, ht, transferChange, if_neg hne.symm, if_pos]
          linarith
        -- nothing can be bought with a negative balance
        have hno : ∀ f, w.fillDue engine opp ≠ .ok (some f) := by
          intro f hf
          have hmin := (fillDue_spends hf).2
          have hnonpos : w.funds engine opp * engine.maxPositionPct ≤ 0 :=
            mul_nonpos_of_nonpos_of_nonneg hneg.le hpct.le
          unfold minNotionalUsdt at hmin
          linarith
        have hsame : w'.balanceOf opp.buyExchange = m.balanceOf opp.buyExchange := by
          rw [hw']
          cases hfill : w.fillDue engine opp with
          | error x => exact add_zero _
          | ok o =>
            cases o with
            | none => exact add_zero _
            | some f => exact absurd hfill (hno f)
        have := hafter opp.buyExchange
        rw [hsame, hfunds] at this
        linarith
      · obtain ⟨hspend, hmin⟩ := fillDue_spends hf
        have hpos : 0 < w.funds engine opp := by
          by_contra hle
          push Not at hle
          have hnonpos := mul_nonpos_of_nonpos_of_nonneg hle hpct.le
          unfold minNotionalUsdt at hmin
          linarith
        have hbuy := hafter opp.buyExchange
        rw [hw', hf, hfunds] at hbuy
        simp only [fillChange, if_pos, if_neg hscan.distinct, add_zero, Fill.buyChange,
          Fill.buyFeeAbs, hspend.cost] at hbuy
        have hprod : 0 ≤ w.funds engine opp *
            (10000 - engine.maxPositionPct * (100 + opp.buyFeePct)) := by
          linarith
        have := nonneg_of_mul_nonneg_right hprod hpos
        linarith
    · intro hc
      have hmid := transfer_nonneg hw hm (hc.transfer hoff)
      refine trade_nonneg hscan hmid hw' fun f hf => ⟨?_, hc.debit hoff f hf⟩
      rw [hfunds]
      exact (fillDue_spends hf).1

theorem outcome_amounts {res : ExecutionResult} (hscan : Scanned opp) (hw : w.NonNegative)
    (hw' : w'.NonNegative) (hc : CallSolvent engine opp w)
    (h : Outcome engine opp w w' (.ok (some res))) :
    (∀ u ∈ res.balanceUpdates, u.2.1 = w'.balanceOf u.1) ∧
      ∀ executed, ∀ row ∈ balanceRecords executed res, 0 ≤ row.amount := by
  cases h with
  | called m r hoff hm hafter hr =>
    generalize hfill : w.fillDue engine opp = fill at hr hafter
    cases hr with
    | traded f now uuid durationMs =>
      have hbuy : m.balanceOf opp.buyExchange + f.buyChange opp =
          w'.balanceOf opp.buyExchange := by
        rw [hafter]
        simp [fillChange, hscan.distinct]
      rw [hbuy]
      have hupdates : ∀ u ∈ (fillResult opp f
          ((w.transferDue opp.buyExchange engine.rebalanceThreshold).map
            (w.transferRecord opp.buyExchange)) (w'.balanceOf opp.buyExchange)
          (w'.balanceOf opp.sellExchange) now uuid durationMs).balanceUpdates,
          u.2.1 = w'.balanceOf u.1 := by
        simp only [fillResult, List.mem_cons, List.not_mem_nil, or_false]
        rintro u (rfl | rfl)
        · exact max_eq_right (hw' _)
        · exact max_eq_right (hw' _)
      refine ⟨hupdates, fun executed row hrow => ?_⟩
      rcases List.mem_append.mp hrow with hrow | hrow
      · obtain ⟨u, hu, rfl⟩ := List.mem_map.mp hrow
        change 0 ≤ u.2.1
        rw [hupdates u hu]
        exact hw' _
      · cases ht : w.transferDue opp.buyExchange engine.rebalanceThreshold with
        | none => simp [fillResult, ht, rebalanceRecords] at hrow
        | some t =>
          obtain ⟨-, hgross, -, -⟩ := transferDue_spec ht
          have hfee := hc.transfer hoff t ht
          have hdonor := hw t.donor
          simp only [fillResult, ht, Option.map_some, rebalanceRecords, List.mem_cons,
            List.not_mem_nil, or_false] at hrow
          rcases hrow with rfl | rfl
          · change 0 ≤ w.balanceOf t.donor - t.gross
            linarith
          · change 0 ≤ w.balanceOf opp.buyExchange + (t.gross - t.fee)
            linarith

end Outcome

/-- A call as the settings and the scanner admit it. -/
structure CallInput.Admissible (i : CallInput) : Prop where
  position : 0 < i.engine.maxPositionPct ∧ i.engine.maxPositionPct ≤ 100
  threshold : 0 ≤ i.engine.rebalanceThreshold
  scanned : Scanned i.opp

def CallRecord.Solvent (r : CallRecord) : Prop :=
  CallSolvent r.input.engine r.input.opp r.before

theorem callOnce_outcome {w : World} (hw : w.Calm) (i : CallInput) :
    Outcome i.engine i.opp (callOnce i w).before (callOnce i w).after (callOnce i w).result :=
  executeRun_outcome (executeOpportunity_goes ⟨callOnce_ends i w,
    clean_of_calm (w := (callOnce i w).before) hw (callOnce_follows i w)⟩)
    (callOnce_follows i w)

/-- Over any sequence of calls from non-negative balances: all balances stay so exactly
as long as every call is solvent; then the clamp never changes a value, and the rows keep
`balance_positive`. -/
theorem callRecords_nonneg (inputs : List CallInput) (w : World) (hw : w.Calm)
    (h₀ : w.NonNegative) (hin : ∀ i ∈ inputs, i.Admissible) :
    ((∀ r ∈ callRecords inputs w, r.after.NonNegative) ↔
      ∀ r ∈ callRecords inputs w, r.Solvent) ∧
    ((∀ r ∈ callRecords inputs w, r.Solvent) →
      ∀ r ∈ callRecords inputs w, ∀ res, r.result = .ok (some res) →
        (∀ u ∈ res.balanceUpdates, u.2.1 = r.after.balanceOf u.1) ∧
        ∀ executed, ∀ row ∈ balanceRecords executed res, 0 ≤ row.amount) := by
  induction inputs generalizing w with
  | nil => simp [callRecords]
  | cons i rest ih =>
    have hi := hin i List.mem_cons_self
    have hout := callOnce_outcome hw i
    have hbefore : (callOnce i w).before.NonNegative := h₀
    have hcalm : (callOnce i w).after.Calm := (callOnce_follows i w).calm hw
    have hiff := outcome_nonneg_iff hi.scanned hi.position.1 hbefore hout
    have hrest := fun h => ih (callOnce i w).after hcalm h fun j hj =>
      hin j (List.mem_cons_of_mem _ hj)
    simp only [callRecords, List.forall_mem_cons]
    constructor
    · constructor
      · rintro ⟨hone, hmore⟩
        exact ⟨hiff.mp hone, (hrest hone).1.mp hmore⟩
      · rintro ⟨hone, hmore⟩
        exact ⟨hiff.mpr hone, (hrest (hiff.mpr hone)).1.mpr hmore⟩
    · rintro ⟨hone, hmore⟩
      have hafter := hiff.mpr hone
      refine ⟨fun res hres => ?_, (hrest hafter).2 hmore⟩
      rw [hres] at hout
      exact outcome_amounts hi.scanned hbefore hafter hone hout

end

theorem sampleWorld_nonneg (outside : ℕ → Outside) (balances : List (String × ℚ))
    (opps : List Opportunity) (h : ∀ b ∈ balances, 0 ≤ b.2) :
    (sampleWorld outside balances opps).NonNegative := by
  intro ex
  rw [sampleWorld_balanceOf]
  cases hl : balances.lookup ex with
  | none => exact le_refl 0
  | some amount =>
    obtain ⟨l, l', hb, -⟩ := List.lookup_eq_some_iff.mp hl
    exact h (ex, amount) (by rw [hb]; simp)

/-- A position of `pct` percent on binance, sold on bybit. -/
def positionCall (pct : ℚ) : CallInput :=
  ⟨false, ⟨pct, 100⟩, sampleOpportunity "binance" "bybit" (1 / 10) (1 / 10)⟩

theorem positionCall_admissible {pct : ℚ} (h : 0 < pct) (h' : pct ≤ 100) :
    (positionCall pct).Admissible where
  position := ⟨h, h'⟩
  threshold := by
    change (0 : ℚ) ≤ 100
    decide +kernel
  scanned := {
    distinct := fun h => absurd h (by decide : "binance" ≠ "bybit")
    buy := ⟨⟨"binance", 1 / 10, 0⟩, rfl, rfl⟩
    sell := ⟨⟨"bybit", 1 / 10, 1⟩, rfl, rfl⟩ }

/-- Two calls that trade a tenth and half of the balance. -/
theorem callRecords_nonneg_twice :
    let w := sampleWorld sampleOutside [("binance", 10000)] []
    (∀ r ∈ @callRecords sampleText [positionCall 10, positionCall 50] w, r.after.NonNegative) ↔
      ∀ r ∈ @callRecords sampleText [positionCall 10, positionCall 50] w,
        @CallRecord.Solvent sampleText r :=
  (@callRecords_nonneg sampleText [positionCall 10, positionCall 50]
    (sampleWorld sampleOutside [("binance", 10000)] []) (fun _ => rfl)
    (sampleWorld_nonneg _ _ _ (by decide +kernel)) (by
      intro i hi
      simp only [List.mem_cons, List.not_mem_nil, or_false] at hi
      rcases hi with rfl | rfl
      · exact positionCall_admissible (by decide +kernel) (by decide +kernel)
      · exact positionCall_admissible (by decide +kernel) (by decide +kernel))).1

/-- A position of the whole balance leaves nothing for the fee of ten. -/
theorem callOnce_overdraws :
    (sampleWorld sampleOutside [("binance", 10000)] []).Calm ∧
      (sampleWorld sampleOutside [("binance", 10000)] []).NonNegative ∧
      (positionCall 100).Admissible ∧
      (@callOnce sampleText (positionCall 100)
        (sampleWorld sampleOutside [("binance", 10000)] [])).after.balanceOf "binance" = -10 :=
  ⟨fun _ => rfl, sampleWorld_nonneg _ _ _ (by decide +kernel),
    positionCall_admissible (by decide +kernel) (by decide +kernel), by decide +kernel⟩

end CriptoParser
