import CriptoParser.ExecutorForecast

set_option autoImplicit false

namespace CriptoParser

open Await

theorem transferDue_donor {w : World} {exchange : String} {threshold : ℚ} {t : Transfer}
    (h : w.transferDue exchange threshold = some t) :
    richest w.snapshot = some t.donor ∧
      ∃ cfg, exchangeConfig t.donor = some cfg ∧ t.fee = cfg.withdrawalUsdt := by
  unfold World.transferDue at h
  split at h
  · cases h
  · cases hrich : richest w.snapshot with
    | none =>
      simp only [hrich] at h
      cases h
    | some donor =>
      simp only [hrich] at h
      split at h
      · cases h
      · obtain ⟨cfg, hcfg, rfl⟩ := Option.map_eq_some_iff.mp h
        exact ⟨rfl, cfg, hcfg, rfl⟩

theorem maybeRebalance_due {exchange : String} {threshold : ℚ} {w : World} {rb : RebalanceResult}
    (h : ((maybeRebalance exchange (w.balanceOf exchange) threshold).run World.serve w).1 =
      .ok (some rb)) :
    ∃ t, w.transferDue exchange threshold = some t ∧ rb = w.transferRecord exchange t ∧
      ∀ ex, ((maybeRebalance exchange (w.balanceOf exchange) threshold).run
        World.serve w).2.balanceOf ex =
          w.balanceOf ex + transferChange (some t) exchange ex := by
  have hgoes := (maybeRebalance_straight exchange (w.balanceOf exchange) threshold).goes_trace
    World.serve h
  have hfollows := Prog.follows_trace World.serve
    (maybeRebalance exchange (w.balanceOf exchange) threshold) w
  obtain ⟨rb', hrb', hrun⟩ := maybeRebalance_goes hgoes
  cases hrb'
  obtain ⟨hdue, hbal, -⟩ := rebalanceRun_due hrun hfollows rfl
  obtain ⟨t, ht, hrec⟩ := Option.map_eq_some_iff.mp hdue.symm
  rw [ht] at hbal
  exact ⟨t, ht, hrec.symm, hbal⟩

/-- What a transfer of `rb` has done between the worlds `w` and `w'`. -/
structure Rebalanced (exchange : String) (threshold : ℚ) (rb : RebalanceResult) (w w' : World) :
    Prop where
  receiver : rb.receiver = exchange
  other : rb.donor ≠ exchange
  richest : rb.donor ∈ balanceExchanges ∧
    ∀ ex ∈ balanceExchanges, w.balanceOf ex ≤ w.balanceOf rb.donor
  fee : ∃ cfg, exchangeConfig rb.donor = some cfg ∧ rb.fee = cfg.withdrawalUsdt
  donor : w'.balanceOf rb.donor = w.balanceOf rb.donor / 2
  receives : w'.balanceOf exchange = w.balanceOf exchange + (w.balanceOf rb.donor / 2 - rb.fee)
  others : ∀ ex, ex ≠ rb.donor → ex ≠ exchange → w'.balanceOf ex = w.balanceOf ex
  gains : w.balanceOf exchange < w'.balanceOf exchange ↔ rb.fee < w.balanceOf rb.donor / 2
  donorCured : threshold < w'.balanceOf rb.donor ↔ 2 * threshold < w.balanceOf rb.donor
  receiverCured : threshold < w'.balanceOf exchange ↔
    threshold + rb.fee < w.balanceOf exchange + w.balanceOf rb.donor / 2
  idle : ∀ ex, threshold < w'.balanceOf ex →
    maybeRebalance ex (w'.balanceOf ex) threshold = pure none

/-- A transfer moves half of the balance of a richest exchange; whether that cures the two
depends on the threshold and the fee. -/
theorem maybeRebalance_halves (exchange : String) (threshold : ℚ) (w : World)
    (rb : RebalanceResult)
    (h : ((maybeRebalance exchange (w.balanceOf exchange) threshold).run World.serve w).1 =
      .ok (some rb)) :
    Rebalanced exchange threshold rb w
      ((maybeRebalance exchange (w.balanceOf exchange) threshold).run World.serve w).2 := by
  obtain ⟨t, ht, rfl, hbal⟩ := maybeRebalance_due h
  obtain ⟨hne, hgross, -, -⟩ := transferDue_spec ht
  obtain ⟨hrich, cfg, hcfg, hfee⟩ := transferDue_donor ht
  generalize ((maybeRebalance exchange (w.balanceOf exchange) threshold).run World.serve w).2 =
    w' at hbal
  have hdonor : w'.balanceOf t.donor = w.balanceOf t.donor / 2 := by
    rw [hbal]
    simp only [transferChange, if_pos, if_neg hne, hgross]
    ring
  have hreceiver : w'.balanceOf exchange =
      w.balanceOf exchange + (w.balanceOf t.donor / 2 - t.fee) := by
    rw [hbal]
    simp only [transferChange, if_neg hne.symm, if_pos, hgross, zero_add]
  refine ⟨rfl, hne, ⟨richest_mem hrich, richest_le hrich⟩, ⟨cfg, hcfg, hfee⟩, hdonor, hreceiver,
    fun ex hd hr => ?_, ?_, ?_, ?_, fun ex hex => if_pos hex⟩
  · have hd' : ex ≠ t.donor := hd
    rw [hbal]
    simp [transferChange, hd', hr]
  · change w.balanceOf exchange < w'.balanceOf exchange ↔ t.fee < w.balanceOf t.donor / 2
    rw [hreceiver]
    constructor
    · intro hlt
      linarith
    · intro hlt
      linarith
  · change threshold < w'.balanceOf t.donor ↔ 2 * threshold < w.balanceOf t.donor
    rw [hdonor]
    constructor
    · intro hlt
      linarith
    · intro hlt
      linarith
  · change threshold < w'.balanceOf exchange ↔
      threshold + t.fee < w.balanceOf exchange + w.balanceOf t.donor / 2
    rw [hreceiver]
    constructor
    · intro hlt
      linarith
    · intro hlt
      linarith

def shortWorld (donor : ℚ) : World :=
  sampleWorld sampleOutside [("binance", donor), ("bybit", 50)] []

def shortRun (donor : ℚ) : Except PyExc (Option RebalanceResult) × World :=
  (maybeRebalance "bybit" ((shortWorld donor).balanceOf "bybit") 100).run World.serve
    (shortWorld donor)

/-- Five exchanges hold something, and bitget holds the most. -/
def unevenWorld : World :=
  sampleWorld threeLevelOutside [("binance", 2500), ("bybit", 50), ("bitget", 40000), ("gateio", 75),
    ("kucoin", 39999)] []

theorem maybeRebalance_halves_uneven : ∃ rb,
    ((maybeRebalance "bybit" (unevenWorld.balanceOf "bybit") 100).run World.serve
      unevenWorld).1 = .ok (some rb) ∧
    Rebalanced "bybit" 100 rb unevenWorld ((maybeRebalance "bybit" (unevenWorld.balanceOf "bybit")
      100).run World.serve unevenWorld).2 := by
  have hrun : ((maybeRebalance "bybit" (unevenWorld.balanceOf "bybit") 100).run World.serve
      unevenWorld).1 = .ok (some ⟨"bitget", "bybit", 20000, 1, 19999, 20000, 20049⟩) := by
    decide +kernel
  exact ⟨_, hrun, maybeRebalance_halves "bybit" 100 unevenWorld _ hrun⟩

/-- A donor of 150 is left with 75, which calls for the next transfer, and that one costs a
fee. -/
theorem maybeRebalance_passes_shortage :
    (shortRun 150).1 = .ok (some ⟨"binance", "bybit", 75, 0, 75, 75, 125⟩) ∧
    (shortRun 150).2.balanceOf "binance" = 75 ∧ (75 : ℚ) ≤ 100 ∧
    ((maybeRebalance "binance" 75 100).run World.serve (shortRun 150).2).1 =
      .ok (some ⟨"bybit", "binance", 125 / 2, 1, 123 / 2, 125 / 2, 273 / 2⟩) := by
  decide +kernel

end CriptoParser
