import CriptoParser.DepthSizes

set_option autoImplicit false

namespace CriptoParser

open Greedy

def Fills (side : List (ℚ × ℚ)) (ts : List ℚ) : Prop :=
  List.Forall₂ (fun pq t => 0 ≤ t ∧ t ≤ pq.2) side ts

def fillCost (side : List (ℚ × ℚ)) (ts : List ℚ) : ℚ :=
  (List.zipWith (fun pq t => pq.1 * t) side ts).sum

def sideCost (side : List (ℚ × ℚ)) : ℚ := (side.map fun pq => pq.1 * pq.2).sum

def sideQuantity (side : List (ℚ × ℚ)) : ℚ := (side.map Prod.snd).sum

@[simp] theorem fillCost_cons (pq : ℚ × ℚ) (side : List (ℚ × ℚ)) (t : ℚ) (ts : List ℚ) :
    fillCost (pq :: side) (t :: ts) = pq.1 * t + fillCost side ts := by simp [fillCost]

theorem askLevels_total (side : List (ℚ × ℚ)) :
    total (askLevels side) = sideCost (positiveLevels side) := by
  rw [total, askLevels, List.map_map]
  rfl

theorem bidLevels_total (side : List (ℚ × ℚ)) :
    total (bidLevels side) = sideQuantity (positiveLevels side) := by
  rw [total, bidLevels, List.map_map]
  rfl

theorem bidLevels_within {side : List (ℚ × ℚ)} {ts : List ℚ} :
    Within (bidLevels side) ts ↔ Fills (positiveLevels side) ts := by
  unfold Within Fills bidLevels
  rw [List.forall₂_map_left_iff]

theorem bidLevels_gain (side : List (ℚ × ℚ)) (ts : List ℚ) :
    gain (bidLevels side) ts = fillCost (positiveLevels side) ts := by
  rw [gain, fillCost, bidLevels, List.zipWith_map_left]

def askLevel (pq : ℚ × ℚ) : Level ℚ := ⟨pq.1 * pq.2, 1 / pq.1⟩

theorem fills_spent {levels : List (ℚ × ℚ)} {ts : List ℚ} (hpos : ∀ pq ∈ levels, 0 < pq.1)
    (h : Fills levels ts) : ∃ us, Within (levels.map askLevel) us ∧
      us.sum = fillCost levels ts ∧ gain (levels.map askLevel) us = ts.sum := by
  induction h with
  | nil => exact ⟨[], List.Forall₂.nil, rfl, rfl⟩
  | @cons pq t rest ts ht _ ih =>
    obtain ⟨us, hus, hsum, hgain⟩ := ih fun x hx => hpos x (List.mem_cons_of_mem _ hx)
    have hp := hpos pq List.mem_cons_self
    refine ⟨pq.1 * t :: us, List.Forall₂.cons ⟨mul_nonneg hp.le ht.1,
      mul_le_mul_of_nonneg_left ht.2 hp.le⟩ hus, ?_, ?_⟩
    · rw [List.sum_cons, fillCost_cons, hsum]
    · have hone : 1 / pq.1 * (pq.1 * t) = t := by field_simp
      rw [List.map_cons, gain_cons, List.sum_cons, hgain]
      exact congrArg (· + ts.sum) hone

theorem spent_fills {levels : List (ℚ × ℚ)} {us : List ℚ} (hpos : ∀ pq ∈ levels, 0 < pq.1)
    (h : Within (levels.map askLevel) us) : ∃ ts, Fills levels ts ∧
      fillCost levels ts = us.sum ∧ ts.sum = gain (levels.map askLevel) us := by
  induction levels generalizing us with
  | nil =>
    cases h
    exact ⟨[], List.Forall₂.nil, rfl, rfl⟩
  | cons pq rest ih =>
    cases h with
    | @cons _ u _ us hu hrest =>
      obtain ⟨ts, hts, hcost, hsum⟩ := ih (fun x hx => hpos x (List.mem_cons_of_mem _ hx)) hrest
      have hp := hpos pq List.mem_cons_self
      have hle : u / pq.1 ≤ pq.2 := (div_le_iff₀' hp).mpr hu.2
      have hall : pq.1 * (u / pq.1) = u := by field_simp
      refine ⟨u / pq.1 :: ts, List.Forall₂.cons ⟨div_nonneg hu.1 hp.le, hle⟩ hts, ?_, ?_⟩
      · rw [fillCost_cons, List.sum_cons, hcost, hall]
      · rw [List.map_cons, gain_cons, List.sum_cons, hsum]
        exact congrArg (· + gain (rest.map askLevel) us) (one_div_mul_eq_div pq.1 u).symm

section
variable {side : List (ℚ × ℚ)} {n a : ℚ}

theorem left_covered {levels : List (Level ℚ)} (h : Positive levels) {x : ℚ} (hx : 0 < x) :
    left levels x ≤ depthEps * x ↔ x * (1 - depthEps) ≤ total levels := by
  have heps : 0 ≤ depthEps * x := mul_nonneg (by decide +kernel) hx.le
  rw [left_eq h hx.le, max_le_iff]
  constructor
  · intro hle
    linarith [hle.2]
  · intro hle
    exact ⟨heps, by linarith⟩

theorem covered_fill_pos {levels : List (Level ℚ)} (h : Positive levels) {x : ℚ} (hx : 0 < x)
    (hc : x * (1 - depthEps) ≤ total levels) : 0 < fill levels x := by
  refine fill_pos h ?_ hx
  rintro rfl
  have hrest : 0 < x * (1 - depthEps) := mul_pos hx (by decide +kernel)
  exact absurd hc (not_le.mpr hrest)

variable [PyText]

theorem walkAsks_some (hn : 0 < n) (amount vwap : ℚ) :
    walkAsksForNotional (.levels side) n = .ok (some (amount, vwap)) ↔
      n * (1 - depthEps) ≤ sideCost (positiveLevels side) ∧
        amount = fill (askLevels side) n ∧ vwap = n / amount := by
  have hasks := askLevels_positive side
  rw [walkAsks_levels side hn, ← askLevels_total, ← left_covered hasks hn]
  constructor
  · intro h
    split at h
    · cases h
    · rename_i hc
      cases h
      exact ⟨not_lt.mp fun hlt => hc (.inl hlt), rfl, rfl⟩
  · rintro ⟨hleft, rfl, rfl⟩
    have hpos := covered_fill_pos hasks hn ((left_covered hasks hn).mp hleft)
    rw [if_neg (not_or.mpr ⟨not_lt.mpr hleft, not_le.mpr hpos⟩)]

theorem walkBids_some (ha : 0 < a) (vwap : ℚ) :
    walkBidsForAmount (.levels side) a = .ok (some vwap) ↔
      a * (1 - depthEps) ≤ sideQuantity (positiveLevels side) ∧
        vwap = fill (bidLevels side) a / a := by
  rw [walkBids_levels side ha, ← bidLevels_total, ← left_covered (bidLevels_positive side) ha]
  constructor
  · intro h
    split at h
    · cases h
    · rename_i hc
      cases h
      exact ⟨not_lt.mp hc, rfl⟩
  · rintro ⟨hleft, rfl⟩
    rw [if_neg (not_lt.mpr hleft)]

theorem walkAsks_congr {other : List (ℚ × ℚ)} (h : positiveLevels other = positiveLevels side)
    (hn : 0 < n) :
    walkAsksForNotional (.levels other) n = walkAsksForNotional (.levels side) n := by
  rw [walkAsks_levels other hn, walkAsks_levels side hn, askLevels, askLevels, h]

theorem walkBids_congr {other : List (ℚ × ℚ)} (h : positiveLevels other = positiveLevels side)
    (ha : 0 < a) :
    walkBidsForAmount (.levels other) a = walkBidsForAmount (.levels side) a := by
  rw [walkBids_levels other ha, walkBids_levels side ha, bidLevels, bidLevels, h]

theorem walkAsks_fills (hn : 0 < n) {amount vwap : ℚ}
    (h : walkAsksForNotional (.levels side) n = .ok (some (amount, vwap))) :
    ∃ ts, Fills (positiveLevels side) ts ∧ ts.sum = amount ∧
      n * (1 - depthEps) ≤ fillCost (positiveLevels side) ts ∧
      fillCost (positiveLevels side) ts ≤ n := by
  obtain ⟨hcover, rfl, -⟩ := (walkAsks_some hn amount vwap).mp h
  have hasks := askLevels_positive side
  have hwithin : Within ((positiveLevels side).map askLevel) (takes (askLevels side) n) :=
    takes_within hasks hn.le
  obtain ⟨ts, hts, hcost, hsum⟩ := spent_fills
    (fun pq hpq => (mem_positiveLevels.mp hpq).2.1) hwithin
  rw [← askLevels_total, ← left_covered hasks hn] at hcover
  have hleft := left_nonneg hasks hn.le
  rw [takes_sum] at hcost
  refine ⟨ts, hts, hsum.trans takes_gain, ?_, ?_⟩
  · rw [hcost]
    linarith
  · rw [hcost]
    linarith

theorem walkAsks_greatest (hn : 0 < n) (hs : (positiveLevels side).Pairwise fun x y => x.1 ≤ y.1)
    {amount vwap : ℚ}
    (h : walkAsksForNotional (.levels side) n = .ok (some (amount, vwap))) :
    IsGreatest {q | ∃ ts, Fills (positiveLevels side) ts ∧
      fillCost (positiveLevels side) ts ≤ n ∧ ts.sum = q} amount := by
  obtain ⟨ts, hts, hsum, -, hcost⟩ := walkAsks_fills hn h
  refine ⟨⟨ts, hts, hcost, hsum⟩, ?_⟩
  rintro q ⟨us, hus, hle, rfl⟩
  obtain ⟨-, rfl, -⟩ := (walkAsks_some hn amount vwap).mp h
  obtain ⟨vs, hvs, hspent, hgain⟩ := fills_spent
    (fun pq hpq => (mem_positiveLevels.mp hpq).2.1) hus
  rw [← hgain]
  exact gain_le_fill (askLevels_positive side) (askLevels_bestFirst hs) hvs (hspent.trans_le hle)

theorem walkBids_fills (ha : 0 < a) {vwap : ℚ}
    (h : walkBidsForAmount (.levels side) a = .ok (some vwap)) :
    ∃ ts, Fills (positiveLevels side) ts ∧ a * (1 - depthEps) ≤ ts.sum ∧ ts.sum ≤ a ∧
      fillCost (positiveLevels side) ts = vwap * a := by
  obtain ⟨hcover, rfl⟩ := (walkBids_some ha vwap).mp h
  have hbids := bidLevels_positive side
  rw [← bidLevels_total, ← left_covered hbids ha] at hcover
  have hleft := left_nonneg hbids ha.le
  have hsum := @takes_sum ℚ _ _ (bidLevels side) a
  refine ⟨takes (bidLevels side) a, bidLevels_within.mp (takes_within hbids ha.le), ?_, ?_, ?_⟩
  · rw [hsum]
    linarith
  · rw [hsum]
    linarith
  · rw [← bidLevels_gain, takes_gain, div_mul_cancel₀ _ ha.ne']

theorem walkBids_greatest (ha : 0 < a) (hs : (positiveLevels side).Pairwise fun x y => y.1 ≤ x.1)
    {vwap : ℚ} (h : walkBidsForAmount (.levels side) a = .ok (some vwap)) :
    IsGreatest {p | ∃ ts, Fills (positiveLevels side) ts ∧ ts.sum ≤ a ∧
      fillCost (positiveLevels side) ts = p} (vwap * a) := by
  obtain ⟨ts, hts, -, hsum, hcost⟩ := walkBids_fills ha h
  refine ⟨⟨ts, hts, hsum, hcost⟩, ?_⟩
  rintro p ⟨us, hus, hle, rfl⟩
  obtain ⟨-, rfl⟩ := (walkBids_some ha vwap).mp h
  rw [div_mul_cancel₀ _ ha.ne', ← bidLevels_gain]
  exact gain_le_fill (bidLevels_positive side) (bidLevels_bestFirst hs) (bidLevels_within.mpr hus)
    hle

/-- A purchase is found exactly where the positive levels cost enough, whatever the others
are; it is a fill within the tolerance, and on sorted asks the largest for the money. A sale
is found exactly where they hold enough, and on sorted bids it brings the most. -/
theorem best_execution (side : List (ℚ × ℚ)) :
    (∀ n : ℚ, 0 < n →
      ((∃ found, walkAsksForNotional (.levels side) n = .ok (some found)) ↔
        n * (1 - depthEps) ≤ sideCost (positiveLevels side)) ∧
      (∀ other, positiveLevels other = positiveLevels side →
        walkAsksForNotional (.levels other) n = walkAsksForNotional (.levels side) n) ∧
      ∀ amount vwap, walkAsksForNotional (.levels side) n = .ok (some (amount, vwap)) →
        (∃ ts, Fills (positiveLevels side) ts ∧ ts.sum = amount ∧
          n * (1 - depthEps) ≤ fillCost (positiveLevels side) ts ∧
          fillCost (positiveLevels side) ts ≤ n) ∧
        ((positiveLevels side).Pairwise (fun x y => x.1 ≤ y.1) →
          IsGreatest {q | ∃ ts, Fills (positiveLevels side) ts ∧
            fillCost (positiveLevels side) ts ≤ n ∧ ts.sum = q} amount)) ∧
    ∀ a : ℚ, 0 < a →
      ((∃ vwap, walkBidsForAmount (.levels side) a = .ok (some vwap)) ↔
        a * (1 - depthEps) ≤ sideQuantity (positiveLevels side)) ∧
      (∀ other, positiveLevels other = positiveLevels side →
        walkBidsForAmount (.levels other) a = walkBidsForAmount (.levels side) a) ∧
      ∀ vwap, walkBidsForAmount (.levels side) a = .ok (some vwap) →
        (∃ ts, Fills (positiveLevels side) ts ∧ a * (1 - depthEps) ≤ ts.sum ∧ ts.sum ≤ a ∧
          fillCost (positiveLevels side) ts = vwap * a) ∧
        ((positiveLevels side).Pairwise (fun x y => y.1 ≤ x.1) →
          IsGreatest {p | ∃ ts, Fills (positiveLevels side) ts ∧ ts.sum ≤ a ∧
            fillCost (positiveLevels side) ts = p} (vwap * a)) := by
  refine ⟨fun n hn => ⟨⟨?_, ?_⟩, ?_, ?_⟩, fun a ha => ⟨⟨?_, ?_⟩, ?_, ?_⟩⟩
  · rintro ⟨⟨amount, vwap⟩, h⟩
    exact ((walkAsks_some hn amount vwap).mp h).1
  · intro hcover
    exact ⟨_, (walkAsks_some hn _ _).mpr ⟨hcover, rfl, rfl⟩⟩
  · intro other hother
    exact walkAsks_congr hother hn
  · intro amount vwap h
    exact ⟨walkAsks_fills hn h, fun hs => walkAsks_greatest hn hs h⟩
  · rintro ⟨vwap, h⟩
    exact ((walkBids_some ha vwap).mp h).1
  · intro hcover
    exact ⟨_, (walkBids_some ha _).mpr ⟨hcover, rfl⟩⟩
  · intro other hother
    exact walkBids_congr hother ha
  · intro vwap h
    exact ⟨walkBids_fills ha h, fun hs => walkBids_greatest ha hs h⟩

end

/-- Two levels, and one without a quantity between them. -/
theorem best_execution_two :
    IsGreatest {q | ∃ ts, Fills (positiveLevels [(100, 5), (105, 0), (110, 5)]) ts ∧
      fillCost (positiveLevels [(100, 5), (105, 0), (110, 5)]) ts ≤ 1050 ∧ ts.sum = q} 10 ∧
    IsGreatest {p | ∃ ts, Fills (positiveLevels [(100, 5), (98, 0), (95, 5)]) ts ∧
      ts.sum ≤ 8 ∧ fillCost (positiveLevels [(100, 5), (98, 0), (95, 5)]) ts = p}
      (785 / 8 * 8) := by
  have hasks := (@best_execution sampleText [(100, 5), (105, 0), (110, 5)]).1 1050
    (by decide +kernel)
  have hbids := (@best_execution sampleText [(100, 5), (98, 0), (95, 5)]).2 8 (by decide +kernel)
  have hask : positiveLevels [(100, 5), (105, 0), (110, 5)] = [(100, 5), (110, 5)] := by
    decide +kernel
  have hbid : positiveLevels [(100, 5), (98, 0), (95, 5)] = [(100, 5), (95, 5)] := by
    decide +kernel
  constructor
  · refine (hasks.2.2 10 105 (by decide +kernel)).2 ?_
    rw [hask]
    exact List.pairwise_pair.mpr (by decide +kernel)
  · refine (hbids.2.2 (785 / 8) (by decide +kernel)).2 ?_
    rw [hbid]
    exact List.pairwise_pair.mpr (by decide +kernel)

end CriptoParser
