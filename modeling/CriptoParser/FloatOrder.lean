import CriptoParser.PythonFloats

set_option autoImplicit false

namespace CriptoParser.PyFloat

def IsFloat : PyFloat → Prop
  | .finite q => double.Holds q ∧ |q| < floatLimit
  | _ => True

instance : ∀ x : PyFloat, Decidable x.IsFloat
  | .finite q => inferInstanceAs (Decidable (double.nearest q = q ∧ |q| < floatLimit))
  | .inf | .negInf | .nan => inferInstanceAs (Decidable True)

theorem round_eq (q : ℚ) : FloatRounding.round q =
    if |double.nearest q| < floatLimit then .finite (double.nearest q)
    else .signed (decide (q < 0)) := rfl

theorem isFloat_round (q : ℚ) : (FloatRounding.round q).IsFloat := by
  rw [round_eq]
  split
  · rename_i h
    exact ⟨double.holds_nearest (by decide) q, h⟩
  · unfold signed
    split <;> trivial

theorem round_self {q : ℚ} (h : (finite q).IsFloat) : FloatRounding.round q = finite q := by
  have hq : double.nearest q = q := h.1
  rw [round_eq, hq, if_pos h.2]

theorem lt_of_round {q x : ℚ} (h : FloatRounding.round q = finite x) : |q| < floatLimit := by
  have hnear : |double.nearest q| < floatLimit := by
    rw [round_eq] at h
    by_contra hlarge
    rw [if_neg hlarge, signed] at h
    split at h <;> cases h
  have hlimit : double.nearest floatLimit = floatLimit := by decide +kernel
  by_contra hlarge
  rcases le_abs.mp (not_lt.mp hlarge) with hpos | hneg
  · have hge := double.nearest_mono (by decide) hpos
    rw [hlimit] at hge
    exact absurd (hge.trans (le_abs_self _)) (not_le.mpr hnear)
  · have hge := double.nearest_mono (by decide) hneg
    rw [hlimit, double.nearest_neg] at hge
    exact absurd (hge.trans (neg_le_abs _)) (not_le.mpr hnear)

theorem round_ne_nan (q : ℚ) : FloatRounding.round q ≠ nan := by
  rw [round_eq]
  split
  · nofun
  · unfold signed
    split <;> nofun

@[simp] theorem finite_le (a b : ℚ) : (finite a).le (finite b) = decide (a ≤ b) := by
  have h : (finite a).le (finite b) = !decide (b < a) := rfl
  rw [h, ← decide_not, decide_eq_decide]
  exact not_lt

theorem le_inf {x : PyFloat} (h : x ≠ nan) : x.le inf = true := by
  cases x with
  | nan => exact absurd rfl h
  | _ => rfl

theorem negInf_le {x : PyFloat} (h : x ≠ nan) : negInf.le x = true := by
  cases x with
  | nan => exact absurd rfl h
  | _ => rfl

theorem le_trans {x y z : PyFloat} (hxy : x.le y = true) (hyz : y.le z = true) :
    x.le z = true := by
  cases x <;> cases y <;> cases z <;> simp_all [le, lt]
  linarith

theorem round_mono {a b : ℚ} (h : a ≤ b) :
    (FloatRounding.round a).le (FloatRounding.round b) = true := by
  have hmono := double.nearest_mono (by decide) h
  rw [round_eq, round_eq]
  by_cases ha : |double.nearest a| < floatLimit
  · rw [if_pos ha]
    by_cases hb : |double.nearest b| < floatLimit
    · rw [if_pos hb]
      simpa using hmono
    · rw [if_neg hb]
      have hpos : ¬b < 0 := by
        intro hneg
        have hlow := double.nearest_mono (by decide) hneg.le
        rw [double.nearest_zero] at hlow
        rw [abs_of_nonpos hlow] at hb
        exact hb (by linarith [(abs_lt.mp ha).1])
      rw [decide_eq_false hpos]
      rfl
  · rw [if_neg ha]
    by_cases hneg : a < 0
    · rw [decide_eq_true hneg]
      refine negInf_le ?_
      exact round_ne_nan b
    · have hlow := double.nearest_mono (by decide) (not_lt.mp hneg)
      rw [double.nearest_zero] at hlow
      rw [abs_of_nonneg hlow] at ha
      have hb : ¬|double.nearest b| < floatLimit := by
        rw [abs_of_nonneg (hlow.trans hmono)]
        linarith
      have hb' : ¬b < 0 := by linarith
      rw [if_neg hb, decide_eq_false hneg, decide_eq_false hb']
      rfl

theorem round_ne_negInf_le {x : PyFloat} {q : ℚ} (h : (finite q).le x = true) (digits : ℕ) :
    ((finite q).round digits).le (x.round digits) = true := by
  cases x with
  | finite r =>
    rw [finite_le, decide_eq_true_iff] at h
    exact round_mono (pyRound_mono h digits)
  | inf => exact le_inf (round_ne_nan _)
  | negInf => cases h
  | nan => cases h

theorem roundTo_mono {x y : PyFloat} (h : x.le y = true) (digits : ℕ) :
    (x.round digits).le (y.round digits) = true := by
  cases x with
  | finite q => exact round_ne_negInf_le h digits
  | inf =>
    cases y with
    | inf => rfl
    | _ => cases h
  | negInf =>
    refine negInf_le ?_
    cases y with
    | finite r => exact round_ne_nan _
    | nan => cases h
    | _ => nofun
  | nan => cases h

theorem isFloat_add (x y : PyFloat) : (x.add y).IsFloat := by
  unfold add
  split
  · exact isFloat_round _
  all_goals trivial

theorem isFloat_sub (x y : PyFloat) : (x.sub y).IsFloat := isFloat_add x y.neg

theorem isFloat_mul (x y : PyFloat) : (x.mul y).IsFloat := by
  unfold mul
  split
  · exact isFloat_round _
  · trivial
  · trivial
  · split
    · trivial
    · unfold signed
      split <;> trivial

section
variable {x : PyFloat} {d : ℚ}

theorem sub_ne_nan (hx : x ≠ nan) (d : ℚ) : x.sub (finite d) ≠ nan := by
  cases x with
  | finite q => exact round_ne_nan _
  | nan => exact absurd rfl hx
  | _ => nofun

theorem sub_le_self (hx : x.IsFloat) (hn : x ≠ nan) (hd : 0 ≤ d) :
    (x.sub (finite d)).le x = true := by
  cases x with
  | finite q =>
    have hmono := round_mono (show q + -d ≤ q by linarith)
    rwa [round_self hx] at hmono
  | nan => exact absurd rfl hn
  | _ => rfl

theorem sub_inf_le (hn : x ≠ nan) (hinf : x ≠ inf) : (x.sub inf).le x = true := by
  cases x with
  | finite q => rfl
  | inf => exact absurd rfl hinf
  | negInf => rfl
  | nan => exact absurd rfl hn

end

theorem round_le_of_nearest {q z : ℚ} (hq : |q| < floatLimit) (h : double.nearest z ≤ q) :
    (FloatRounding.round z).le (finite q) = true := by
  rw [round_eq]
  split
  · simpa using h
  · rename_i hbig
    have hneg : z < 0 := by
      by_contra hpos
      have hlow := double.nearest_mono (by decide) (not_lt.mp hpos)
      rw [double.nearest_zero] at hlow
      rw [abs_of_nonneg hlow] at hbig
      exact hbig (h.trans_lt (abs_lt.mp hq).2)
    rw [decide_eq_true hneg]
    rfl

theorem round_between {a b z : ℚ} (ha : -floatLimit < a) (hb : b < floatLimit)
    (hlow : a ≤ double.nearest z) (hhigh : double.nearest z ≤ b) :
    FloatRounding.round z = finite (double.nearest z) := by
  rw [round_eq, if_pos (abs_lt.mpr ⟨ha.trans_le hlow, hhigh.trans_lt hb⟩)]

theorem inf_mul {c : ℚ} (hc : 0 < c) : inf.mul (finite c) = inf := by
  have hne : finite c ≠ finite 0 := fun h => hc.ne' (finite.inj h)
  simp [mul, signed, isNegative, hc.not_gt, hne]

theorem finite_mul_le {a : ℚ} {x : PyFloat} (h : (finite a).le x = true) {c : ℚ} (hc : 0 < c) :
    (FloatRounding.round (a * c)).le (x.mul (finite c)) = true := by
  cases x with
  | finite q =>
    rw [finite_le, decide_eq_true_iff] at h
    exact round_mono (mul_le_mul_of_nonneg_right h hc.le)
  | inf =>
    rw [inf_mul hc]
    exact le_inf (round_ne_nan _)
  | negInf => cases h
  | nan => cases h

theorem finite_le_cases {a : ℚ} {x : PyFloat} (h : (finite a).le x = true) :
    x = inf ∨ ∃ q, x = finite q ∧ a ≤ q := by
  cases x with
  | finite q =>
    rw [finite_le, decide_eq_true_iff] at h
    exact .inr ⟨q, rfl, h⟩
  | inf => exact .inl rfl
  | negInf => cases h
  | nan => cases h

theorem div_finite {x : PyFloat} {c : ℚ} (hc : c ≠ 0) (a : ℚ) (hx : x = finite a) :
    x.div (finite c) = .ok (FloatRounding.round (a / c)) := by
  have hne : finite c ≠ finite 0 := fun h => hc (finite.inj h)
  rw [hx, div, if_neg hne]

theorem inf_div {c : ℚ} (hc : 0 < c) : inf.div (finite c) = .ok inf := by
  have hne : finite c ≠ finite 0 := fun h => hc.ne' (finite.inj h)
  rw [div, if_neg hne]
  simp [signed, isNegative, hc.not_gt]

theorem isFloat_neg {x : PyFloat} (h : x.IsFloat) : x.neg.IsFloat := by
  cases x with
  | finite q =>
    refine ⟨?_, (abs_neg q).symm ▸ h.2⟩
    rw [Binary.Format.Holds, Binary.Format.nearest_neg, show double.nearest q = q from h.1]
  | _ => trivial

theorem isFloat_div {x y z : PyFloat} (h : x.div y = .ok z) : z.IsFloat := by
  unfold div at h
  split at h
  · cases h
  · split at h
    · cases h
      exact isFloat_round _
    · cases h
      decide +kernel
    · cases h
      decide +kernel
    · cases h
      unfold signed
      split <;> trivial
    · cases h
      unfold signed
      split <;> trivial
    · cases h
      trivial

end CriptoParser.PyFloat
