import Mathlib.Algebra.Order.Field.Power
import Mathlib.Data.Rat.Floor
import Mathlib.Tactic.Linarith

set_option autoImplicit false

namespace CriptoParser

def roundHalfEven (q : ℚ) : ℤ :=
  if q - q.floor < 1 / 2 then q.floor
  else if 1 / 2 < q - q.floor then q.floor + 1
  else if q.floor % 2 = 0 then q.floor
  else q.floor + 1

theorem roundHalfEven_mono {a b : ℚ} (h : a ≤ b) : roundHalfEven a ≤ roundHalfEven b := by
  have hlow : ∀ q : ℚ, q.floor ≤ roundHalfEven q := by
    intro q
    unfold roundHalfEven
    split_ifs <;> omega
  have hhigh : ∀ q : ℚ, roundHalfEven q ≤ q.floor + 1 := by
    intro q
    unfold roundHalfEven
    split_ifs <;> omega
  have hfloor : a.floor ≤ b.floor := Rat.floor_monotone h
  rcases hfloor.lt_or_eq with hlt | heq
  · exact (hhigh a).trans (le_trans hlt (hlow b))
  · unfold roundHalfEven
    rw [heq]
    split_ifs <;> first | omega | linarith

@[simp] theorem roundHalfEven_intCast (k : ℤ) : roundHalfEven k = k := by
  unfold roundHalfEven
  rw [Rat.floor_intCast, sub_self, if_pos (by norm_num)]

theorem roundHalfEven_near (q : ℚ) : |q - roundHalfEven q| ≤ 1 / 2 := by
  have hle : (q.floor : ℚ) ≤ q := Rat.floor_le q
  have hlt : q < ((q.floor + 1 : ℤ) : ℚ) := Rat.lt_floor_add_one q
  push_cast at hlt
  unfold roundHalfEven
  rw [abs_le]
  split_ifs <;> push_cast <;> constructor <;> linarith

theorem roundHalfEven_eq {q : ℚ} {k : ℤ} (h : |q - k| < 1 / 2) : roundHalfEven q = k := by
  have hnear := abs_le.mp (roundHalfEven_near q)
  obtain ⟨hlow, hhigh⟩ := abs_lt.mp h
  have hlt : (roundHalfEven q : ℚ) < k + 1 := by linarith
  have hgt : (k : ℚ) - 1 < roundHalfEven q := by linarith
  have hlt' : roundHalfEven q < k + 1 := by exact_mod_cast hlt
  have hgt' : k - 1 < roundHalfEven q := by exact_mod_cast hgt
  omega

theorem roundHalfEven_neg (q : ℚ) : roundHalfEven (-q) = -roundHalfEven q := by
  have hle : (q.floor : ℚ) ≤ q := Rat.floor_le q
  have hlt : q < ((q.floor + 1 : ℤ) : ℚ) := Rat.lt_floor_add_one q
  push_cast at hlt
  by_cases hhalf : q - q.floor = 1 / 2
  · have hfloor : (-q).floor = -q.floor - 1 := by
      refine le_antisymm (Int.lt_add_one_iff.mp (Rat.floor_lt_iff.mpr ?_)) (Rat.le_floor_iff.mpr ?_)
      · push_cast
        linarith
      · push_cast
        linarith
    have hfrac : -q - ((-q.floor - 1 : ℤ) : ℚ) = 1 / 2 := by
      push_cast
      linarith
    unfold roundHalfEven
    rw [hfloor, hfrac, hhalf]
    simp only [lt_irrefl, if_false]
    split_ifs <;> omega
  · refine roundHalfEven_eq ?_
    have hnear := roundHalfEven_near q
    have hne : |q - roundHalfEven q| ≠ 1 / 2 := by
      intro heq
      unfold roundHalfEven at heq
      split_ifs at heq with h₁ h₂ h₃
      · rw [abs_of_nonneg (by linarith)] at heq
        exact hhalf heq
      · push_cast at heq
        rw [abs_of_nonpos (by linarith)] at heq
        exact hhalf (by linarith)
      · exact hhalf (le_antisymm (not_lt.mp h₂) (not_lt.mp h₁))
      · exact hhalf (le_antisymm (not_lt.mp h₂) (not_lt.mp h₁))
    have hswap : |-q - ((-roundHalfEven q : ℤ) : ℚ)| = |q - roundHalfEven q| := by
      push_cast
      rw [← abs_neg]
      congr 1
      ring
    rw [hswap]
    exact lt_of_le_of_ne hnear hne

namespace Binary

def leading (q : ℚ) : ℤ :=
  let place : ℤ := (Nat.log2 q.num.natAbs : ℤ) - Nat.log2 q.den
  if (2 : ℚ) ^ place ≤ |q| then place else place - 1

theorem leading_bounds {q : ℚ} (hq : q ≠ 0) :
    (2 : ℚ) ^ leading q ≤ |q| ∧ |q| < (2 : ℚ) ^ (leading q + 1) := by
  have hnum : q.num.natAbs ≠ 0 := by simpa using hq
  have htwo : (2 : ℚ) ≠ 0 := two_ne_zero
  have habs : |q| = (q.num.natAbs : ℚ) / q.den := by
    conv_lhs => rw [← Rat.num_div_den q]
    rw [abs_div, Nat.abs_cast, ← Int.cast_abs, Int.abs_eq_natAbs]
    rfl
  have hden : (0 : ℚ) < q.den := by exact_mod_cast q.den_pos
  have hlow : (2 : ℚ) ^ (Nat.log2 q.num.natAbs : ℤ) ≤ q.num.natAbs := by
    rw [zpow_natCast]
    exact_mod_cast Nat.log2_self_le hnum
  have hhigh : (q.num.natAbs : ℚ) < (2 : ℚ) ^ ((Nat.log2 q.num.natAbs : ℤ) + 1) := by
    rw [← Nat.cast_succ, zpow_natCast]
    exact_mod_cast Nat.lt_log2_self
  have hlow' : (2 : ℚ) ^ (Nat.log2 q.den : ℤ) ≤ q.den := by
    rw [zpow_natCast]
    exact_mod_cast Nat.log2_self_le q.den_ne_zero
  have hhigh' : (q.den : ℚ) < (2 : ℚ) ^ ((Nat.log2 q.den : ℤ) + 1) := by
    rw [← Nat.cast_succ, zpow_natCast]
    exact_mod_cast Nat.lt_log2_self
  have hupper : |q| < (2 : ℚ) ^ ((Nat.log2 q.num.natAbs : ℤ) - Nat.log2 q.den + 1) := by
    rw [habs, div_lt_iff₀ hden]
    refine hhigh.trans_le ?_
    have hsplit : (Nat.log2 q.num.natAbs : ℤ) + 1 =
        (Nat.log2 q.num.natAbs : ℤ) - Nat.log2 q.den + 1 + Nat.log2 q.den := by ring
    rw [hsplit, zpow_add₀ htwo]
    exact mul_le_mul_of_nonneg_left hlow' (by positivity)
  have hlower : (2 : ℚ) ^ ((Nat.log2 q.num.natAbs : ℤ) - Nat.log2 q.den - 1) ≤ |q| := by
    rw [habs, le_div_iff₀ hden]
    refine le_trans ?_ hlow
    have hsplit : (Nat.log2 q.num.natAbs : ℤ) =
        (Nat.log2 q.num.natAbs : ℤ) - Nat.log2 q.den - 1 + (Nat.log2 q.den + 1) := by ring
    conv_rhs => rw [hsplit, zpow_add₀ htwo]
    exact mul_le_mul_of_nonneg_left hhigh'.le (by positivity)
  unfold leading
  simp only
  split
  · rename_i hplace
    exact ⟨hplace, hupper⟩
  · rename_i hplace
    rw [sub_add_cancel]
    exact ⟨hlower, not_le.mp hplace⟩

theorem leading_le {q : ℚ} {k : ℤ} (hq : q ≠ 0) (h : |q| < (2 : ℚ) ^ (k + 1)) : leading q ≤ k := by
  have hlt := (leading_bounds hq).1.trans_lt h
  rw [zpow_lt_zpow_iff_right₀ one_lt_two] at hlt
  omega

theorem le_leading {q : ℚ} {k : ℤ} (hq : q ≠ 0) (h : (2 : ℚ) ^ k ≤ |q|) : k ≤ leading q := by
  have hlt := h.trans_lt (leading_bounds hq).2
  rw [zpow_lt_zpow_iff_right₀ one_lt_two] at hlt
  omega

/-- A binary format: the number of digits, and the place of the last digit of its least numbers. -/
structure Format where
  digits : ℕ
  least : ℤ

namespace Format
variable (F : Format)

def place (q : ℚ) : ℤ := max (leading q + 1 - F.digits) F.least

/-- The number of the format nearest to `q`, with no bound on its size. -/
def nearest (q : ℚ) : ℚ := roundHalfEven (q / 2 ^ F.place q) * 2 ^ F.place q

def Holds (q : ℚ) : Prop := F.nearest q = q

@[simp] theorem nearest_zero : F.nearest 0 = 0 := by
  unfold nearest
  rw [zero_div, ← Int.cast_zero, roundHalfEven_intCast, Int.cast_zero, zero_mul]

theorem place_neg (q : ℚ) : F.place (-q) = F.place q := by
  simp [place, leading]

theorem nearest_neg (q : ℚ) : F.nearest (-q) = -F.nearest q := by
  unfold nearest
  rw [place_neg, neg_div, roundHalfEven_neg]
  push_cast
  ring

theorem place_mono {a b : ℚ} (ha : a ≠ 0) (h : |a| ≤ |b|) : F.place a ≤ F.place b := by
  have hb : b ≠ 0 := by
    rintro rfl
    rw [abs_zero] at h
    exact ha (abs_nonpos_iff.mp h)
  have hle : leading a ≤ leading b := leading_le ha (h.trans_lt (leading_bounds hb).2)
  unfold place
  omega

theorem holds_of_multiple {q : ℚ} {k : ℤ} (h : q = k * 2 ^ F.place q) : F.Holds q := by
  have hpos : (0 : ℚ) < 2 ^ F.place q := by positivity
  have hquot : q / 2 ^ F.place q = k := (div_eq_iff hpos.ne').mpr h
  rw [Holds, nearest, hquot, roundHalfEven_intCast, ← h]

theorem multiple_of_le {q : ℚ} {k e e' : ℤ} (he : e' ≤ e) (h : q = k * 2 ^ e) :
    ∃ k' : ℤ, q = k' * 2 ^ e' := by
  obtain ⟨n, hn⟩ := Int.le.dest he
  refine ⟨k * 2 ^ n, ?_⟩
  rw [h, ← hn, add_comm e', zpow_add₀ two_ne_zero, zpow_natCast]
  push_cast
  ring

theorem holds_pow {k : ℤ} (hk : F.least ≤ k) (hdigits : 0 < F.digits) :
    F.Holds ((2 : ℚ) ^ k) := by
  have hpos : (0 : ℚ) < 2 ^ k := by positivity
  have hlead : leading ((2 : ℚ) ^ k) ≤ k := by
    refine leading_le hpos.ne' ?_
    rw [abs_of_pos hpos, zpow_lt_zpow_iff_right₀ one_lt_two]
    exact lt_add_one k
  have hplace : F.place ((2 : ℚ) ^ k) ≤ k := by
    unfold place
    omega
  have hone : (2 : ℚ) ^ k = ((1 : ℤ) : ℚ) * 2 ^ k := by simp
  obtain ⟨k', hk'⟩ := multiple_of_le hplace hone
  exact F.holds_of_multiple hk'

theorem nearest_nonneg {q : ℚ} (h : 0 ≤ q) : 0 ≤ F.nearest q := by
  have hquot : 0 ≤ q / 2 ^ F.place q := div_nonneg h (by positivity)
  have hround := roundHalfEven_mono hquot
  rw [← Int.cast_zero, roundHalfEven_intCast] at hround
  exact mul_nonneg (by exact_mod_cast hround) (by positivity)

theorem nearest_mono_place {a b : ℚ} (hplace : F.place a = F.place b) (h : a ≤ b) :
    F.nearest a ≤ F.nearest b := by
  unfold nearest
  rw [hplace]
  have hpos : (0 : ℚ) < 2 ^ F.place b := by positivity
  have hround := roundHalfEven_mono (div_le_div_of_nonneg_right h hpos.le)
  exact mul_le_mul_of_nonneg_right (by exact_mod_cast hround) hpos.le

theorem nearest_le_pow {q : ℚ} {k : ℤ} (hplace : F.place q ≤ k) (h : q ≤ 2 ^ k) :
    F.nearest q ≤ 2 ^ k := by
  have hpos : (0 : ℚ) < 2 ^ F.place q := by positivity
  obtain ⟨n, hn⟩ := multiple_of_le (k := 1) hplace (by simp : (2 : ℚ) ^ k = ((1 : ℤ) : ℚ) * 2 ^ k)
  have hquot : q / 2 ^ F.place q ≤ (n : ℚ) := by
    rw [div_le_iff₀ hpos, ← hn]
    exact h
  have hround := roundHalfEven_mono hquot
  rw [roundHalfEven_intCast] at hround
  rw [hn]
  exact mul_le_mul_of_nonneg_right (by exact_mod_cast hround) hpos.le

theorem pow_le_nearest {q : ℚ} {k : ℤ} (hplace : F.place q ≤ k) (h : 2 ^ k ≤ q) :
    2 ^ k ≤ F.nearest q := by
  have hpos : (0 : ℚ) < 2 ^ F.place q := by positivity
  obtain ⟨n, hn⟩ := multiple_of_le (k := 1) hplace (by simp : (2 : ℚ) ^ k = ((1 : ℤ) : ℚ) * 2 ^ k)
  have hquot : (n : ℚ) ≤ q / 2 ^ F.place q := by
    rw [le_div_iff₀ hpos, ← hn]
    exact h
  have hround := roundHalfEven_mono hquot
  rw [roundHalfEven_intCast] at hround
  rw [hn]
  exact mul_le_mul_of_nonneg_right (by exact_mod_cast hround) hpos.le

theorem nearest_mono_pos (hdigits : 0 < F.digits) {a b : ℚ} (ha : 0 < a) (h : a ≤ b) :
    F.nearest a ≤ F.nearest b := by
  have hb : 0 < b := ha.trans_le h
  have habs : |a| ≤ |b| := by rwa [abs_of_pos ha, abs_of_pos hb]
  rcases (F.place_mono ha.ne' habs).lt_or_eq with hlt | heq
  · obtain ⟨hlow, -⟩ := leading_bounds hb.ne'
    obtain ⟨-, hhigh⟩ := leading_bounds ha.ne'
    rw [abs_of_pos hb] at hlow
    rw [abs_of_pos ha] at hhigh
    have hlead : leading a < leading b := by
      unfold place at hlt
      omega
    have hstep : (2 : ℚ) ^ (leading a + 1) ≤ 2 ^ leading b :=
      zpow_le_zpow_right₀ one_le_two hlead
    have hplace : F.place b ≤ leading b := by
      unfold place at hlt ⊢
      omega
    have hup := F.nearest_le_pow (by unfold place at hlt ⊢; omega) (hhigh.le.trans hstep)
    exact hup.trans (F.pow_le_nearest hplace hlow)
  · exact F.nearest_mono_place heq h

theorem nearest_mono (hdigits : 0 < F.digits) {a b : ℚ} (h : a ≤ b) :
    F.nearest a ≤ F.nearest b := by
  rcases lt_trichotomy a 0 with ha | rfl | ha
  · rcases lt_or_ge b 0 with hb | hb
    · have hneg := F.nearest_mono_pos hdigits (neg_pos.mpr hb) (neg_le_neg h)
      rw [nearest_neg, nearest_neg] at hneg
      exact neg_le_neg_iff.mp hneg
    · have hneg := F.nearest_nonneg (neg_nonneg.mpr ha.le)
      rw [nearest_neg] at hneg
      exact (neg_nonneg.mp hneg).trans (F.nearest_nonneg hb)
  · rw [nearest_zero]
    exact F.nearest_nonneg h
  · exact F.nearest_mono_pos hdigits ha h

theorem nearest_near (q : ℚ) : |q - F.nearest q| ≤ 2 ^ F.place q / 2 := by
  have hpos : (0 : ℚ) < 2 ^ F.place q := by positivity
  have hnear := roundHalfEven_near (q / 2 ^ F.place q)
  have hscale : q - F.nearest q =
      (q / 2 ^ F.place q - roundHalfEven (q / 2 ^ F.place q)) * 2 ^ F.place q := by
    rw [sub_mul, div_mul_cancel₀ _ hpos.ne']
    rfl
  rw [hscale, abs_mul, abs_of_pos hpos]
  calc _ ≤ 1 / 2 * 2 ^ F.place q := mul_le_mul_of_nonneg_right hnear hpos.le
    _ = 2 ^ F.place q / 2 := by ring

theorem nearest_le_held (hdigits : 0 < F.digits) {g z : ℚ} (hg : F.Holds g) (hpos : 0 < g)
    (hz : z < g + 2 ^ F.place g / 2) : F.nearest z ≤ g := by
  rcases le_or_gt z g with hle | hlt
  · have hmono := F.nearest_mono hdigits hle
    rwa [hg] at hmono
  have hunit : (0 : ℚ) < 2 ^ F.place g := by positivity
  obtain ⟨k, hk⟩ : ∃ k : ℤ, g = k * 2 ^ F.place g := ⟨_, hg.symm⟩
  have hkpos : 0 < k := by
    have hprod : 0 < (k : ℚ) * 2 ^ F.place g := hk ▸ hpos
    exact_mod_cast pos_of_mul_pos_left hprod hunit.le
  -- the next power of two is a whole number of last places away
  have hplace : F.place g ≤ leading g := by
    refine le_leading hpos.ne' ?_
    have hone : (1 : ℚ) ≤ k := by exact_mod_cast hkpos
    have hmul := mul_le_mul_of_nonneg_right hone hunit.le
    rw [one_mul, ← hk] at hmul
    rwa [abs_of_pos hpos]
  have hhigh := (leading_bounds hpos.ne').2
  rw [abs_of_pos hpos] at hhigh
  obtain ⟨m, hm⟩ := @multiple_of_le _ 1 (leading g + 1) (F.place g) (by omega)
    (by simp : (2 : ℚ) ^ (leading g + 1) = ((1 : ℤ) : ℚ) * 2 ^ (leading g + 1))
  have hkm : k + 1 ≤ m := by
    have hprod : (k : ℚ) * 2 ^ F.place g < m * 2 ^ F.place g := by rwa [← hk, ← hm]
    have hcast := lt_of_mul_lt_mul_right hprod hunit.le
    exact Int.add_one_le_iff.mpr (by exact_mod_cast hcast)
  have hroom : g + 2 ^ F.place g ≤ 2 ^ (leading g + 1) := by
    have hcast : (k : ℚ) + 1 ≤ m := by exact_mod_cast hkm
    have hmul := mul_le_mul_of_nonneg_right hcast hunit.le
    rwa [add_mul, one_mul, ← hk, ← hm] at hmul
  have hzpos : 0 < z := hpos.trans hlt
  have hsame : F.place z = F.place g := by
    have hlead : leading z = leading g := by
      refine le_antisymm (leading_le hzpos.ne' ?_) (le_leading hzpos.ne' ?_)
      · rw [abs_of_pos hzpos]
        linarith
      · rw [abs_of_pos hzpos]
        have hlow := (leading_bounds hpos.ne').1
        rw [abs_of_pos hpos] at hlow
        linarith
    unfold place
    rw [hlead]
  have hround : roundHalfEven (z / 2 ^ F.place g) = k := by
    refine roundHalfEven_eq ?_
    have hquot : z / 2 ^ F.place g - k = (z - g) / 2 ^ F.place g := by
      rw [sub_div, (eq_div_iff hunit.ne').mpr hk.symm]
    rw [hquot, abs_of_pos (div_pos (by linarith) hunit), div_lt_iff₀ hunit]
    linarith
  rw [nearest, hsame, hround, ← hk]

theorem holds_nearest (hdigits : 0 < F.digits) (q : ℚ) : F.Holds (F.nearest q) := by
  by_cases hzero : F.nearest q = 0
  · rw [hzero, Holds, nearest_zero]
  have hq : q ≠ 0 := by
    rintro rfl
    exact hzero F.nearest_zero
  -- the result has at most as many digits as the format, or is the next power of two
  have hbound : |F.nearest q| ≤ 2 ^ (F.place q + F.digits) := by
    have hlead : leading q + 1 ≤ F.place q + F.digits := by
      unfold place
      omega
    have hsmall : |q| ≤ 2 ^ (F.place q + F.digits) :=
      (leading_bounds hq).2.le.trans (zpow_le_zpow_right₀ one_le_two hlead)
    have hside : ∀ x : ℚ, F.place x = F.place q → x ≤ 2 ^ (F.place q + F.digits) →
        F.nearest x ≤ 2 ^ (F.place q + F.digits) := by
      intro x hx hle
      exact F.nearest_le_pow (by omega) hle
    refine abs_le.mpr ⟨?_, hside q rfl ((le_abs_self q).trans hsmall)⟩
    have hneg := hside (-q) (F.place_neg q) ((neg_le_abs q).trans hsmall)
    rw [nearest_neg] at hneg
    linarith
  have hmultiple : F.nearest q = (roundHalfEven (q / 2 ^ F.place q) : ℤ) * 2 ^ F.place q := rfl
  rcases hbound.lt_or_eq with hlt | heq
  · have hlead : leading (F.nearest q) ≤ F.place q + F.digits - 1 :=
      leading_le hzero (by rwa [sub_add_cancel])
    have hplace : F.place (F.nearest q) ≤ F.place q := by
      have hleast : F.least ≤ F.place q := le_max_right _ _
      unfold place at hlead hleast ⊢
      omega
    obtain ⟨k, hk⟩ := multiple_of_le hplace hmultiple
    exact F.holds_of_multiple hk
  · have hpow : F.Holds ((2 : ℚ) ^ (F.place q + F.digits)) := by
      have hleast : F.least ≤ F.place q := le_max_right _ _
      exact F.holds_pow (by omega) hdigits
    rcases (abs_eq (by positivity)).mp heq with h | h
    · rw [h]
      exact hpow
    · rw [h, Holds, nearest_neg, hpow]

attribute [irreducible] nearest

end Format

end Binary

end CriptoParser
