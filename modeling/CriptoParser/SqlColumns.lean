import Mathlib.Algebra.Order.Floor.Ring
import Mathlib.Data.Rat.Floor
import Mathlib.Tactic.FieldSimp
import Mathlib.Tactic.Linarith
import Mathlib.Tactic.Positivity

set_option autoImplicit false

namespace CriptoParser.Sql

/-- `q` with `scale` digits after the point, halves away from zero. -/
def decimalRound (scale : ℕ) (q : ℚ) : ℚ :=
  if 0 ≤ q then (⌊q * 10 ^ scale + 1 / 2⌋ : ℤ) / 10 ^ scale
  else -((⌊-q * 10 ^ scale + 1 / 2⌋ : ℤ) / 10 ^ scale)

def fitsDecimal (precision scale : ℕ) (q : ℚ) : Bool :=
  decide (|decimalRound scale q| < 10 ^ (precision - scale))

/-- `VARCHAR(n)` holds the text: only blanks may be cut off, and no text holds a NUL. -/
def fitsVarchar (n : ℕ) (s : String) : Bool :=
  (s.toList.drop n).all (· = ' ') && !s.toList.contains (Char.ofNat 0)

def storedVarchar (n : ℕ) (s : String) : String := .ofList (s.toList.take n)

def fitsInteger (n : ℤ) : Bool := decide (-2 ^ 31 ≤ n ∧ n < 2 ^ 31)

section
variable (precision scale : ℕ) (q : ℚ)

theorem decimalRound_nonneg {q : ℚ} (hq : 0 ≤ q) : 0 ≤ decimalRound scale q := by
  have hpos : 0 ≤ q * 10 ^ scale + 1 / 2 := by positivity
  rw [decimalRound, if_pos hq]
  exact div_nonneg (Int.cast_nonneg (Int.floor_nonneg.mpr hpos)) (by positivity)

theorem abs_decimalRound :
    |decimalRound scale q| = (⌊|q| * 10 ^ scale + 1 / 2⌋ : ℤ) / 10 ^ scale := by
  have hfloor : ∀ x : ℚ, 0 ≤ x → (0 : ℚ) ≤ (⌊x * 10 ^ scale + 1 / 2⌋ : ℤ) / 10 ^ scale := by
    intro x hx
    have hpos : 0 ≤ x * 10 ^ scale + 1 / 2 := by positivity
    exact div_nonneg (Int.cast_nonneg (Int.floor_nonneg.mpr hpos)) (by positivity)
  unfold decimalRound
  split
  · rename_i hq
    rw [abs_of_nonneg (hfloor q hq), abs_of_nonneg hq]
  · rename_i hq
    have hneg : q < 0 := not_le.mp hq
    rw [abs_neg, abs_of_nonneg (hfloor (-q) (by linarith)), abs_of_neg hneg]

theorem fitsDecimal_iff :
    fitsDecimal precision scale q = true ↔
      |q| < 10 ^ (precision - scale) - 1 / (2 * 10 ^ scale) := by
  have hscale : (0 : ℚ) < 10 ^ scale := by positivity
  have hcast : ((10 ^ (precision - scale) * 10 ^ scale : ℤ) : ℚ) =
      10 ^ (precision - scale) * 10 ^ scale := by push_cast; rfl
  have hhalf : (1 : ℚ) / (2 * 10 ^ scale) * 10 ^ scale = 1 / 2 := by field_simp
  have hbound : |q| < 10 ^ (precision - scale) - 1 / (2 * 10 ^ scale) ↔
      |q| * 10 ^ scale < 10 ^ (precision - scale) * 10 ^ scale - 1 / 2 := by
    rw [← hhalf, ← sub_mul]
    exact (mul_lt_mul_iff_left₀ hscale).symm
  unfold fitsDecimal
  rw [decide_eq_true_iff, abs_decimalRound, div_lt_iff₀ hscale, ← hcast, Int.cast_lt,
    Int.floor_lt, hcast, hbound]
  constructor
  · intro h
    linarith
  · intro h
    linarith

theorem decimalRound_digits (k : ℤ) : decimalRound scale (k / 10 ^ scale) = k / 10 ^ scale := by
  have hscale : (0 : ℚ) < 10 ^ scale := by positivity
  have hround : ∀ m : ℤ, ⌊(m : ℚ) / 10 ^ scale * 10 ^ scale + 1 / 2⌋ = m := by
    intro m
    rw [div_mul_cancel₀ _ hscale.ne', Int.floor_intCast_add]
    norm_num
  unfold decimalRound
  split
  · rw [hround]
  · have hneg : -((k : ℚ) / 10 ^ scale) = ((-k : ℤ) : ℚ) / 10 ^ scale := by
      push_cast
      ring
    rw [hneg, hround, Int.cast_neg, neg_div, neg_neg]

end

end CriptoParser.Sql
