import Mathlib.Algebra.Order.BigOperators.Group.List
import Mathlib.Algebra.Order.Field.Basic
import Mathlib.Tactic.Linarith
import Mathlib.Tactic.Ring

/-!
A greedy walk over levels. Each level takes in at most its width and gives its rate for
every unit taken in. With the best rates first, what the walk gives is concave.
-/

set_option autoImplicit false

namespace CriptoParser.Greedy

variable {K : Type} [Field K] [LinearOrder K] [IsStrictOrderedRing K]

structure Level (K : Type) where
  width : K
  rate : K

def fill : List (Level K) → K → K
  | [], _ => 0
  | l :: rest, x =>
    if x ≤ l.width then l.rate * x else l.rate * l.width + fill rest (x - l.width)

def left : List (Level K) → K → K
  | [], x => x
  | l :: rest, x => if x ≤ l.width then 0 else left rest (x - l.width)

def Positive (levels : List (Level K)) : Prop := ∀ l ∈ levels, 0 < l.width ∧ 0 < l.rate

def BestFirst (levels : List (Level K)) : Prop := levels.Pairwise fun a b => b.rate ≤ a.rate

variable {levels : List (Level K)} {x y ρ : K}

omit [IsStrictOrderedRing K] in
theorem fill_zero (h : Positive levels) : fill levels 0 = 0 := by
  cases levels with
  | nil => rfl
  | cons l rest =>
    have hl := h l List.mem_cons_self
    simp [fill, hl.1.le]

theorem fill_nonneg (h : Positive levels) (hx : 0 ≤ x) : 0 ≤ fill levels x := by
  induction levels generalizing x with
  | nil => simp [fill]
  | cons l rest ih =>
    obtain ⟨hw, hr⟩ := h l List.mem_cons_self
    unfold fill
    split
    · exact mul_nonneg hr.le hx
    · have hrest := ih (fun m hm => h m (List.mem_cons_of_mem _ hm)) (x := x - l.width)
        (by linarith)
      linarith [mul_pos hr hw]

theorem fill_pos (h : Positive levels) (hne : levels ≠ []) (hx : 0 < x) : 0 < fill levels x := by
  cases levels with
  | nil => exact absurd rfl hne
  | cons l rest =>
    obtain ⟨hw, hr⟩ := h l List.mem_cons_self
    unfold fill
    split
    · exact mul_pos hr hx
    · have hrest := fill_nonneg (fun m hm => h m (List.mem_cons_of_mem _ hm)) (x := x - l.width)
        (by linarith)
      linarith [mul_pos hr hw]

theorem fill_mono (h : Positive levels) (hxy : x ≤ y) : fill levels x ≤ fill levels y := by
  induction levels generalizing x y with
  | nil => simp [fill]
  | cons l rest ih =>
    obtain ⟨hw, hr⟩ := h l List.mem_cons_self
    have hrest : Positive rest := fun m hm => h m (List.mem_cons_of_mem _ hm)
    unfold fill
    split
    · split
      · exact mul_le_mul_of_nonneg_left hxy hr.le
      · have hx : l.rate * x ≤ l.rate * l.width := mul_le_mul_of_nonneg_left ‹_› hr.le
        have hmore := fill_nonneg hrest (x := y - l.width) (by linarith)
        linarith
    · have hy : ¬y ≤ l.width := by linarith
      rw [if_neg hy]
      have hmore := ih hrest (x := x - l.width) (y := y - l.width) (by linarith)
      linarith

theorem fill_slope (h : Positive levels) (hρ : ∀ l ∈ levels, l.rate ≤ ρ) (h0 : 0 ≤ ρ)
    (hxy : x ≤ y) : fill levels y - fill levels x ≤ ρ * (y - x) := by
  induction levels generalizing x y with
  | nil => simpa [fill] using mul_nonneg h0 (sub_nonneg.mpr hxy)
  | cons l rest ih =>
    have hl := hρ l List.mem_cons_self
    have hrest : ∀ {a b : K}, a ≤ b → fill rest b - fill rest a ≤ ρ * (b - a) :=
      ih (fun m hm => h m (List.mem_cons_of_mem _ hm))
        (fun m hm => hρ m (List.mem_cons_of_mem _ hm))
    have hzero := fill_zero fun m hm => h m (List.mem_cons_of_mem _ hm)
    unfold fill
    by_cases hy : y ≤ l.width
    · have hstep := mul_le_mul_of_nonneg_right hl (sub_nonneg.mpr hxy)
      rw [if_pos hy, if_pos (hxy.trans hy)]
      linarith
    · rw [if_neg hy]
      by_cases hx : x ≤ l.width
      · -- up to the width the rate of the level, beyond it the rates of the rest
        have hfirst := mul_le_mul_of_nonneg_right hl (sub_nonneg.mpr hx)
        have hmore := @hrest 0 (y - l.width) (by linarith)
        rw [if_pos hx]
        rw [hzero] at hmore
        linarith
      · have hmore := @hrest (x - l.width) (y - l.width) (by linarith)
        rw [if_neg hx]
        linarith

theorem fill_le (h : Positive levels) (hρ : ∀ l ∈ levels, l.rate ≤ ρ) (h0 : 0 ≤ ρ)
    (hx : 0 ≤ x) : fill levels x ≤ ρ * x := by
  have hslope := fill_slope h hρ h0 hx
  rw [fill_zero h] at hslope
  linarith

theorem fill_average (h : Positive levels) (hs : BestFirst levels) (hx : 0 ≤ x) (hxy : x ≤ y) :
    fill levels y * x ≤ fill levels x * y := by
  induction levels generalizing x y with
  | nil => simp [fill]
  | cons l rest ih =>
    obtain ⟨hw, hr⟩ := h l List.mem_cons_self
    obtain ⟨hbest, hsrest⟩ := List.pairwise_cons.mp hs
    have hrest : Positive rest := fun m hm => h m (List.mem_cons_of_mem _ hm)
    unfold fill
    by_cases hy : y ≤ l.width
    · rw [if_pos hy, if_pos (hxy.trans hy)]
      exact le_of_eq (by ring)
    · rw [if_neg hy]
      have hybeyond : 0 ≤ y - l.width := by linarith
      by_cases hxw : x ≤ l.width
      · have hmore := mul_le_mul_of_nonneg_right (fill_le hrest hbest hr.le hybeyond) hx
        rw [if_pos hxw]
        linarith
      · have hxbeyond : 0 ≤ x - l.width := by linarith
        have hboth : x - l.width ≤ y - l.width := by linarith
        have hinner := ih hrest hsrest hxbeyond hboth
        have hslope := mul_le_mul_of_nonneg_right (fill_slope hrest hbest hr.le hboth) hw.le
        rw [if_neg hxw]
        linarith

theorem left_nonneg (h : Positive levels) (hx : 0 ≤ x) : 0 ≤ left levels x := by
  induction levels generalizing x with
  | nil => exact hx
  | cons l rest ih =>
    unfold left
    split
    · exact le_refl 0
    · exact ih (fun m hm => h m (List.mem_cons_of_mem _ hm)) (by linarith)

theorem left_mono (h : Positive levels) (hxy : x ≤ y) : left levels x ≤ left levels y := by
  induction levels generalizing x y with
  | nil => exact hxy
  | cons l rest ih =>
    have hrest : Positive rest := fun m hm => h m (List.mem_cons_of_mem _ hm)
    unfold left
    by_cases hy : y ≤ l.width
    · rw [if_pos hy, if_pos (hxy.trans hy)]
    · rw [if_neg hy]
      split
      · exact left_nonneg hrest (by linarith)
      · exact ih hrest (by linarith)

theorem left_share (h : Positive levels) (hx : 0 ≤ x) (hxy : x ≤ y) :
    left levels x * y ≤ left levels y * x := by
  induction levels generalizing x y with
  | nil => exact le_of_eq (mul_comm x y)
  | cons l rest ih =>
    obtain ⟨hw, -⟩ := h l List.mem_cons_self
    have hrest : Positive rest := fun m hm => h m (List.mem_cons_of_mem _ hm)
    have hy0 := left_nonneg h (hx.trans hxy)
    unfold left at hy0 ⊢
    by_cases hxw : x ≤ l.width
    · rw [if_pos hxw, zero_mul]
      exact mul_nonneg hy0 hx
    · have hyw : ¬y ≤ l.width := by linarith
      have hboth : x - l.width ≤ y - l.width := by linarith
      have hinner := ih hrest (by linarith) hboth
      have hmono := mul_le_mul_of_nonneg_right (left_mono hrest hboth) hw.le
      rw [if_neg hxw, if_neg hyw]
      linarith

omit [IsStrictOrderedRing K] in
theorem left_zero (h : Positive levels) : left levels 0 = 0 := by
  cases levels with
  | nil => rfl
  | cons l rest => simp [left, (h l List.mem_cons_self).1.le]

omit [IsStrictOrderedRing K] in
theorem left_append {more : List (Level K)} (h : Positive more) :
    left (levels ++ more) x = left more (left levels x) := by
  induction levels generalizing x with
  | nil => rfl
  | cons l rest ih =>
    simp only [List.cons_append, left]
    split
    · exact (left_zero h).symm
    · exact ih

omit [IsStrictOrderedRing K] in
theorem fill_append {more : List (Level K)} (h : Positive more) :
    fill (levels ++ more) x = fill levels x + fill more (left levels x) := by
  induction levels generalizing x with
  | nil => simp [fill, left]
  | cons l rest ih =>
    simp only [List.cons_append, fill, left]
    split
    · rw [fill_zero h, add_zero]
    · rw [ih, add_assoc]

def total (levels : List (Level K)) : K := (levels.map Level.width).sum

theorem total_nonneg (h : Positive levels) : 0 ≤ total levels :=
  List.sum_nonneg fun w hw => by
    obtain ⟨l, hl, rfl⟩ := List.mem_map.mp hw
    exact (h l hl).1.le

theorem left_eq (h : Positive levels) (hx : 0 ≤ x) :
    left levels x = max 0 (x - total levels) := by
  induction levels generalizing x with
  | nil => simp [left, total, hx]
  | cons l rest ih =>
    have hrest : Positive rest := fun m hm => h m (List.mem_cons_of_mem _ hm)
    have hsum : total (l :: rest) = l.width + total rest := by simp [total]
    have hpos := total_nonneg hrest
    unfold left
    split
    · rw [max_eq_left (by linarith)]
    · rw [ih hrest (by linarith), hsum, sub_sub]

def Within (levels : List (Level K)) (takes : List K) : Prop :=
  List.Forall₂ (fun l t => 0 ≤ t ∧ t ≤ l.width) levels takes

def gain (levels : List (Level K)) (takes : List K) : K :=
  (List.zipWith (fun l t => l.rate * t) levels takes).sum

def takes : List (Level K) → K → List K
  | [], _ => []
  | l :: rest, x =>
    if x ≤ l.width then x :: rest.map (fun _ => 0) else l.width :: takes rest (x - l.width)

omit [LinearOrder K] [IsStrictOrderedRing K] in
@[simp] theorem gain_cons (l : Level K) (t : K) (ts : List K) :
    gain (l :: levels) (t :: ts) = l.rate * t + gain levels ts := by simp [gain]

omit [LinearOrder K] [IsStrictOrderedRing K] in
theorem gain_none (levels : List (Level K)) : gain levels (levels.map fun _ => 0) = 0 := by
  induction levels with
  | nil => rfl
  | cons l rest ih => rw [List.map_cons, gain_cons, ih, mul_zero, add_zero]

omit [IsStrictOrderedRing K] in
theorem within_none (h : Positive levels) : Within levels (levels.map fun _ => 0) := by
  induction levels with
  | nil => exact List.Forall₂.nil
  | cons l rest ih =>
    have hw := (h l List.mem_cons_self).1
    exact List.Forall₂.cons ⟨le_refl 0, hw.le⟩
      (ih fun m hm => h m (List.mem_cons_of_mem _ hm))

theorem takes_within (h : Positive levels) (hx : 0 ≤ x) : Within levels (takes levels x) := by
  induction levels generalizing x with
  | nil => exact List.Forall₂.nil
  | cons l rest ih =>
    have hw := (h l List.mem_cons_self).1
    have hrest : Positive rest := fun m hm => h m (List.mem_cons_of_mem _ hm)
    unfold takes
    split
    · rename_i hle
      exact List.Forall₂.cons ⟨hx, hle⟩ (within_none hrest)
    · exact List.Forall₂.cons ⟨hw.le, le_refl _⟩ (ih hrest (by linarith))

omit [IsStrictOrderedRing K] in
theorem takes_sum : (takes levels x).sum = x - left levels x := by
  induction levels generalizing x with
  | nil => simp [takes, left]
  | cons l rest ih =>
    unfold takes left
    split
    · simp
    · rw [List.sum_cons, ih]
      ring

omit [IsStrictOrderedRing K] in
theorem takes_gain : gain levels (takes levels x) = fill levels x := by
  induction levels generalizing x with
  | nil => rfl
  | cons l rest ih =>
    unfold takes fill
    split
    · rw [gain_cons, gain_none, add_zero]
    · rw [gain_cons, ih]

theorem gain_le {ts : List K} (h : Within levels ts) (hρ : ∀ l ∈ levels, l.rate ≤ ρ) :
    gain levels ts ≤ ρ * ts.sum := by
  induction h with
  | nil => simp [gain]
  | cons ht _ ih =>
    have hfirst := mul_le_mul_of_nonneg_right (hρ _ List.mem_cons_self) ht.1
    have hrest := ih fun m hm => hρ m (List.mem_cons_of_mem _ hm)
    rw [gain_cons, List.sum_cons, mul_add]
    linarith

theorem gain_le_fill {ts : List K} (h : Positive levels) (hs : BestFirst levels)
    (hts : Within levels ts) (hx : ts.sum ≤ x) : gain levels ts ≤ fill levels x := by
  induction hts generalizing x with
  | nil => simp [gain, fill]
  | @cons l t rest us ht hrest ih =>
    obtain ⟨hw, hr⟩ := h l List.mem_cons_self
    obtain ⟨hbest, hsrest⟩ := List.pairwise_cons.mp hs
    have hpos : Positive rest := fun m hm => h m (List.mem_cons_of_mem _ hm)
    rw [List.sum_cons] at hx
    rw [gain_cons]
    unfold fill
    split
    · -- everything is taken in at the best rate at most
      have hmore := gain_le hrest hbest
      have hall := mul_le_mul_of_nonneg_left hx hr.le
      linarith
    · -- what is not taken in here is moved here from the levels behind
      have hmore := ih hpos hsrest (x := x - t) (by linarith)
      have hmove := fill_slope hpos hbest hr.le (x := x - l.width) (y := x - t)
        (by linarith [ht.2])
      linarith

end CriptoParser.Greedy
