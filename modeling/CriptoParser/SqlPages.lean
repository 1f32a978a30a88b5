import Mathlib.Data.List.Nodup
import Mathlib.Data.List.Sort
import Mathlib.Tactic.Common

/-!
Pages of `ORDER BY key DESC LIMIT size OFFSET page * size`, each from a query of its own. Among
rows of one key the database may answer in any order, in each query in another: the pages make up
the table for all of them only where no group of equal keys lies across the end of a page.
-/

set_option autoImplicit false

namespace CriptoParser.Sql

section
variable {α K : Type} [LinearOrder K]

structure Arranged (key : α → K) (rows s : List α) : Prop where
  perm : s.Perm rows
  sorted : s.Pairwise fun x y => key y ≤ key x

structure OrderDesc (key : α → K) where
  sort : List α → List α
  arranged : ∀ rows, Arranged key rows (sort rows)

def OrderDesc.stable (key : α → K) : OrderDesc key where
  sort rows := rows.mergeSort fun x y => key y ≤ key x
  arranged rows := by
    refine ⟨List.mergeSort_perm _ _, ?_⟩
    have hsorted : (rows.mergeSort fun x y => key y ≤ key x).Pairwise
        fun x y => decide (key y ≤ key x) = true :=
      List.pairwise_mergeSort
        (fun x y z hxy hyz => by simpa using le_trans (of_decide_eq_true hyz) (of_decide_eq_true hxy))
        (fun x y => by simpa using le_total (key y) (key x)) rows
    exact hsorted.imp of_decide_eq_true

def OrderDesc.answering [DecidableEq α] {key : α → K} (o : OrderDesc key) {rows s : List α}
    (h : Arranged key rows s) : OrderDesc key where
  sort r := if r = rows then s else o.sort r
  arranged r := by
    split
    · rename_i hr
      rw [hr]
      exact h
    · exact o.arranged r

variable {key : α → K} {rows s s' : List α}

@[simp] theorem OrderDesc.answering_sort [DecidableEq α] (o : OrderDesc key)
    (h : Arranged key rows s) : (o.answering h).sort rows = s := if_pos rfl

theorem sorted_keys : s.Pairwise (fun x y => key y ≤ key x) ↔ (s.map key).Pairwise (· ≥ ·) := by
  rw [List.pairwise_map]

theorem Arranged.keys (h : Arranged key rows s) (h' : Arranged key rows s') :
    s.map key = s'.map key :=
  List.Perm.eq_of_pairwise' (sorted_keys.mp h.sorted) (sorted_keys.mp h'.sorted)
    ((h.perm.trans h'.perm.symm).map key)

theorem Arranged.length (h : Arranged key rows s) : s.length = rows.length := h.perm.length_eq

theorem Arranged.holds_iff {before after : List α} {x : α}
    (h : Arranged key rows (before ++ x :: after)) {p : α → Bool}
    (hp : ∀ y z, key y ≤ key z → p y = true → p z = true) :
    p x = true ↔ before.length < rows.countP p := by
  obtain ⟨-, hafter, hbefore⟩ := List.pairwise_append.mp h.sorted
  rw [← h.perm.countP_eq, List.countP_append, List.countP_cons]
  constructor
  · intro hx
    have hall : before.countP p = before.length :=
      List.countP_eq_length.mpr fun y hy => hp x y (hbefore y hy x List.mem_cons_self) hx
    rw [hall, if_pos hx]
    omega
  · intro hlt
    by_contra hx
    have hnone : after.countP p = 0 :=
      List.countP_eq_zero.mpr fun y hy hpy => hx (hp y x ((List.pairwise_cons.mp hafter).1 y hy) hpy)
    rw [hnone, if_neg hx] at hlt
    exact absurd hlt (not_lt.mpr List.countP_le_length)

theorem Arranged.filter_eq_take (h : Arranged key rows s) {p : α → Bool}
    (hp : ∀ y z, key y ≤ key z → p y = true → p z = true) :
    s.filter p = s.take (rows.countP p) := by
  rw [← h.perm.countP_eq]
  have hsorted := h.sorted
  clear h
  induction s with
  | nil => rfl
  | cons x rest ih =>
    obtain ⟨hx, hrest⟩ := List.pairwise_cons.mp hsorted
    by_cases hpx : p x = true
    · rw [List.filter_cons_of_pos hpx, List.countP_cons_of_pos hpx, List.take_succ_cons, ih hrest]
    · have hnone : rest.filter p = [] :=
        List.filter_eq_nil_iff.mpr fun y hy hpy => hpx (hp y x (hx y hy) hpy)
      rw [List.filter_cons_of_neg hpx, List.countP_cons_of_neg hpx, hnone,
        List.countP_eq_length_filter, hnone]
      rfl

theorem le_upward (t : K) (y z : α) (h : key y ≤ key z) (hy : decide (t ≤ key y) = true) :
    decide (t ≤ key z) = true := by
  simpa using (of_decide_eq_true hy).trans h

theorem lt_upward (t : K) (y z : α) (h : key y ≤ key z) (hy : decide (t < key y) = true) :
    decide (t < key z) = true := by
  simpa using (of_decide_eq_true hy).trans_le h

theorem exists_split {c : ℕ} (hc : c < s.length) :
    ∃ before x after, s = before ++ x :: after ∧ before.length = c :=
  ⟨s.take c, s[c], s.drop (c + 1), by rw [← List.drop_eq_getElem_cons, List.take_append_drop],
    by rw [List.length_take]; omega⟩

/-- No rows of one key stand before and behind the first `b`. -/
def UntiedAt (key : α → K) (rows : List α) (b : ℕ) : Prop :=
  ∀ t, ¬((rows.countP fun x => t < key x) < b ∧ b < rows.countP fun x => t ≤ key x)

theorem UntiedAt.take_perm {b : ℕ} (hu : UntiedAt key rows b) (h : Arranged key rows s)
    (h' : Arranged key rows s') : (s.take b).Perm (s'.take b) := by
  have hperm : s.Perm s' := h.perm.trans h'.perm.symm
  cases b with
  | zero => simp
  | succ c =>
    by_cases hc : c < s.length
    · -- the last of the first rows has the key up to which they are taken
      obtain ⟨before, x, after, rfl, rfl⟩ := exists_split hc
      have habove : decide (key x < key x) = true ↔
          before.length < rows.countP fun y => decide (key x < key y) :=
        h.holds_iff (lt_upward (key x))
      have hfrom : decide (key x ≤ key x) = true ↔
          before.length < rows.countP fun y => decide (key x ≤ key y) :=
        h.holds_iff (le_upward (key x))
      simp only [lt_irrefl, decide_false, Bool.false_eq_true, false_iff, not_lt] at habove
      simp only [le_refl, decide_true, true_iff] at hfrom
      have hcount : (rows.countP fun y => key x ≤ key y) = before.length + 1 := by
        have hle := not_lt.mp fun hlt => hu (key x) ⟨Nat.lt_succ_of_le habove, hlt⟩
        exact le_antisymm hle hfrom
      rw [← hcount, ← h.filter_eq_take (le_upward _), ← h'.filter_eq_take (le_upward _)]
      exact hperm.filter _
    · have hlong : s.length ≤ c + 1 := by omega
      rw [List.take_of_length_le hlong, List.take_of_length_le (hperm.length_eq.symm.trans_le hlong)]
      exact hperm

theorem Arranged.swap {b : ℕ} (h : Arranged key rows s) (hu : ¬UntiedAt key rows b) :
    ∃ before x y after, s = before ++ x :: y :: after ∧ before.length + 1 = b ∧
      Arranged key rows (before ++ y :: x :: after) := by
  unfold UntiedAt at hu
  push Not at hu
  obtain ⟨t, habove, hfrom⟩ := hu
  have hlength : b < s.length := by
    rw [h.length]
    exact hfrom.trans_le List.countP_le_length
  obtain ⟨c, rfl⟩ : ∃ c, b = c + 1 := ⟨b - 1, by omega⟩
  obtain ⟨first, y, after, rfl, hfirst⟩ := exists_split hlength
  obtain ⟨before, x, rfl⟩ : ∃ before x, first = before ++ [x] := by
    rcases List.eq_nil_or_concat first with rfl | ⟨before, x, rfl⟩
    · simp at hfirst
    · exact ⟨before, x, by simp⟩
  have hc : before.length = c := by simpa using hfirst
  rw [List.append_assoc, List.singleton_append] at h
  have hxt : key x ≤ t := by
    by_contra hlt
    have hcount := (h.holds_iff (lt_upward t)).mp (by simpa using hlt)
    omega
  have hty : t ≤ key y := by
    have hy := h
    rw [← List.singleton_append, ← List.append_assoc] at hy
    exact of_decide_eq_true ((hy.holds_iff (le_upward t)).mpr (by rw [hfirst]; exact hfrom))
  obtain ⟨-, hafter, -⟩ := List.pairwise_append.mp h.sorted
  have hkeys : key y = key x :=
    le_antisymm ((List.pairwise_cons.mp hafter).1 y List.mem_cons_self) (hxt.trans hty)
  refine ⟨before, x, y, after, by simp, by rw [hc],
    (List.Perm.append_left _ (List.Perm.swap _ _ _)).trans h.perm, ?_⟩
  have hsorted := sorted_keys.mp h.sorted
  rw [sorted_keys]
  simpa [hkeys] using hsorted

end

section
variable {α : Type}

def limitOffset (limit offset : ℕ) (s : List α) : List α := (s.drop offset).take limit

def pages (size : ℕ) (answers : ℕ → List α) (count : ℕ) : List α :=
  (List.range count).flatMap fun p => limitOffset size (p * size) (answers p)

variable {size : ℕ} {answers : ℕ → List α}

theorem pages_succ (n : ℕ) :
    pages size answers (n + 1) = pages size answers n ++ limitOffset size (n * size) (answers n) := by
  simp [pages, List.range_succ]

theorem take_succ_mul (n : ℕ) (s : List α) :
    s.take ((n + 1) * size) = s.take (n * size) ++ limitOffset size (n * size) s := by
  rw [Nat.succ_mul, List.take_add]
  rfl

theorem pages_eq_take {n : ℕ} {s : List α} (h : ∀ p < n, answers p = s) :
    pages size answers n = s.take (n * size) := by
  induction n with
  | zero => simp [pages]
  | succ n ih =>
    rw [pages_succ, take_succ_mul, ih fun p hp => h p (by omega), h n (by omega)]

theorem pages_two {p n : ℕ} {s s' : List α} (hp : p ≤ n) (hs : ∀ i < p, answers i = s)
    (hs' : ∀ i, p ≤ i → answers i = s') :
    pages size answers n = s.take (p * size) ++ (s'.take (n * size)).drop (p * size) := by
  induction n, hp using Nat.le_induction with
  | base => rw [pages_eq_take hs, List.drop_eq_nil_of_le (by simp), List.append_nil]
  | succ n hp ih =>
    rw [pages_succ, ih, hs' n hp, List.append_assoc, limitOffset]
    congr 1
    have hsize : n * size = p * size + (n * size - p * size) := by
      have := Nat.mul_le_mul_right size hp
      omega
    rw [List.drop_take, List.drop_take, hsize, ← List.drop_drop, Nat.add_sub_cancel_left,
      ← List.take_add, Nat.succ_mul]
    congr 1
    omega

end

section
variable {α K : Type} [LinearOrder K] {key : α → K} {rows s : List α} {size : ℕ}
  {answers : ℕ → List α}

/-- No group of rows with one key lies across the end of a page. -/
def Untied (key : α → K) (rows : List α) (size : ℕ) : Prop :=
  ∀ p, UntiedAt key rows (p * size)

theorem pages_keys (h : ∀ p, Arranged key rows (answers p)) (hs : Arranged key rows s) (n : ℕ) :
    (pages size answers n).map key = (s.take (n * size)).map key := by
  induction n with
  | zero => simp [pages]
  | succ n ih =>
    rw [pages_succ, take_succ_mul, List.map_append, List.map_append, ih]
    congr 1
    simp only [limitOffset, List.map_take, List.map_drop, (h n).keys hs]

theorem pages_sorted (h : ∀ p, Arranged key rows (answers p)) (n : ℕ) :
    (pages size answers n).Pairwise fun x y => key y ≤ key x := by
  rw [sorted_keys, pages_keys h (h 0), List.map_take]
  exact (sorted_keys.mp (h 0).sorted).sublist (List.take_sublist _ _)

theorem pages_perm_take (hu : Untied key rows size) (h : ∀ p, Arranged key rows (answers p))
    (hs : Arranged key rows s) (n : ℕ) : (pages size answers n).Perm (s.take (n * size)) := by
  induction n generalizing s with
  | zero => simp [pages]
  | succ n ih =>
    rw [pages_succ]
    have hstep := (ih (h n)).append_right (limitOffset size (n * size) (answers n))
    rw [← take_succ_mul] at hstep
    exact hstep.trans ((hu (n + 1)).take_perm (h n) hs)

theorem pages_perm (hu : Untied key rows size) (h : ∀ p, Arranged key rows (answers p)) {n : ℕ}
    (hn : rows.length ≤ n * size) : (pages size answers n).Perm rows := by
  have htake := pages_perm_take hu h (h 0) n
  rw [List.take_of_length_le ((h 0).length.trans_le hn)] at htake
  exact htake.trans (h 0).perm

theorem mem_of_mem_pages (h : ∀ p, Arranged key rows (answers p)) {n : ℕ} {x : α}
    (hx : x ∈ pages size answers n) : x ∈ rows := by
  obtain ⟨p, -, hx⟩ := List.mem_flatMap.mp hx
  exact (h p).perm.subset (List.mem_of_mem_drop (List.mem_of_mem_take hx))

theorem exists_missing (hs : Arranged key rows s) (hnodup : rows.Nodup) {n : ℕ}
    (hn : rows.length ≤ n * size) (hu : ¬Untied key rows size) :
    ∃ answers : ℕ → List α, (∀ p, Arranged key rows (answers p)) ∧
      ∃ y ∈ rows, y ∉ pages size answers n := by
  unfold Untied at hu
  push Not at hu
  obtain ⟨p, hp⟩ := hu
  obtain ⟨before, x, y, after, hsplit, hlength, hswap⟩ := hs.swap hp
  have hpn : p ≤ n := by
    by_contra hlt
    have hle : n * size ≤ p * size := Nat.mul_le_mul_right size (by omega)
    have hlong := hs.length
    simp only [hsplit, List.length_append, List.length_cons] at hlong
    omega
  refine ⟨fun i => if i < p then s else before ++ y :: x :: after, fun i => ?_, y, ?_, ?_⟩
  · dsimp only
    split
    · exact hs
    · exact hswap
  · exact hs.perm.subset (by simp [hsplit])
  · have hpages : pages size (fun i => if i < p then s else before ++ y :: x :: after) n =
        s.take (p * size) ++ ((before ++ y :: x :: after).take (n * size)).drop (p * size) :=
      pages_two hpn (fun i hi => if_pos hi) (fun i hi => if_neg (by omega))
    have hfirst : s.take (p * size) = before ++ [x] := by
      rw [hsplit, ← hlength, List.take_length_add_append]
      rfl
    have hlast : ((before ++ y :: x :: after).take (n * size)).drop (p * size) = x :: after := by
      rw [List.take_of_length_le (hswap.length.trans_le hn), ← hlength,
        List.drop_length_add_append]
      rfl
    rw [hpages, hfirst, hlast]
    have hdistinct := hs.perm.nodup_iff.mpr hnodup
    rw [hsplit, List.nodup_append] at hdistinct
    obtain ⟨-, hcons, hdisjoint⟩ := hdistinct
    simp only [List.nodup_cons, List.mem_cons, not_or] at hcons
    simp only [List.mem_append, List.mem_cons, List.not_mem_nil, or_false, not_or]
    have hyx : y ≠ x := fun hyx => hcons.1.1 hyx.symm
    exact ⟨⟨fun hy => hdisjoint y hy y (by simp) rfl, hyx⟩, hyx, hcons.2.1⟩

end

end CriptoParser.Sql
