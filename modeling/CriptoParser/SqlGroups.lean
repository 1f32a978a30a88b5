import Mathlib.Algebra.BigOperators.Group.Finset.Piecewise
import Mathlib.Data.Finset.Sort
import Mathlib.Tactic.Common

set_option autoImplicit false

namespace CriptoParser.Sql

variable {α κ : Type} [LinearOrder κ] (key : α → κ) (rows : List α)

def groups : List κ := (rows.map key).toFinset.sort (· ≤ ·)

def group (k : κ) : List α := rows.filter fun x => key x = k

theorem mem_groups {k : κ} : k ∈ groups key rows ↔ ∃ x ∈ rows, key x = k := by
  simp [groups]

theorem groups_eq_nil : groups key rows = [] ↔ rows = [] := by
  constructor
  · intro h
    cases rows with
    | nil => rfl
    | cons x rest =>
      have hx := (mem_groups key (x :: rest)).mpr ⟨x, List.mem_cons_self, rfl⟩
      rw [h] at hx
      cases hx
  · rintro rfl
    simp [groups]

section
variable {M : Type} [AddCommMonoid M] (f : α → M)

theorem sum_group_of_subset (s : Finset κ) (h : ∀ x ∈ rows, key x ∈ s) :
    (∑ k ∈ s, ((group key rows k).map f).sum) = (rows.map f).sum := by
  induction rows with
  | nil => simp [group]
  | cons x rest ih =>
    have hcons : ∀ k, ((group key (x :: rest) k).map f).sum =
        (if key x = k then f x else 0) + ((group key rest k).map f).sum := by
      intro k
      by_cases hk : key x = k
      · simp [group, hk]
      · simp [group, hk]
    rw [Finset.sum_congr rfl fun k _ => hcons k, Finset.sum_add_distrib,
      ih fun y hy => h y (List.mem_cons_of_mem _ hy), Finset.sum_ite_eq,
      if_pos (h x List.mem_cons_self), List.map_cons, List.sum_cons]

theorem sum_groups :
    ((groups key rows).map fun k => ((group key rows k).map f).sum).sum = (rows.map f).sum := by
  rw [groups, ← List.sum_toFinset _ (Finset.sort_nodup _ _), Finset.sort_toFinset]
  exact sum_group_of_subset key rows f _ fun x hx => by simpa using ⟨x, hx, rfl⟩

end

end CriptoParser.Sql
