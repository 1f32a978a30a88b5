import Mathlib.Data.List.Nodup
import Mathlib.Tactic.Common

set_option autoImplicit false

namespace CriptoParser.Sql

structure Table {α κ : Type} (key : α → κ) where
  rows : List α
  unique : (rows.map key).Nodup

namespace Table
section
variable {α κ : Type} {key : α → κ}

def empty : Table key := ⟨[], List.nodup_nil⟩

def delete (t : Table key) (p : α → Bool) : Table key where
  rows := t.rows.filter fun r => !p r
  unique := t.unique.sublist (List.filter_sublist.map key)

/-- `UPDATE ... SET set WHERE p`, of columns outside the key. -/
def update (t : Table key) (p : α → Bool) (set : α → α) (hset : ∀ r, key (set r) = key r) :
    Table key where
  rows := t.rows.map fun r => if p r then set r else r
  unique := by
    have hkeys : (t.rows.map fun r => if p r then set r else r).map key = t.rows.map key := by
      rw [List.map_map]
      refine List.map_congr_left fun r _ => ?_
      by_cases hp : p r
      · simp [hp, hset]
      · simp [hp]
    rw [hkeys]
    exact t.unique

/-- `INSERT ... ON CONFLICT (key) DO UPDATE SET set`. -/
def upsert [DecidableEq κ] (t : Table key) (row : α) (set : α → α)
    (hset : ∀ r, key (set r) = key r) : Table key :=
  if h : key row ∈ t.rows.map key then t.update (fun r => key r = key row) set hset
  else ⟨t.rows ++ [row], by simpa using List.Nodup.concat h t.unique⟩

variable {t : Table key} {p : α → Bool} {row x : α} {set : α → α}
  {hset : ∀ r, key (set r) = key r}

theorem mem_update :
    x ∈ (t.update p set hset).rows ↔
      (∃ r ∈ t.rows, p r = true ∧ x = set r) ∨ (x ∈ t.rows ∧ p x = false) := by
  simp only [update, List.mem_map]
  constructor
  · rintro ⟨r, hr, rfl⟩
    by_cases hp : p r
    · exact .inl ⟨r, hr, hp, if_pos hp⟩
    · rw [if_neg hp]
      exact .inr ⟨hr, Bool.eq_false_iff.mpr hp⟩
  · rintro (⟨r, hr, hp, rfl⟩ | ⟨hx, hp⟩)
    · exact ⟨r, hr, if_pos hp⟩
    · exact ⟨x, hx, if_neg (Bool.eq_false_iff.mp hp)⟩

theorem mem_upsert [DecidableEq κ] :
    x ∈ (t.upsert row set hset).rows ↔
      (∃ r ∈ t.rows, key r = key row ∧ x = set r) ∨ (x ∈ t.rows ∧ key x ≠ key row) ∨
        (x = row ∧ key row ∉ t.rows.map key) := by
  unfold upsert
  split
  · rename_i hkey
    rw [mem_update]
    simp only [decide_eq_true_eq, decide_eq_false_iff_not, hkey, not_true, and_false, or_false, ne_eq]
  · rename_i hkey
    have hother : ∀ r ∈ t.rows, key r ≠ key row := fun r hr hsame =>
      hkey (List.mem_map.mpr ⟨r, hr, hsame⟩)
    rw [List.mem_append, List.mem_singleton]
    constructor
    · rintro (hx | rfl)
      · exact .inr (.inl ⟨hx, hother x hx⟩)
      · exact .inr (.inr ⟨rfl, hkey⟩)
    · rintro (⟨r, hr, hsame, -⟩ | ⟨hx, -⟩ | ⟨rfl, -⟩)
      · exact absurd hsame (hother r hr)
      · exact .inl hx
      · exact .inr rfl

end
end Table

end CriptoParser.Sql
