import Mathlib.Data.List.Basic
import Mathlib.Data.List.Range
import Mathlib.Tactic.Common

/-!
An append-only stream read through consumer groups. A read hands out entries the
group has never been given, and keeps them pending until they are acknowledged.
The id of an entry is its place in the stream.
-/

set_option autoImplicit false

namespace CriptoParser.Streams

/-- What a group has been given, and what it has not acknowledged yet. -/
structure Group where
  delivered : ℕ
  pending : List ℕ
  deriving DecidableEq, Repr, Inhabited

structure Entry (P : Type) where
  id : ℕ
  payload : P
  deriving DecidableEq, Repr

structure Log (P : Type) where
  entries : List P
  groups : String → Group

variable {P : Type}

def entriesFrom (n : ℕ) : List P → List (Entry P)
  | [] => []
  | p :: ps => ⟨n, p⟩ :: entriesFrom (n + 1) ps

namespace Log

def fresh (s : Log P) (group : String) (count : ℕ) : List (Entry P) :=
  entriesFrom (s.groups group).delivered
    ((s.entries.drop (s.groups group).delivered).take count)

def append (s : Log P) (ps : List P) : Log P := { s with entries := s.entries ++ ps }

def setGroup (s : Log P) (group : String) (g : Group) : Log P :=
  { s with groups := Function.update s.groups group g }

def deliver (s : Log P) (group : String) (count : ℕ) : Log P :=
  s.setGroup group
    { delivered := (s.groups group).delivered + (s.fresh group count).length
      pending := (s.groups group).pending ++ (s.fresh group count).map Entry.id }

def ack (s : Log P) (group : String) (ids : List ℕ) : Log P :=
  s.setGroup group
    { (s.groups group) with
      pending := (s.groups group).pending.filter (fun i => decide (i ∉ ids)) }

end Log

theorem entriesFrom_ids (n : ℕ) (ps : List P) :
    (entriesFrom n ps).map Entry.id = List.range' n ps.length := by
  induction ps generalizing n with
  | nil => rfl
  | cons p ps ih => simp [entriesFrom, ih, List.range'_succ]

@[simp] theorem entriesFrom_payloads (n : ℕ) (ps : List P) :
    (entriesFrom n ps).map Entry.payload = ps := by
  induction ps generalizing n with
  | nil => rfl
  | cons p ps ih => simp [entriesFrom, ih]

section Group
variable (s : Log P) (group other : String)

theorem groups_deliver_other (count : ℕ) (h : other ≠ group) :
    (s.deliver group count).groups other = s.groups other := by
  simp [Log.deliver, Log.setGroup, Function.update_of_ne h]

@[simp] theorem groups_append (ps : List P) : (s.append ps).groups = s.groups := rfl

theorem fresh_payloads (count : ℕ) :
    (s.fresh group count).map Entry.payload =
      (s.entries.drop (s.groups group).delivered).take count := entriesFrom_payloads _ _

theorem drop_deliver (count : ℕ) :
    (s.deliver group count).entries.drop ((s.deliver group count).groups group).delivered =
      (s.entries.drop (s.groups group).delivered).drop count := by
  have hlength : (s.fresh group count).length =
      ((s.entries.drop (s.groups group).delivered).take count).length := by
    rw [← fresh_payloads, List.length_map]
  have hdelivered : ((s.deliver group count).groups group).delivered =
      (s.groups group).delivered + (s.fresh group count).length := by
    simp [Log.deliver, Log.setGroup]
  change s.entries.drop _ = _
  rw [hdelivered, hlength, ← List.drop_drop, List.length_take]
  rcases Nat.le_total count (s.entries.drop (s.groups group).delivered).length with hle | hle
  · rw [Nat.min_eq_left hle]
  · rw [Nat.min_eq_right hle, List.drop_length, List.drop_eq_nil_of_le hle]

theorem pending_ack (ids : List ℕ) :
    ((s.ack group ids).groups group).pending =
      (s.groups group).pending.filter (fun i => decide (i ∉ ids)) := by
  simp [Log.ack, Log.setGroup]

end Group

end CriptoParser.Streams
