import CriptoParser.BalanceLedger
import CriptoParser.ExecutorLedger

set_option autoImplicit false

namespace CriptoParser

open Await

structure BalanceUpdate where
  balances : List (String × ℚ)
  nonempty : balances ≠ []
  distinct : (balances.map Prod.fst).Nodup

structure HttpError where
  status : ℕ
  detail : String
  exchanges : List String
  deriving DecidableEq, Repr

def colMax : ℚ := 10 ^ 10

def rejection (paper : Bool) (payload : BalanceUpdate) : Option HttpError :=
  let unknown := payload.balances.filter fun b => (exchangeConfig b.1).isNone
  let negative := payload.balances.filter fun b => b.2 < 0
  let tooLarge := payload.balances.filter fun b => colMax ≤ b.2
  if !paper then some ⟨403, "balances editable only in paper mode", []⟩
  else if !unknown.isEmpty then some ⟨400, "unknown exchanges: ", unknown.map Prod.fst⟩
  else if !negative.isEmpty then some ⟨400, "negative balances: ", negative.map Prod.fst⟩
  else if !tooLarge.isEmpty then
    some ⟨400, "balances too large (>= 1e10): ", tooLarge.map Prod.fst⟩
  else none

/-- A difference that does not fit its column is written as `NULL`. -/
def adjustmentRow (now : ℚ) (exchange : String) (amount change : ℚ) : BalanceRow where
  time := now
  exchange := exchange
  asset := "USDT"
  amount := amount
  tradeId := none
  changeAmount := if colMax ≤ |change| then none else some change
  reason := "adjustment"

def writeBalances (now : ℚ) : List (String × ℚ) → Task (List BalanceRow)
  | [] => pure []
  | (exchange, amount) :: rest => do
    let prev ← Prog.call (S := Service) (.hget (balanceKey exchange) "USDT")
    Prog.call (S := Service) (.hset (balanceKey exchange) "USDT" amount)
    let records ← writeBalances now rest
    return adjustmentRow now exchange amount (amount - prev.getD 0) :: records

def setBalances (paper : Bool) (payload : BalanceUpdate) :
    Task (Except HttpError (List (String × ℚ))) :=
  match rejection paper payload with
  | some err => pure (.error err)
  | none => do
    let now ← Prog.call (S := Service) .time
    let records ← writeBalances now payload.balances
    Prog.call (S := Service) (.copyBalance records)
    return .ok payload.balances

def editBalances (paper : Bool) : List BalanceUpdate → Task Unit
  | [] => pure ()
  | payload :: rest => do
    let _ ← setBalances paper payload
    editBalances paper rest

theorem rejection_none {paper : Bool} {payload : BalanceUpdate}
    (h : rejection paper payload = none) :
    paper = true ∧ ∀ b ∈ payload.balances,
      (exchangeConfig b.1).isSome = true ∧ 0 ≤ b.2 ∧ b.2 < colMax := by
  unfold rejection at h
  simp only at h
  split at h
  · cases h
  rename_i hpaper
  split at h
  · cases h
  rename_i hunknown
  split at h
  · cases h
  rename_i hnegative
  split at h
  · cases h
  rename_i hlarge
  simp only [Bool.not_eq_true', Bool.not_eq_false, List.isEmpty_iff, List.filter_eq_nil_iff,
    decide_eq_true_eq, not_lt, not_le, Option.isNone_iff_eq_none] at *
  refine ⟨hpaper, fun b hb => ⟨?_, hnegative b hb, hlarge b hb⟩⟩
  exact Option.isSome_iff_ne_none.mpr (hunknown b hb)

def editEvents : List (String × ℚ) → List (Option ℚ) → List (Event Service)
  | b :: rest, v :: vs =>
    readEvent b.1 v :: ⟨.hset (balanceKey b.1) "USDT" b.2, .ok ()⟩ :: editEvents rest vs
  | _, _ => []

def editRows (now : ℚ) : List (String × ℚ) → List (Option ℚ) → List BalanceRow
  | b :: rest, v :: vs => adjustmentRow now b.1 b.2 (b.2 - v.getD 0) :: editRows now rest vs
  | _, _ => []

theorem writeBalances_goes {now : ℚ} {balances : List (String × ℚ)} {es : List (Event Service)}
    {r : Except PyExc (List BalanceRow)} (h : (writeBalances now balances).Goes es r) :
    ∃ vs, vs.length = balances.length ∧ es = editEvents balances vs ∧
      r = .ok (editRows now balances vs) := by
  induction balances generalizing es r with
  | nil =>
    obtain ⟨hes, hr⟩ := (Prog.goes_pure _ _ _).mp h
    exact ⟨[], rfl, hes, hr⟩
  | cons b rest ih =>
    obtain ⟨exchange, amount⟩ := b
    simp only [writeBalances, Prog.goes_call_bind] at h
    obtain ⟨v, es₁, rfl, -, es₂, rfl, h⟩ := h
    rw [Prog.goes_bind] at h
    rcases h with ⟨records, es₃, es₄, rfl, h₁, h₂⟩ | ⟨x, h₁, -⟩
    · obtain ⟨vs, hlen, rfl, hrec⟩ := ih h₁
      obtain ⟨rfl, rfl⟩ := (Prog.goes_pure _ _ _).mp h₂
      cases hrec
      exact ⟨v :: vs, by simp [hlen], by simp [editEvents, readEvent], rfl⟩
    · obtain ⟨vs, -, -, hrec⟩ := ih h₁
      cases hrec

/-- A request is rejected with no call made, or edits every balance and then writes the
rows of all of them. -/
theorem setBalances_goes {paper : Bool} {payload : BalanceUpdate} {es : List (Event Service)}
    {r : Except PyExc (Except HttpError (List (String × ℚ)))}
    (h : (setBalances paper payload).Goes es r) :
    (∃ err, rejection paper payload = some err ∧ es = [] ∧ r = .ok (.error err)) ∨
      (rejection paper payload = none ∧ r = .ok (.ok payload.balances) ∧
        ∃ now vs, vs.length = payload.balances.length ∧
          es = ⟨.time, .ok now⟩ :: (editEvents payload.balances vs ++
            [⟨.copyBalance (editRows now payload.balances vs), .ok ()⟩])) := by
  unfold setBalances at h
  cases hrej : rejection paper payload with
  | some err =>
    simp only [hrej, Prog.goes_pure] at h
    exact .inl ⟨err, rfl, h.1, h.2⟩
  | none =>
    simp only [hrej, Prog.goes_call_bind] at h
    obtain ⟨now, es₁, rfl, h⟩ := h
    rw [Prog.goes_bind] at h
    rcases h with ⟨records, es₂, es₃, rfl, h₁, h₂⟩ | ⟨x, h₁, -⟩
    · obtain ⟨vs, hlen, rfl, hrec⟩ := writeBalances_goes h₁
      cases hrec
      simp only [Prog.goes_call_bind] at h₂
      obtain ⟨-, es₄, rfl, h₂⟩ := h₂
      obtain ⟨rfl, rfl⟩ := (Prog.goes_pure _ _ _).mp h₂
      exact .inr ⟨rfl, rfl, now, vs, hlen, rfl⟩
    · obtain ⟨vs, -, -, hrec⟩ := writeBalances_goes h₁
      cases hrec

end CriptoParser
