import CriptoParser.PythonValues
import Mathlib.Tactic.Positivity
import Mathlib.Tactic.Linarith
import Mathlib.Tactic.FieldSimp

set_option autoImplicit false

namespace CriptoParser

def depthLevels : ℕ := 10

def depthMaxAgeMs : ℤ := 5000

def depthEps : ℚ := 1 / 10 ^ 9

def depthKey (exchange symbol : String) : String := "depth:" ++ exchange ++ ":" ++ symbol

/-- What `parse_depth` returns; both sides are the raw JSON values. -/
structure Depth where
  ts : ℤ
  bids : Json
  asks : Json

section
variable [PyText]

def levelsText (side : List (ℚ × ℚ)) : String :=
  "[" ++ String.intercalate ", " (side.map fun pq =>
    "[" ++ PyText.strFloat pq.1 ++ ", " ++ PyText.strFloat pq.2 ++ "]") ++ "]"

def depthText (ts : ℤ) (bids asks : List (ℚ × ℚ)) : String :=
  "\x7b\"ts\": " ++ PyText.strInt ts ++ ", \"bids\": " ++ levelsText bids ++
    ", \"asks\": " ++ levelsText asks ++ "\x7d"

def unpackLevel : List ℚ → Except PyExc (ℚ × ℚ)
  | p :: q :: _ => .ok (p, q)
  | _ => .error .valueError

def topLevels (levels : ℕ) (side : List (List ℚ)) : Except PyExc (List (ℚ × ℚ)) :=
  (side.take levels).mapM unpackLevel

def dumpDepth (bids asks : List (List ℚ)) (ts : ℤ) (levels : ℕ) : Except PyExc String := do
  let bids ← topLevels levels bids
  let asks ← topLevels levels asks
  .ok (depthText ts bids asks)

def readDepth (raw : String) : Except PyExc (Option Depth) := do
  let d ← match PyText.loads raw with
    | some v => Except.ok v
    | none => .error .valueError
  let bids ← d.get "bids"
  match bids.filter JsonOf.truthy with
  | none => .ok none
  | some bids =>
    let asks ← d.get "asks"
    match asks.filter JsonOf.truthy with
    | none => .ok none
    | some asks =>
      match ← d.get "ts" with
      | none => .error .keyError
      | some ts => .ok (some ⟨← Json.toInt ts, bids, asks⟩)

/-- `except (ValueError, KeyError, TypeError)`: an attribute or an overflow error escapes. -/
def parseDepth : Option String → Except PyExc (Option Depth)
  | none => .ok none
  | some raw =>
    if raw = "" then .ok none
    else match readDepth raw with
      | .error .valueError | .error .keyError | .error .typeError => .ok none
      | r => r

def isFresh (depth : Option Depth) (nowMs maxAgeMs : ℤ) : Bool :=
  match depth with
  | none => false
  | some d => decide (nowMs - d.ts ≤ maxAgeMs)

def readLevel (level : Json) : Except PyExc (ℚ × ℚ) := do
  let (price, qty) ← level.unpackPair
  .ok (← Json.toFloat price, ← Json.toFloat qty)

/-- The loop of `walk_asks_for_notional`: what is left to spend, and the amount bought. -/
def walkAsksLoop : List Json → ℚ → ℚ → Except PyExc (ℚ × ℚ)
  | [], remaining, amount => .ok (remaining, amount)
  | level :: rest, remaining, amount =>
    match readLevel level with
    | .error x => .error x
    | .ok (price, qty) =>
      if price ≤ 0 ∨ qty ≤ 0 then walkAsksLoop rest remaining amount
      else if remaining ≤ price * qty then .ok (0, amount + remaining / price)
      else walkAsksLoop rest (remaining - price * qty) (amount + qty)

def walkAsksForNotional (asks : Json) (notionalUsd : ℚ) : Except PyExc (Option (ℚ × ℚ)) :=
  if notionalUsd ≤ 0 then .ok none
  else do
    let (remaining, amount) ← walkAsksLoop (← asks.items) notionalUsd 0
    if depthEps * notionalUsd < remaining ∨ amount ≤ 0 then .ok none
    else .ok (some (amount, notionalUsd / amount))

/-- The loop of `walk_bids_for_amount`: what is left to sell, and the proceeds. -/
def walkBidsLoop : List Json → ℚ → ℚ → Except PyExc (ℚ × ℚ)
  | [], remaining, proceeds => .ok (remaining, proceeds)
  | level :: rest, remaining, proceeds =>
    match readLevel level with
    | .error x => .error x
    | .ok (price, qty) =>
      if price ≤ 0 ∨ qty ≤ 0 then walkBidsLoop rest remaining proceeds
      else
        let take := if qty < remaining then qty else remaining
        if remaining - take ≤ 0 then .ok (remaining - take, proceeds + take * price)
        else walkBidsLoop rest (remaining - take) (proceeds + take * price)

def walkBidsForAmount (bids : Json) (amountBase : ℚ) : Except PyExc (Option ℚ) :=
  if amountBase ≤ 0 then .ok none
  else do
    let (remaining, proceeds) ← walkBidsLoop (← bids.items) amountBase 0
    if depthEps * amountBase < remaining then .ok none
    else .ok (some (proceeds / amountBase))

theorem walkAsksForNotional_some {asks : Json} {n amount vwap : ℚ}
    (h : walkAsksForNotional asks n = .ok (some (amount, vwap))) :
    0 < n ∧ 0 < amount ∧ vwap = n / amount := by
  unfold walkAsksForNotional at h
  split at h
  · cases h
  · rename_i hn
    cases hi : asks.items with
    | error x => rw [hi] at h; cases h
    | ok l =>
      cases hl : walkAsksLoop l n 0 with
      | error x => simp only [hi, hl, Except.bind, bind] at h; cases h
      | ok ra =>
        obtain ⟨remaining, bought⟩ := ra
        simp only [hi, hl, Except.bind, bind] at h
        split at h
        · cases h
        · rename_i hc
          cases h
          exact ⟨not_le.mp hn, not_le.mp fun hb => hc (.inr hb), rfl⟩

theorem walkAsksForNotional_cost {asks : Json} {n amount vwap : ℚ}
    (h : walkAsksForNotional asks n = .ok (some (amount, vwap))) : amount * vwap = n := by
  obtain ⟨-, hpos, rfl⟩ := walkAsksForNotional_some h
  field_simp

theorem walkBidsLoop_proceeds_nonneg (l : List Json) (remaining proceeds : ℚ)
    (hr : 0 ≤ remaining) (hp : 0 ≤ proceeds) {left total : ℚ}
    (h : walkBidsLoop l remaining proceeds = .ok (left, total)) : 0 ≤ total := by
  induction l generalizing remaining proceeds with
  | nil =>
    cases h
    exact hp
  | cons level rest ih =>
    unfold walkBidsLoop at h
    cases hl : readLevel level with
    | error x => rw [hl] at h; cases h
    | ok pq =>
      obtain ⟨price, qty⟩ := pq
      rw [hl] at h
      simp only at h
      by_cases hskip : price ≤ 0 ∨ qty ≤ 0
      · rw [if_pos hskip] at h
        exact ih remaining proceeds hr hp h
      rw [if_neg hskip] at h
      push Not at hskip
      obtain ⟨hprice, hqty⟩ := hskip
      -- the level gives at most what it holds and at most what is still to sell
      have htake : 0 ≤ (if qty < remaining then qty else remaining) ∧
          (if qty < remaining then qty else remaining) ≤ remaining := by
        split
        · rename_i hlt
          exact ⟨hqty.le, hlt.le⟩
        · exact ⟨hr, le_refl _⟩
      generalize (if qty < remaining then qty else remaining) = take at h htake
      have hpaid : 0 ≤ proceeds + take * price :=
        add_nonneg hp (mul_nonneg htake.1 hprice.le)
      split at h
      · cases h
        exact hpaid
      · exact ih _ _ (by linarith [htake.2]) hpaid h

theorem walkBidsForAmount_some {bids : Json} {amount vwap : ℚ}
    (h : walkBidsForAmount bids amount = .ok (some vwap)) : 0 < amount ∧ 0 ≤ vwap := by
  unfold walkBidsForAmount at h
  split at h
  · cases h
  · rename_i hn
    cases hi : bids.items with
    | error x => rw [hi] at h; cases h
    | ok l =>
      cases hl : walkBidsLoop l amount 0 with
      | error x => simp only [hi, hl, Except.bind, bind] at h; cases h
      | ok ra =>
        obtain ⟨remaining, proceeds⟩ := ra
        simp only [hi, hl, Except.bind, bind] at h
        split at h
        · cases h
        · cases h
          have hpos : 0 < amount := not_le.mp hn
          have hp := walkBidsLoop_proceeds_nonneg l amount 0 hpos.le (le_refl 0) hl
          exact ⟨hpos, div_nonneg hp hpos.le⟩

end

end CriptoParser
