import CriptoParser.ExecutorPaperTrading
import CriptoParser.ServiceRuns
import Mathlib.Algebra.BigOperators.Group.List.Lemmas

set_option autoImplicit false

namespace CriptoParser

open Await Streams Expiry

/-- The change an event makes to the balance of `exchange`. -/
def eventChange (exchange : String) (e : Event Service) : ℚ :=
  match e.call with
  | .hincrbyfloat key field delta =>
    if carriedOut e ∧ key = balanceKey exchange ∧ field = "USDT" then delta else 0
  | _ => 0

def moved (es : List (Event Service)) (exchange : String) : ℚ :=
  (es.map (eventChange exchange)).sum

def rowChange (exchange : String) (row : BalanceRow) : ℚ :=
  if row.exchange = exchange then row.changeAmount.getD 0 else 0

def rowsChange (rows : List BalanceRow) (exchange : String) : ℚ :=
  (rows.map (rowChange exchange)).sum

def eventRows (e : Event Service) : List BalanceRow :=
  match e.call with
  | .copyBalance rows => if carriedOut e then rows else []
  | _ => []

def written (es : List (Event Service)) (exchange : String) : ℚ :=
  (es.map fun e => rowsChange (eventRows e) exchange).sum

def initialRow (time : ℚ) (exchange : String) (amount : ℚ) : BalanceRow where
  time := time
  exchange := exchange
  asset := "USDT"
  amount := amount
  tradeId := none
  changeAmount := some amount
  reason := "initial"

namespace World

def balanceOf (w : World) (exchange : String) : ℚ :=
  (w.hashes (balanceKey exchange) "USDT").getD 0

/-- The sum of `change_amount` over the rows of `exchange`. -/
def ledger (w : World) (exchange : String) : ℚ := rowsChange w.balance exchange

def LedgerAgrees (w : World) : Prop := ∀ exchange, w.balanceOf exchange = w.ledger exchange

/-- Every exchange has its `initial` row and nothing else has happened. -/
structure Seeded (w : World) : Prop where
  rows : ∃ time : ℚ, w.balance = balanceExchanges.map fun ex => initialRow time ex (w.balanceOf ex)
  absent : ∀ ex ∉ balanceExchanges, w.balanceOf ex = 0

end World

section Sums
variable (exchange : String)

@[simp] theorem moved_nil : moved [] exchange = 0 := rfl

@[simp] theorem moved_cons (e : Event Service) (es : List (Event Service)) :
    moved (e :: es) exchange = eventChange exchange e + moved es exchange := by
  simp [moved]

@[simp] theorem moved_append (es fs : List (Event Service)) :
    moved (es ++ fs) exchange = moved es exchange + moved fs exchange := by
  simp [moved]

@[simp] theorem written_nil : written [] exchange = 0 := rfl

@[simp] theorem written_cons (e : Event Service) (es : List (Event Service)) :
    written (e :: es) exchange = rowsChange (eventRows e) exchange + written es exchange := by
  simp [written]

@[simp] theorem written_append (es fs : List (Event Service)) :
    written (es ++ fs) exchange = written es exchange + written fs exchange := by
  simp [written]

@[simp] theorem rowsChange_nil : rowsChange [] exchange = 0 := rfl

@[simp] theorem rowsChange_cons (row : BalanceRow) (rows : List BalanceRow) :
    rowsChange (row :: rows) exchange = rowChange exchange row + rowsChange rows exchange := by
  simp [rowsChange]

@[simp] theorem rowsChange_append (rows rows' : List BalanceRow) :
    rowsChange (rows ++ rows') exchange =
      rowsChange rows exchange + rowsChange rows' exchange := by
  simp [rowsChange]

theorem rowsChange_seed (names : List String) (hnd : names.Nodup) (f : String → BalanceRow)
    (hf : ∀ ex, (f ex).exchange = ex) :
    rowsChange (names.map f) exchange =
      if exchange ∈ names then (f exchange).changeAmount.getD 0 else 0 := by
  induction names with
  | nil => simp
  | cons ex rest ih =>
    obtain ⟨hex, hnd⟩ := List.nodup_cons.mp hnd
    rw [List.map_cons, rowsChange_cons, ih hnd, rowChange, hf]
    by_cases h : ex = exchange
    · subst h
      simp [hex]
    · simp [h, Ne.symm h]

end Sums

theorem World.Seeded.agrees {w : World} (h : w.Seeded) : w.LedgerAgrees := by
  intro exchange
  obtain ⟨time, hrows⟩ := h.rows
  rw [World.ledger, hrows, rowsChange_seed exchange _ balanceExchanges_nodup _ fun _ => rfl]
  split
  · rfl
  · rename_i hno
    exact h.absent exchange hno

def Call.overwrites : Call → Bool
  | .hset _ _ _ => true
  | _ => false

theorem serve_balanceOf (exchange : String) (c : Call) (w : World)
    (hc : c.overwrites = false) :
    (World.serve c w).2.balanceOf exchange =
      w.balanceOf exchange + eventChange exchange ⟨c, (World.serve c w).1⟩ := by
  rw [serve_snd]
  cases hd : carriedOut ⟨c, (World.serve c w).1⟩ with
  | false =>
    have : eventChange exchange ⟨c, (World.serve c w).1⟩ = 0 := by
      cases c <;> simp [eventChange, hd]
    rw [this, add_zero]
    rfl
  | true =>
    cases c with
    | hset key field value => cases hc
    | hincrbyfloat key field delta =>
      simp only [if_true, World.effect, World.next, World.setHash, World.balanceOf, eventChange,
        hd, World.arrive, true_and]
      by_cases hk : key = balanceKey exchange
      · subst hk
        by_cases hf : field = "USDT"
        · subst hf
          simp
        · simp [hf, Function.update_of_ne (Ne.symm hf)]
      · simp [hk, Function.update_of_ne (Ne.symm hk)]
    | _ => exact (add_zero _).symm

theorem serve_ledger (exchange : String) (c : Call) (w : World) :
    (World.serve c w).2.ledger exchange =
      w.ledger exchange + rowsChange (eventRows ⟨c, (World.serve c w).1⟩) exchange := by
  rw [serve_snd]
  cases hd : carriedOut ⟨c, (World.serve c w).1⟩ with
  | false =>
    have : eventRows ⟨c, (World.serve c w).1⟩ = [] := by
      cases c <;> simp [eventRows, hd]
    rw [this, rowsChange_nil, add_zero]
    rfl
  | true =>
    cases c with
    | copyBalance rows =>
      simp only [eventRows, hd, if_true]
      exact rowsChange_append exchange _ _
    | _ => exact (add_zero _).symm

section Follows
variable {w w' : World} {es : List (Event Service)}

theorem follows_balanceOf (h : Follows World.serve w es w')
    (hes : ∀ e ∈ es, e.call.overwrites = false) (exchange : String) :
    w'.balanceOf exchange = w.balanceOf exchange + moved es exchange :=
  follows_sum World.serve (fun v => v.balanceOf exchange) (eventChange exchange)
    (fun c v hc => serve_balanceOf exchange c v hc) h hes

theorem follows_ledger (h : Follows World.serve w es w') (exchange : String) :
    w'.ledger exchange = w.ledger exchange + written es exchange :=
  follows_sum World.serve (fun v => v.ledger exchange)
    (fun e => rowsChange (eventRows e) exchange)
    (fun c v (_ : True) => serve_ledger exchange c v) h (fun _ _ => trivial)

end Follows

def sampleBook : String :=
  "\x7b\"ts\": 0, \"bids\": [[101, 1000]], \"asks\": [[100, 1000]]\x7d"

def sampleBookValue : Json :=
  .dict [("ts", .num 0), ("bids", .levels [(101, 1000)]), ("asks", .levels [(100, 1000)])]

@[reducible] def sampleText : PyText :=
  .ofTables [("0.0", 0), ("0.1", 1 / 10), ("0.3", 3 / 10), ("0.6", 6 / 10), ("0.8", 8 / 10),
    ("1.0", 1), ("100.0", 100), ("101.0", 101)] [(sampleBook, sampleBookValue)]

/-- The same book under every key, at the instant zero, and no failures. -/
def sampleOutside (_ : ℕ) : Outside := { (default : Outside) with depth := fun _ => some sampleBook }

def threeLevelBook : String :=
  "\x7b\"ts\": 0, \"bids\": [[101, 5], [98.98, 5], [98, 1000]], " ++
    "\"asks\": [[100, 5], [102, 5], [103, 1000]]\x7d"

def threeLevelBids : List (ℚ × ℚ) := [(101, 5), (9898 / 100, 5), (98, 1000)]

def threeLevelAsks : List (ℚ × ℚ) := [(100, 5), (102, 5), (103, 1000)]

@[reducible] def threeLevelText : PyText :=
  .ofTables [] [(threeLevelBook,
    .dict [("ts", .num 0), ("bids", .levels threeLevelBids), ("asks", .levels threeLevelAsks)])]

def threeLevelOutside (_ : ℕ) : Outside :=
  { (default : Outside) with depth := fun _ => some threeLevelBook }

def sampleOpportunity (buyExchange sellExchange : String) (buyFee sellFee : ℚ) :
    Opportunity where
  id := "opp_0_" ++ buyExchange ++ "_" ++ sellExchange ++ "_btcusdt"
  symbol := "BTC/USDT"
  buyExchange := buyExchange
  sellExchange := sellExchange
  buyPrice := 100
  sellPrice := 101
  grossSpreadPct := 1
  buyFeePct := buyFee
  sellFeePct := sellFee
  withdrawalFeeUsd := 0
  netSpreadPct := 1 - buyFee - sellFee
  detectedAt := 0
  ttlSeconds := 5

/-- The given balances, each with its `initial` row, and the given opportunities waiting. -/
def sampleWorld (outside : ℕ → Outside) (balances : List (String × ℚ))
    (opps : List Opportunity) : World :=
  { World.start outside with
    hashes := fun key field =>
      if field = "USDT" then (balances.find? fun b => balanceKey b.1 = key).map Prod.snd else none
    balance := balances.map fun b => initialRow 0 b.1 b.2
    streams := fun s =>
      if s = "opportunities" then ⟨opps.map (@Opportunity.toRedis sampleText), fun _ => ⟨0, []⟩⟩
      else ⟨[], fun _ => ⟨0, []⟩⟩ }

theorem sampleWorld_balanceOf (outside : ℕ → Outside) (balances : List (String × ℚ))
    (opps : List Opportunity) (exchange : String) :
    (sampleWorld outside balances opps).balanceOf exchange =
      (balances.lookup exchange).getD 0 := by
  rw [World.balanceOf]
  change ((balances.find? fun b => balanceKey b.1 = balanceKey exchange).map Prod.snd).getD 0 = _
  congr 1
  induction balances with
  | nil => rfl
  | cons b rest ih =>
    obtain ⟨name, amount⟩ := b
    by_cases h : name = exchange
    · subst h
      simp
    · have hne : (exchange == name) = false := by simp [Ne.symm h]
      rw [List.find?_cons_of_neg (by simp [h]), ih, List.lookup_cons, hne]

theorem lookup_map_self (names : List String) (amount : String → ℚ) (exchange : String) :
    (names.map fun ex => (ex, amount ex)).lookup exchange =
      if exchange ∈ names then some (amount exchange) else none := by
  induction names with
  | nil => simp
  | cons ex rest ih =>
    by_cases h : exchange = ex
    · subst h
      simp
    · have hne : (exchange == ex) = false := by simp [h]
      rw [List.map_cons, List.lookup_cons, hne, ih]
      simp [h]

theorem sampleWorld_seeded (outside : ℕ → Outside) (amount : String → ℚ)
    (opps : List Opportunity) :
    (sampleWorld outside (balanceExchanges.map fun ex => (ex, amount ex)) opps).Seeded := by
  have hbal := sampleWorld_balanceOf outside (balanceExchanges.map fun ex => (ex, amount ex)) opps
  refine ⟨⟨0, ?_⟩, fun ex hex => ?_⟩
  · have hrows : (sampleWorld outside (balanceExchanges.map fun ex => (ex, amount ex))
        opps).balance = (balanceExchanges.map fun ex => (ex, amount ex)).map fun b =>
          initialRow 0 b.1 b.2 := rfl
    rw [hrows, List.map_map]
    refine List.map_congr_left fun ex hex => ?_
    rw [hbal, lookup_map_self, if_pos hex]
    rfl
  · rw [hbal, lookup_map_self, if_neg hex]
    rfl

end CriptoParser
