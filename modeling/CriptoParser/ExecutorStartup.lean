import CriptoParser.BalanceLedger

/-!
The start of the executor: the balances that are missing in Redis are set, and an empty
`balance` table gets the rows of the initial balances. Each step looks at its own store only.
-/

set_option autoImplicit false

namespace CriptoParser

open Await

inductive StartCall where
  | utcNow
  | hsetnx (key field : String) (value : ℚ)
  | countBalance
  | copyBalance (rows : List BalanceRow)

namespace StartCall

abbrev Reply : StartCall → Type
  | .utcNow => ℚ
  | .hsetnx _ _ _ => Bool
  | .countBalance => ℕ
  | .copyBalance _ => Unit

def isLocal : StartCall → Bool
  | .utcNow => true
  | _ => false

end StartCall

abbrev Startup : Signature := ⟨StartCall, StartCall.Reply, PyExc⟩

namespace World

def startAnswer (w : World) : (c : StartCall) → c.Reply
  | .utcNow => w.now.time
  | .hsetnx key field _ => (w.hashes key field).isNone
  | .countBalance => w.balance.length
  | .copyBalance _ => ()

def startEffect (w : World) : StartCall → World
  | .utcNow | .countBalance => w
  | .hsetnx key field value =>
    if (w.hashes key field).isNone then w.setHash key field value else w
  | .copyBalance rows => { w with balance := w.balance ++ rows }

def startServe : Server Startup World := fun c w =>
  match if c.isLocal then none else w.now.fault with
  | none => (.ok (w.startAnswer c), (w.startEffect c).next)
  | some x => (.error x, if x.served then (w.startEffect c).next else w.next)

end World

def initBalances : List (String × ℚ) → Prog Startup Unit
  | [] => pure ()
  | (exchange, amount) :: rest => do
    let _ ← Prog.call (S := Startup) (.hsetnx (balanceKey exchange) "USDT" amount)
    initBalances rest

/-- `_seed_initial_balance_history`. -/
def seedInitialBalanceHistory : Prog Startup Unit := do
  let count ← Prog.call (S := Startup) .countBalance
  if 0 < count then return ()
  else do
    let now ← Prog.call (S := Startup) .utcNow
    Prog.call (S := Startup)
      (.copyBalance (initialBalancesUsdt.map fun b => initialRow now b.1 b.2))

def startUp : Prog Startup Unit := do
  initBalances initialBalancesUsdt
  seedInitialBalanceHistory

def started (w : World) : World := (startUp.run World.startServe w).2

theorem startServe_ok {c : StartCall} {v : c.Reply} {es : List (Event Startup)} {w w' : World}
    (h : Follows World.startServe w (⟨c, .ok v⟩ :: es) w') :
    v = w.startAnswer c ∧ Follows World.startServe (w.startEffect c).next es w' := by
  obtain ⟨hr, h⟩ := h
  cases hf : if c.isLocal then none else w.now.fault with
  | none =>
    simp only [World.startServe, hf] at hr h
    exact ⟨Except.ok.inj hr, h⟩
  | some x =>
    simp only [World.startServe, hf] at hr
    cases hr

theorem hsetnx_hashes (w : World) (key field : String) (value : ℚ) (k f : String) :
    (w.startEffect (.hsetnx key field value)).hashes k f =
      if k = key ∧ f = field then some ((w.hashes k f).getD value) else w.hashes k f := by
  change (if (w.hashes key field).isNone then w.setHash key field value else w).hashes k f = _
  cases hold : w.hashes key field with
  | some old =>
    rw [Option.isNone_some, if_neg Bool.false_ne_true]
    by_cases hkf : k = key ∧ f = field
    · obtain ⟨rfl, rfl⟩ := hkf
      simp [hold]
    · rw [if_neg hkf]
  | none =>
    rw [Option.isNone_none, if_pos rfl, World.setHash]
    by_cases hk : k = key
    · subst hk
      by_cases hf : f = field
      · subst hf
        simp [hold]
      · simp [hf]
    · simp [hk]

theorem initBalances_sets {names : List (String × ℚ)} {es : List (Event Startup)}
    {w w' : World} (h : (initBalances names).Ends es (.ok ()))
    (hf : Follows World.startServe w es w') :
    w'.balance = w.balance ∧ ∀ ex, w'.hashes (balanceKey ex) "USDT" =
      (w.hashes (balanceKey ex) "USDT").or (names.lookup ex) := by
  induction names generalizing es w with
  | nil =>
    obtain ⟨rfl, -⟩ := (Prog.ends_pure _ _ _).mp h
    cases hf
    simp
  | cons b rest ih =>
    obtain ⟨name, amount⟩ := b
    rcases (Prog.ends_call_bind _ _ _ _).mp h with ⟨v, es', rfl, h'⟩ | ⟨x, -, hx⟩
    · obtain ⟨-, hf'⟩ := startServe_ok hf
      obtain ⟨hbalance, hhash⟩ := ih h' hf'
      refine ⟨?_, fun ex => ?_⟩
      · rw [hbalance]
        unfold World.startEffect
        simp only [World.next]
        split <;> rfl
      · rw [hhash ex, World.next, hsetnx_hashes, List.lookup_cons]
        by_cases hex : ex = name
        · subst hex
          cases w.hashes (balanceKey ex) "USDT" <;> simp
        · have hne : (ex == name) = false := by simpa using hex
          simp [hex, hne]
    · cases hx

theorem seed_balance {es : List (Event Startup)} {w w' : World}
    (h : seedInitialBalanceHistory.Ends es (.ok ())) (hf : Follows World.startServe w es w') :
    w'.hashes = w.hashes ∧ ∃ now, w'.balance =
      if w.balance = [] then initialBalancesUsdt.map fun b => initialRow now b.1 b.2
      else w.balance := by
  unfold seedInitialBalanceHistory at h
  rcases (Prog.ends_call_bind _ _ _ _).mp h with ⟨count, es₁, rfl, h₁⟩ | ⟨x, -, hx⟩
  · obtain ⟨rfl, hf₁⟩ := startServe_ok hf
    by_cases hcount : 0 < w.balance.length
    · have hne : w.balance ≠ [] := List.length_pos_iff.mp hcount
      rw [World.startAnswer, if_pos hcount] at h₁
      obtain ⟨rfl, -⟩ := (Prog.ends_pure _ _ _).mp h₁
      cases hf₁
      exact ⟨rfl, 0, (if_neg hne).symm⟩
    · have hnil : w.balance = [] := by simpa using hcount
      rw [World.startAnswer, if_neg hcount] at h₁
      rcases (Prog.ends_call_bind _ _ _ _).mp h₁ with ⟨now, es₂, rfl, h₂⟩ | ⟨x, -, hx⟩
      · obtain ⟨-, hf₂⟩ := startServe_ok hf₁
        obtain ⟨a, es₃, rfl, rfl, ha⟩ := h₂
        subst ha
        obtain ⟨-, hf₃⟩ := startServe_ok hf₂
        cases hf₃
        refine ⟨rfl, now, ?_⟩
        rw [if_pos hnil]
        change w.balance ++ _ = _
        rw [hnil, List.nil_append]
      · cases hx
  · cases hx

theorem lookup_initial {b : String × ℚ} (hb : b ∈ initialBalancesUsdt) :
    initialBalancesUsdt.lookup b.1 = some b.2 := by
  have hall : ∀ b ∈ initialBalancesUsdt, initialBalancesUsdt.lookup b.1 = some b.2 := by
    decide +kernel
  exact hall b hb

theorem ledger_seed (now : ℚ) {b : String × ℚ} (hb : b ∈ initialBalancesUsdt) :
    rowsChange (initialBalancesUsdt.map fun b => initialRow now b.1 b.2) b.1 = b.2 := by
  have hrows : (initialBalancesUsdt.map fun b => initialRow now b.1 b.2) =
      balanceExchanges.map fun ex => initialRow now ex ((initialBalancesUsdt.lookup ex).getD 0) := by
    rw [balanceExchanges, List.map_map]
    refine List.map_congr_left fun b hb => ?_
    simp [lookup_initial hb]
  have hmem : b.1 ∈ balanceExchanges := List.mem_map_of_mem hb
  rw [hrows, rowsChange_seed b.1 _ balanceExchanges_nodup _ fun _ => rfl, if_pos hmem]
  simp [initialRow, lookup_initial hb]

/-- Every exchange has in Redis what its rows sum up to. -/
def World.Agrees (w : World) : Prop := ∀ b ∈ initialBalancesUsdt, w.balanceOf b.1 = w.ledger b.1

/-- The stores a start-up brings into agreement. With an empty table it counts from the
initial balances, so a balance that Redis has must be the initial one. Otherwise a balance
Redis has must be the sum of its rows already, and the rows of one it lacks must sum up to
the initial one. -/
def World.Restorable (w : World) : Prop :=
  if w.balance = [] then
    ∀ b ∈ initialBalancesUsdt, (w.hashes (balanceKey b.1) "USDT").getD b.2 = b.2
  else ∀ b ∈ initialBalancesUsdt, (w.hashes (balanceKey b.1) "USDT").getD b.2 = w.ledger b.1

theorem startUp_stores {es : List (Event Startup)} {w w' : World} (h : startUp.Ends es (.ok ()))
    (hf : Follows World.startServe w es w') :
    (∀ b ∈ initialBalancesUsdt,
      w'.balanceOf b.1 = (w.hashes (balanceKey b.1) "USDT").getD b.2) ∧
    ∀ b ∈ initialBalancesUsdt, w'.ledger b.1 = if w.balance = [] then b.2 else w.ledger b.1 := by
  rw [startUp, Prog.bind_eq, Prog.ends_bind] at h
  rcases h with ⟨u, es₁, es₂, rfl, h₁, h₂⟩ | ⟨x, -, hx⟩
  · obtain ⟨m, hf₁, hf₂⟩ := (follows_append _ _ _ _ _).mp hf
    obtain ⟨hbalance, hhash⟩ := initBalances_sets h₁ hf₁
    obtain ⟨hhash', now, hbalance'⟩ := seed_balance h₂ hf₂
    rw [hbalance] at hbalance'
    constructor
    · intro b hb
      rw [World.balanceOf, hhash', hhash, lookup_initial hb]
      cases w.hashes (balanceKey b.1) "USDT" <;> rfl
    · intro b hb
      rw [World.ledger, hbalance']
      split
      · exact ledger_seed now hb
      · rfl
  · cases hx

/-- After a start-up the stores agree exactly if they were restorable. -/
theorem started_agrees_iff (w : World) (hok : (startUp.run World.startServe w).1 = .ok ()) :
    (started w).Agrees ↔ w.Restorable := by
  have hends := startUp.ends_trace World.startServe w
  rw [hok] at hends
  obtain ⟨hredis, hledger⟩ := startUp_stores hends (startUp.follows_trace World.startServe w)
  unfold World.Agrees World.Restorable
  by_cases hnil : w.balance = []
  · simp only [if_pos hnil] at hledger ⊢
    refine forall₂_congr fun b hb => ?_
    rw [started, hredis b hb, hledger b hb]
  · simp only [if_neg hnil] at hledger ⊢
    refine forall₂_congr fun b hb => ?_
    rw [started, hredis b hb, hledger b hb]

/-- Before the start the stores agreed, or one of them was empty. -/
def World.AgreedOrLost (w : World) : Prop :=
  w.Agrees ∨ (∀ b ∈ initialBalancesUsdt, w.hashes (balanceKey b.1) "USDT" = none) ∨ w.balance = []

/-- Nothing has been traded and Redis has lost its keys. -/
def restartedWorld : World :=
  { World.start default with balance := initialBalancesUsdt.map fun b => initialRow 0 b.1 b.2 }

theorem started_agrees_iff_restarted :
    (startUp.run World.startServe restartedWorld).1 = .ok () ∧
      (started restartedWorld).Agrees := by
  have hok : (startUp.run World.startServe restartedWorld).1 = .ok () := by decide +kernel
  refine ⟨hok, (started_agrees_iff restartedWorld hok).mpr ?_⟩
  unfold World.Restorable
  decide +kernel

/-- Binance has bought for 1001 before Redis has lost its keys. -/
def lostWorld : World :=
  { restartedWorld with
    balance := restartedWorld.balance ++ [{ initialRow 1 "binance" 8999 with
      changeAmount := some (-1001), reason := "trade", tradeId := some "trade_1" }] }

/-- Redis counts from 10000 again, the history from 8999. -/
theorem started_disagrees :
    lostWorld.AgreedOrLost ∧ (startUp.run World.startServe lostWorld).1 = .ok () ∧
      (started lostWorld).balanceOf "binance" = 10000 ∧
      (started lostWorld).ledger "binance" = 8999 ∧ ¬(started lostWorld).Agrees := by
  have hlost : ∀ b ∈ initialBalancesUsdt, lostWorld.hashes (balanceKey b.1) "USDT" = none :=
    fun _ _ => rfl
  refine ⟨.inr (.inl hlost), by decide +kernel, by decide +kernel, by decide +kernel, ?_⟩
  unfold World.Agrees
  decide +kernel

end CriptoParser
