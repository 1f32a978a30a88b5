import CriptoParser.ServiceWorld
import CriptoParser.SharedConfig
import Mathlib.Data.List.MinMax

set_option autoImplicit false

namespace CriptoParser

open Await

def killSwitchKey : String := "executor:kill_switch"

def balanceKey (exchange : String) : String := "balance:" ++ exchange

theorem balanceKey_injective {a b : String} (h : balanceKey a = balanceKey b) : a = b := by
  simpa [balanceKey] using h

@[simp] theorem balanceKey_inj {a b : String} : balanceKey a = balanceKey b ↔ a = b :=
  ⟨balanceKey_injective, fun h => h ▸ rfl⟩

def getBalance (exchange : String) : Task ℚ := do
  let value ← Prog.call (S := Service) (.hget (balanceKey exchange) "USDT")
  return value.getD 0

def updateBalance (exchange : String) (delta : ℚ) : Task ℚ :=
  Prog.call (S := Service) (.hincrbyfloat (balanceKey exchange) "USDT" delta)

def readBalances : List String → Task (List (String × ℚ))
  | [] => pure []
  | ex :: rest => do
    let amount ← getBalance ex
    let amounts ← readBalances rest
    return (ex, amount) :: amounts

def allBalances : Task (List (String × ℚ)) := readBalances balanceExchanges

def maybeRebalance (exchange : String) (balance threshold : ℚ) :
    Task (Option RebalanceResult) :=
  if threshold < balance then pure none
  else do
    let balances ← allBalances
    -- max(balances, key=balances.get): the first of the richest
    match balances.argmax Prod.snd with
    | none => Prog.lift (.error .valueError)
    | some (donor, donorBalance) =>
      if donor = exchange ∨ donorBalance ≤ threshold then do
        Prog.call (S := Service) (.set killSwitchKey "1")
        return none
      else
        match exchangeConfig donor with
        | none => Prog.lift (.error .keyError)
        | some cfg => do
          let grossAmount := donorBalance / 2
          let fee := cfg.withdrawalUsdt
          let netAmount := grossAmount - fee
          let donorNew ← updateBalance donor (-grossAmount)
          let receiverNew ← updateBalance exchange netAmount
          Prog.call (S := Service) (.note (.rebalanceExecuted donor exchange
            (pyRound grossAmount 2) fee (pyRound netAmount 2)))
          return some {
            donor := donor
            receiver := exchange
            grossAmount := grossAmount
            fee := fee
            netAmount := netAmount
            donorNewBalance := donorNew
            receiverNewBalance := receiverNew }

def Call.ofEngine : Call → Bool
  | .time | .uuid4 | .killSwitch | .hget _ _ | .set _ _ | .hincrbyfloat _ _ _ | .mget _
  | .note (.rebalanceExecuted _ _ _ _ _) => true
  | _ => false

theorem getBalance_uses {allowed : Call → Prop} (exchange : String)
    (h : allowed (.hget (balanceKey exchange) "USDT")) : (getBalance exchange).Uses allowed :=
  Prog.uses_bind ((Prog.uses_call (S := Service) _).mpr h) fun _ => Prog.uses_pure _

theorem readBalances_uses {allowed : Call → Prop} (names : List String)
    (h : ∀ exchange, allowed (.hget (balanceKey exchange) "USDT")) :
    (readBalances names).Uses allowed := by
  induction names with
  | nil => exact Prog.uses_pure _
  | cons ex rest ih =>
    exact Prog.uses_bind (getBalance_uses ex (h ex)) fun _ =>
      Prog.uses_bind ih fun _ => Prog.uses_pure _

theorem updateBalance_uses (exchange : String) (delta : ℚ) :
    (updateBalance exchange delta).Uses (fun c => Call.ofEngine c = true) :=
  (Prog.uses_call (S := Service) _).mpr rfl

theorem maybeRebalance_uses (exchange : String) (balance threshold : ℚ) :
    (maybeRebalance exchange balance threshold).Uses (fun c => Call.ofEngine c = true) := by
  unfold maybeRebalance
  split
  · exact Prog.uses_pure _
  refine Prog.uses_bind (readBalances_uses _ fun _ => rfl) fun balances => ?_
  split
  · exact Prog.uses_lift _
  · split
    · exact Prog.uses_bind ((Prog.uses_call (S := Service) _).mpr rfl) fun _ => Prog.uses_pure _
    · split
      · exact Prog.uses_lift _
      · exact Prog.uses_bind (updateBalance_uses _ _) fun _ =>
          Prog.uses_bind (updateBalance_uses _ _) fun _ =>
          Prog.uses_bind ((Prog.uses_call (S := Service) _).mpr rfl) fun _ => Prog.uses_pure _

/-! Nothing inside the engine catches what an await raises. -/

theorem getBalance_straight (exchange : String) : (getBalance exchange).Straight :=
  Prog.straight_bind (Prog.straight_call _) fun _ => Prog.straight_pure _

theorem readBalances_straight (names : List String) : (readBalances names).Straight := by
  induction names with
  | nil => exact Prog.straight_pure _
  | cons ex rest ih =>
    exact Prog.straight_bind (getBalance_straight ex) fun _ =>
      Prog.straight_bind ih fun _ => Prog.straight_pure _

theorem maybeRebalance_straight (exchange : String) (balance threshold : ℚ) :
    (maybeRebalance exchange balance threshold).Straight := by
  unfold maybeRebalance
  split
  · exact Prog.straight_pure _
  refine Prog.straight_bind (readBalances_straight _) fun balances => ?_
  split
  · exact Prog.straight_lift _
  · split
    · exact Prog.straight_bind (Prog.straight_call _) fun _ => Prog.straight_pure _
    · split
      · exact Prog.straight_lift _
      · exact Prog.straight_bind (Prog.straight_call _) fun _ =>
          Prog.straight_bind (Prog.straight_call _) fun _ =>
          Prog.straight_bind (Prog.straight_call _) fun _ => Prog.straight_pure _

def readEvent (exchange : String) (v : Option ℚ) : Event Service :=
  ⟨.hget (balanceKey exchange) "USDT", .ok v⟩

def moveEvent (exchange : String) (delta v : ℚ) : Event Service :=
  ⟨.hincrbyfloat (balanceKey exchange) "USDT" delta, .ok v⟩

theorem getBalance_goes (exchange : String) (es : List (Event Service))
    (r : Except PyExc ℚ) :
    (getBalance exchange).Goes es r ↔
      ∃ v : Option ℚ, es = [readEvent exchange v] ∧ r = .ok (v.getD 0) := by
  simp only [getBalance, Prog.goes_call_bind, Prog.goes_pure, readEvent]
  constructor
  · rintro ⟨v, es', rfl, rfl, rfl⟩
    exact ⟨v, rfl, rfl⟩
  · rintro ⟨v, rfl, rfl⟩
    exact ⟨v, [], rfl, rfl, rfl⟩

def readEvents (names : List String) (v : String → Option ℚ) : List (Event Service) :=
  names.map fun ex => readEvent ex (v ex)

theorem readBalances_goes {names : List String} (hnd : names.Nodup)
    {es : List (Event Service)} {r : Except PyExc (List (String × ℚ))}
    (h : (readBalances names).Goes es r) :
    ∃ v : String → Option ℚ, es = readEvents names v ∧
      r = .ok (names.map fun ex => (ex, (v ex).getD 0)) := by
  induction names generalizing es r with
  | nil =>
    obtain ⟨rfl, rfl⟩ := (Prog.goes_pure _ _ _).mp h
    exact ⟨fun _ => none, rfl, rfl⟩
  | cons ex rest ih =>
    obtain ⟨hex, hnd⟩ := List.nodup_cons.mp hnd
    rw [readBalances, Prog.goes_bind] at h
    rcases h with ⟨a, es₁, es₂, rfl, h₁, h₂⟩ | ⟨x, h₁, -⟩
    · obtain ⟨b, rfl, hb⟩ := (getBalance_goes _ _ _).mp h₁
      cases hb
      rw [Prog.goes_bind] at h₂
      rcases h₂ with ⟨as, es₃, es₄, rfl, h₃, h₄⟩ | ⟨x, h₃, -⟩
      · obtain ⟨v, rfl, hv⟩ := ih hnd h₃
        cases hv
        obtain ⟨rfl, rfl⟩ := (Prog.goes_pure _ _ _).mp h₄
        have hsame : ∀ y ∈ rest, Function.update v ex b y = v y := fun y hy =>
          Function.update_of_ne (fun hyx : y = ex => hex (hyx ▸ hy)) _ _
        refine ⟨Function.update v ex b, ?_, ?_⟩
        · simp only [readEvents, List.map_cons, Function.update_self, List.append_nil,
            List.singleton_append, List.cons.injEq, true_and]
          exact List.map_congr_left fun y hy => by rw [hsame y hy]
        · simp only [List.map_cons, Function.update_self]
          rw [List.map_congr_left (g := fun y => (y, (Function.update v ex b y).getD 0))]
          intro y hy
          rw [hsame y hy]
      · obtain ⟨v, -, hv⟩ := ih hnd h₃
        cases hv
    · obtain ⟨b, -, hb⟩ := (getBalance_goes _ _ _).mp h₁
      cases hb

/-- `max(balances, key=balances.get)` over the snapshot `v`. -/
def richest (v : String → Option ℚ) : Option String :=
  ((balanceExchanges.map fun ex => (ex, (v ex).getD 0)).argmax Prod.snd).map Prod.fst

theorem richest_congr {v v' : String → Option ℚ} (h : ∀ ex ∈ balanceExchanges, v ex = v' ex) :
    richest v = richest v' := by
  rw [richest, richest, List.map_congr_left fun ex hex => by rw [h ex hex]]

theorem argmax_richest {v : String → Option ℚ} {donor : String} {amount : ℚ}
    (h : (balanceExchanges.map fun ex => (ex, (v ex).getD 0)).argmax Prod.snd =
      some (donor, amount)) : richest v = some donor ∧ amount = (v donor).getD 0 := by
  refine ⟨by rw [richest, h]; rfl, ?_⟩
  obtain ⟨ex, -, heq⟩ := List.mem_map.mp (List.argmax_mem h)
  cases heq
  rfl

theorem richest_mem {v : String → Option ℚ} {donor : String} (h : richest v = some donor) :
    donor ∈ balanceExchanges := by
  obtain ⟨top, htop, rfl⟩ := Option.map_eq_some_iff.mp h
  obtain ⟨ex, hex, rfl⟩ := List.mem_map.mp (List.argmax_mem htop)
  exact hex

theorem richest_le {v : String → Option ℚ} {donor : String} (h : richest v = some donor) :
    ∀ ex ∈ balanceExchanges, (v ex).getD 0 ≤ (v donor).getD 0 := by
  obtain ⟨top, htop, rfl⟩ := Option.map_eq_some_iff.mp h
  intro ex hex
  obtain ⟨name, -, rfl⟩ := List.mem_map.mp (List.argmax_mem htop)
  exact List.le_of_mem_argmax (List.mem_map_of_mem hex) htop

/-- What a transfer from `donor` returns when the two balances become the given ones. -/
def transferResult (exchange donor : String) (donorBalance fee donorNew receiverNew : ℚ) :
    RebalanceResult where
  donor := donor
  receiver := exchange
  grossAmount := donorBalance / 2
  fee := fee
  netAmount := donorBalance / 2 - fee
  donorNewBalance := donorNew
  receiverNewBalance := receiverNew

def transferEvents (exchange donor : String) (donorBalance fee donorNew receiverNew : ℚ) :
    List (Event Service) := [
  moveEvent donor (-(donorBalance / 2)) donorNew,
  moveEvent exchange (donorBalance / 2 - fee) receiverNew,
  ⟨.note (.rebalanceExecuted donor exchange (pyRound (donorBalance / 2) 2) fee
    (pyRound (donorBalance / 2 - fee) 2)), .ok ()⟩]

inductive RebalanceRun (exchange : String) (balance threshold : ℚ) :
    List (Event Service) → Option RebalanceResult → Prop
  | enough (h : threshold < balance) : RebalanceRun exchange balance threshold [] none
  | exhausted (v : String → Option ℚ) (donor : String) (h : balance ≤ threshold)
      (hd : richest v = some donor) (hno : donor = exchange ∨ (v donor).getD 0 ≤ threshold) :
      RebalanceRun exchange balance threshold
        (readEvents balanceExchanges v ++ [⟨.set killSwitchKey "1", .ok ()⟩]) none
  | transferred (v : String → Option ℚ) (donor : String) (cfg : ExchangeConfig)
      (donorNew receiverNew : ℚ) (h : balance ≤ threshold) (hd : richest v = some donor)
      (hne : donor ≠ exchange) (hgt : threshold < (v donor).getD 0)
      (hcfg : exchangeConfig donor = some cfg) :
      RebalanceRun exchange balance threshold
        (readEvents balanceExchanges v ++
          transferEvents exchange donor ((v donor).getD 0) cfg.withdrawalUsdt
            donorNew receiverNew)
        (some (transferResult exchange donor ((v donor).getD 0) cfg.withdrawalUsdt
          donorNew receiverNew))

theorem maybeRebalance_goes {exchange : String} {balance threshold : ℚ}
    {es : List (Event Service)} {r : Except PyExc (Option RebalanceResult)}
    (h : (maybeRebalance exchange balance threshold).Goes es r) :
    ∃ rb, r = .ok rb ∧ RebalanceRun exchange balance threshold es rb := by
  unfold maybeRebalance at h
  by_cases hb : threshold < balance
  · rw [if_pos hb] at h
    obtain ⟨rfl, rfl⟩ := (Prog.goes_pure _ _ _).mp h
    exact ⟨none, rfl, .enough hb⟩
  rw [if_neg hb, Prog.goes_bind] at h
  rcases h with ⟨balances, es₁, es₂, rfl, h₁, h₂⟩ | ⟨x, h₁, -⟩
  · obtain ⟨v, rfl, hv⟩ := readBalances_goes balanceExchanges_nodup h₁
    cases hv
    cases harg : (balanceExchanges.map fun ex => (ex, (v ex).getD 0)).argmax Prod.snd with
    | none => simp [balanceExchanges, initialBalancesUsdt] at harg
    | some top =>
      obtain ⟨donor, amount⟩ := top
      obtain ⟨hd, rfl⟩ := argmax_richest harg
      simp only [harg] at h₂
      by_cases hno : donor = exchange ∨ (v donor).getD 0 ≤ threshold
      · rw [if_pos hno, Prog.goes_call_bind] at h₂
        obtain ⟨-, es', rfl, h₃⟩ := h₂
        obtain ⟨rfl, rfl⟩ := (Prog.goes_pure _ _ _).mp h₃
        exact ⟨none, rfl, .exhausted v donor (not_lt.mp hb) hd hno⟩
      · rw [if_neg hno] at h₂
        obtain ⟨hne, hgt⟩ := not_or.mp hno
        cases hcfg : exchangeConfig donor with
        | none =>
          have := balanceExchanges_configured donor (richest_mem hd)
          simp [hcfg] at this
        | some cfg =>
          simp only [hcfg, updateBalance, Prog.goes_call_bind] at h₂
          obtain ⟨dn, es', rfl, rn, es'', rfl, -, es₃, rfl, h₃⟩ := h₂
          obtain ⟨rfl, rfl⟩ := (Prog.goes_pure _ _ _).mp h₃
          exact ⟨_, rfl, .transferred v donor cfg dn rn (not_lt.mp hb) hd hne
            (not_le.mp hgt) hcfg⟩
  · obtain ⟨v, -, hv⟩ := readBalances_goes balanceExchanges_nodup h₁
    cases hv

end CriptoParser
