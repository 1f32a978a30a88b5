import Mathlib.Data.Rat.Floor
import Mathlib.Tactic.Common

set_option autoImplicit false

namespace CriptoParser

structure ExchangeConfig where
  name : String
  takerFeePct : ℚ
  withdrawalUsdt : ℚ
  deriving DecidableEq, Repr

def exchanges : List (String × ExchangeConfig) := [
  ("bybit", ⟨"bybit", 1/10, 1⟩),
  ("binance", ⟨"binance", 1/10, 0⟩),
  ("kucoin", ⟨"kucoin", 1/10, 0⟩),
  ("gateio", ⟨"gateio", 3/10, 1⟩),
  ("bitget", ⟨"bitget", 1/10, 1⟩),
  ("coinex", ⟨"coinex", 2/10, 1⟩),
  ("bingx", ⟨"bingx", 1/10, 1⟩)]

def exchangeConfig (name : String) : Option ExchangeConfig := exchanges.lookup name

def initialBalancesUsdt : List (String × ℚ) := [
  ("binance", 10000), ("bybit", 10000), ("kucoin", 10000), ("bitget", 10000),
  ("gateio", 5000), ("coinex", 5000), ("bingx", 5000)]

/-- The exchanges with a balance, in the order `all_balances` reads them. -/
def balanceExchanges : List String := initialBalancesUsdt.map Prod.fst

theorem balanceExchanges_nodup : balanceExchanges.Nodup := by decide

theorem balanceExchanges_configured :
    ∀ ex ∈ balanceExchanges, (exchangeConfig ex).isSome := by decide

theorem exchangeConfig_mem {ex : String} {cfg : ExchangeConfig}
    (h : exchangeConfig ex = some cfg) : (ex, cfg) ∈ exchanges := by
  obtain ⟨l, l', hl, -⟩ := List.lookup_eq_some_iff.mp h
  rw [hl]
  simp

theorem withdrawalUsdt_nonneg {ex : String} {cfg : ExchangeConfig}
    (h : exchangeConfig ex = some cfg) : 0 ≤ cfg.withdrawalUsdt := by
  have hall : ∀ kv ∈ exchanges, 0 ≤ kv.2.withdrawalUsdt := by decide +kernel
  exact hall _ (exchangeConfig_mem h)

end CriptoParser
