import CriptoParser.DashboardStore
import CriptoParser.OpportunityDedup
import CriptoParser.SpreadSpec

/-!
The ids of opportunities. The instant and the exchanges can be read off an id, as neither has an
underscore in it; of the symbol only what is left without slashes and in small letters.
-/

set_option autoImplicit false

namespace CriptoParser

theorem toString_int_injective {m n : ℤ} (h : toString m = toString n) : m = n := by
  have hread := readInt_toString m
  rw [h, readInt_toString n] at hread
  exact (Option.some.inj hread).symm

theorem toString_noUnderscore (n : ℤ) : '_' ∉ (toString n).toList := by
  have hdigits : ∀ k : ℕ, '_' ∉ k.repr.toList := by
    intro k hmem
    rw [Nat.toList_repr] at hmem
    exact absurd (Nat.isDigit_of_mem_toDigits (by decide) (by decide) hmem) (by decide)
  cases n with
  | ofNat k => exact hdigits k
  | negSucc k =>
    have htext : toString (Int.negSucc k) = "-" ++ (k + 1).repr := rfl
    rw [htext, String.toList_append, List.mem_append, not_or]
    exact ⟨by decide, hdigits (k + 1)⟩

theorem exchange_noUnderscore {name : String} (h : (exchangeConfig name).isSome) :
    '_' ∉ name.toList :=
  fun hmem => absurd (exchange_letters h '_' hmem) (by decide)

section
variable [PyText]

def DecimalInts : Prop := ∀ n : ℤ, PyText.strInt n = toString n

/-- `symbol.replace('/', '').lower()`. -/
def symbolKey (symbol : String) : String :=
  PyText.lower (String.ofList (symbol.toList.filter (· ≠ '/')))

/-- Some call of `calculate_spreads` returns the opportunity. -/
def Calculated (opp : Opportunity) : Prop :=
  ∃ symbol prices minSpread notional depth now opps,
    calculateSpreads symbol prices minSpread notional depth now = .ok opps ∧ opp ∈ opps

/-- Found at one instant between the same exchanges, for symbols that are the same but for slashes
and case. -/
def Opportunity.Coincides (a b : Opportunity) : Prop :=
  a.detectedAt = b.detectedAt ∧ a.exchanges = b.exchanges ∧ symbolKey a.symbol = symbolKey b.symbol

instance (a b : Opportunity) : Decidable (a.Coincides b) :=
  inferInstanceAs (Decidable (_ ∧ _ ∧ _))

theorem opportunityId_toList (now : ℤ) (buyEx sellEx symbol : String) :
    (opportunityId now buyEx sellEx symbol).toList = "opp_".toList ++
      ((PyText.strInt now).toList ++ '_' :: (buyEx.toList ++ '_' :: (sellEx.toList ++ '_' ::
        (symbolKey symbol).toList))) := by
  simp [opportunityId, symbolKey]

theorem opportunityId_inj (htext : DecimalInts) {now now' : ℤ}
    {buyEx buyEx' sellEx sellEx' symbol symbol' : String}
    (hbuy : (exchangeConfig buyEx).isSome) (hsell : (exchangeConfig sellEx).isSome)
    (hbuy' : (exchangeConfig buyEx').isSome) (hsell' : (exchangeConfig sellEx').isSome)
    (h : opportunityId now buyEx sellEx symbol = opportunityId now' buyEx' sellEx' symbol') :
    now = now' ∧ buyEx = buyEx' ∧ sellEx = sellEx' ∧ symbolKey symbol = symbolKey symbol' := by
  have hlist := congrArg String.toList h
  rw [opportunityId_toList, opportunityId_toList, htext, htext] at hlist
  obtain ⟨hnow, hlist⟩ := separator_append_inj (toString_noUnderscore now)
    (toString_noUnderscore now') (List.append_cancel_left hlist)
  obtain ⟨hbuyEx, hlist⟩ := separator_append_inj (exchange_noUnderscore hbuy)
    (exchange_noUnderscore hbuy') hlist
  obtain ⟨hsellEx, hkey⟩ := separator_append_inj (exchange_noUnderscore hsell)
    (exchange_noUnderscore hsell') hlist
  exact ⟨toString_int_injective (String.toList_injective hnow), String.toList_injective hbuyEx,
    String.toList_injective hsellEx, String.toList_injective hkey⟩

theorem Calculated.id_eq {opp : Opportunity} (h : Calculated opp) :
    opp.id = opportunityId opp.detectedAt opp.buyExchange opp.sellExchange opp.symbol ∧
      opp.Configured := by
  obtain ⟨symbol, prices, minSpread, notional, depth, now, opps, hcall, hmem⟩ := h
  obtain ⟨b, -, s, -, -, hroute⟩ := buyLoop_mem hcall hmem
  obtain ⟨buyPrice, sellPrice, -, -, hopp⟩ := spreadRoute_routed hroute
  obtain ⟨hof, -, -, -, hid⟩ := routeOpportunity_spec hopp
  obtain ⟨buy, hbuy, -⟩ := hof.buyFee
  obtain ⟨sell, hsell, -⟩ := hof.sellFee
  rw [hid, Opportunity.Configured, hof.detectedAt, hof.buyExchange,
    hof.sellExchange, hof.symbol_eq, hbuy, hsell]
  exact ⟨rfl, rfl, rfl⟩

theorem Calculated.id_iff (htext : DecimalInts) {a b : Opportunity} (ha : Calculated a)
    (hb : Calculated b) : a.id = b.id ↔ a.Coincides b := by
  obtain ⟨hida, hconfa⟩ := ha.id_eq
  obtain ⟨hidb, hconfb⟩ := hb.id_eq
  rw [hida, hidb]
  constructor
  · intro h
    obtain ⟨hnow, hbuy, hsell, hkey⟩ :=
      opportunityId_inj htext hconfa.1 hconfa.2 hconfb.1 hconfb.2 h
    exact ⟨hnow, Prod.ext hbuy hsell, hkey⟩
  · rintro ⟨hnow, hex, hkey⟩
    obtain ⟨hbuy, hsell⟩ := Prod.mk.inj hex
    refine String.toList_injective ?_
    rw [opportunityId_toList, opportunityId_toList, hnow, hbuy, hsell, hkey]

/-- Two opportunities have one id exactly when they coincide, and the dashboard leaves out an
opportunity exactly when its list has one that coincides with it. -/
theorem opportunity_identified (htext : DecimalInts) :
    (∀ a b, Calculated a → Calculated b → (a.id = b.id ↔ a.Coincides b)) ∧
      ∀ (T : Type) (tradeId : T → String) (s : DashboardStore Opportunity T) (o : Opportunity),
        Calculated o → (∀ x ∈ s.opportunities, Calculated x) →
        (s.step Opportunity.id tradeId (.addOpportunity o)).opportunities =
          if ∃ x ∈ s.opportunities, x.Coincides o then s.opportunities
          else (o :: s.opportunities).take 50 := by
  refine ⟨fun a b ha hb => ha.id_iff htext hb, fun T tradeId s o ho hs => ?_⟩
  have hany : (s.opportunities.any fun x => x.id = o.id) = true ↔
      ∃ x ∈ s.opportunities, x.Coincides o := by
    rw [List.any_eq_true]
    constructor
    · rintro ⟨x, hx, hid⟩
      exact ⟨x, hx, ((hs x hx).id_iff htext ho).mp (of_decide_eq_true hid)⟩
    · rintro ⟨x, hx, hsame⟩
      exact ⟨x, hx, decide_eq_true (((hs x hx).id_iff htext ho).mpr hsame)⟩
  simp only [DashboardStore.step, addRecent, hany]

end

def kucoinQuotes : List (String × Quote) :=
  [("binance", ⟨some 102, some 103⟩), ("kucoin", ⟨some 99, some 100⟩)]

theorem exists_calculated (symbol : String) :
    ∃ o, @Calculated plainText o ∧ o.symbol = symbol ∧
      o.id = @opportunityId plainText 0 "kucoin" "binance" symbol := by
  have hemits : @Emits plainText kucoinQuotes [] 1 1000 "kucoin" "binance" 100 102 :=
    @Emits.mk plainText _ _ _ _ _ _ _ _ (by decide) rfl rfl
      ⟨_, _, rfl, rfl, by decide +kernel, by decide +kernel, rfl, rfl⟩ (by decide +kernel)
  have hrun := @calculateSpreads_flatMap plainText symbol 1 1000 [] 0 (by norm_num) kucoinQuotes
  have hmem := (@calculateSpreads_iff plainText symbol 1 1000 [] 0 (by norm_num) kucoinQuotes
    (by decide) _ hrun (@routeRecord plainText symbol 1000 0 "kucoin" "binance"
      ⟨"kucoin", 1 / 10, 0⟩ ⟨"binance", 1 / 10, 0⟩ 100 102)).mpr
    ⟨100, 102, hemits, _, _, rfl, rfl, rfl⟩
  exact ⟨_, ⟨symbol, kucoinQuotes, 1, 1000, [], 0, _, hrun, hmem⟩, rfl, rfl⟩

/-- One pair on two calls. -/
theorem opportunity_identified_two : ∃ a b, @Calculated plainText a ∧ @Calculated plainText b ∧
    (a.id = b.id ↔ @Opportunity.Coincides plainText a b) := by
  obtain ⟨a, ha, -⟩ := exists_calculated "BTC/USDT"
  obtain ⟨b, hb, -⟩ := exists_calculated "ETH/USDT"
  exact ⟨a, b, ha, hb, (@opportunity_identified plainText fun _ => rfl).1 a b ha hb⟩

/-- The id does not say where the slash stood. -/
theorem opportunity_confused :
    ¬∀ a b, @Calculated plainText a → @Calculated plainText b → a.id = b.id →
      a.detectedAt = b.detectedAt ∧ a.buyExchange = b.buyExchange ∧
        a.sellExchange = b.sellExchange ∧ a.symbol = b.symbol := by
  intro h
  obtain ⟨a, ha, hsymbol, hid⟩ := exists_calculated "AB/CUSDT"
  obtain ⟨b, hb, hsymbol', hid'⟩ := exists_calculated "ABC/USDT"
  have hbare : "AB/CUSDT".toList.filter (· ≠ '/') = "ABC/USDT".toList.filter (· ≠ '/') := by decide
  have hkey : @symbolKey plainText "AB/CUSDT" = @symbolKey plainText "ABC/USDT" := by
    unfold symbolKey
    rw [hbare]
  have hsame : a.id = b.id := by
    rw [hid, hid']
    refine String.toList_injective ?_
    rw [@opportunityId_toList plainText, @opportunityId_toList plainText, hkey]
  obtain ⟨-, -, -, hsym⟩ := h a b ha hb hsame
  rw [hsymbol, hsymbol'] at hsym
  exact absurd hsym (by decide)

end CriptoParser
