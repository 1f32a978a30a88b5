import CriptoParser.CollectorWriter
import CriptoParser.FloatOrder
import CriptoParser.ScannerLoop

set_option autoImplicit false

namespace CriptoParser

section
variable {data : Fields} {key s : String}

theorem textField_some (h : data.lookup key = some s) : textField data key = .ok s := by
  rw [textField, h]

theorem numberField_some {α : Type} {read : String → Option α} {x : α}
    (h : data.lookup key = some s) (hread : read s = some x) :
    numberField read data key = .ok x := by
  simp only [numberField, textField_some h, bind, Except.bind, hread]

theorem numberFieldOr_some {α : Type} {read : String → Option α} {default x : α}
    (h : data.lookup key = some s) (hread : read s = some x) :
    numberFieldOr read default data key = .ok x := by
  simp only [numberFieldOr, h, numberField_some h hread]

theorem nonemptyField_some (h : data.lookup key = some s) :
    Trade.nonemptyField data key = if s = "" then .error .valueError else .ok s := by
  simp only [Trade.nonemptyField, textField_some h, bind, Except.bind]

theorem filledField_some (h : data.lookup key = some s) :
    filledField data key = if s = "" then none else some s := by
  rw [filledField, h]

theorem fieldAt_some (h : data.lookup key = some s) :
    fieldAt data key = .ok s := by
  rw [fieldAt, h]

variable [PyText]

theorem positiveField_some {x : ℚ} (h : data.lookup key = some s)
    (hread : PyText.floatStr s = some x) (hx : 0 < x) : positiveField data key = .ok x := by
  simp only [positiveField, numberField_some h hread, bind, Except.bind, if_pos hx]

end

section
variable [PyText]

/-- The text of these numbers reads back as the numbers, and the empty string is none. -/
structure ReadsBack (floats : List ℚ) (ints : List ℤ) : Prop where
  float : ∀ x ∈ floats, PyText.floatStr (PyText.strFloat x) = some x
  int : ∀ n ∈ ints, PyText.intStr (PyText.strInt n) = some n
  emptyFloat : PyText.floatStr "" = none
  emptyInt : PyText.intStr "" = none

namespace ReadsBack
variable {floats : List ℚ} {ints : List ℤ}

theorem float_filled (h : ReadsBack floats ints) {x : ℚ} (hx : x ∈ floats) :
    PyText.strFloat x ≠ "" := by
  intro hempty
  have hread := h.float x hx
  rw [hempty, h.emptyFloat] at hread
  cases hread

theorem int_filled (h : ReadsBack floats ints) {n : ℤ} (hn : n ∈ ints) :
    PyText.strInt n ≠ "" := by
  intro hempty
  have hread := h.int n hn
  rw [hempty, h.emptyInt] at hread
  cases hread

theorem readFloat (h : ReadsBack floats ints) {x : ℚ} (hx : x ∈ floats) :
    Trade.readFloat (PyText.strFloat x) = some x := by
  rw [Trade.readFloat, if_neg (h.float_filled hx)]
  exact h.float x hx

end ReadsBack

namespace Opportunity

/-- What the validation asks for: `Field(gt=0)` on both prices. -/
def Valid (o : Opportunity) : Prop := 0 < o.buyPrice ∧ 0 < o.sellPrice

def floats (o : Opportunity) : List ℚ := [o.buyPrice, o.sellPrice, o.grossSpreadPct, o.buyFeePct,
  o.sellFeePct, o.withdrawalFeeUsd, o.netSpreadPct]

def ints (o : Opportunity) : List ℤ := [o.detectedAt, o.ttlSeconds]

theorem fromRedis_toRedis (o : Opportunity) (hv : o.Valid) (h : ReadsBack o.floats o.ints) :
    fromRedis o.toRedis = .ok o := by
  have hid : textField o.toRedis "id" = .ok o.id := textField_some rfl
  have hsymbol : textField o.toRedis "symbol" = .ok o.symbol := textField_some rfl
  have hbuyEx : textField o.toRedis "buy_exchange" = .ok o.buyExchange := textField_some rfl
  have hsellEx : textField o.toRedis "sell_exchange" = .ok o.sellExchange := textField_some rfl
  have hbuy : positiveField o.toRedis "buy_price" = .ok o.buyPrice :=
    positiveField_some rfl (h.float _ (by simp [floats])) hv.1
  have hsell : positiveField o.toRedis "sell_price" = .ok o.sellPrice :=
    positiveField_some rfl (h.float _ (by simp [floats])) hv.2
  have hgross : numberField PyText.floatStr o.toRedis "gross_spread_pct" =
      .ok o.grossSpreadPct := numberField_some rfl (h.float _ (by simp [floats]))
  have hbuyFee : numberField PyText.floatStr o.toRedis "buy_fee_pct" = .ok o.buyFeePct :=
    numberField_some rfl (h.float _ (by simp [floats]))
  have hsellFee : numberField PyText.floatStr o.toRedis "sell_fee_pct" = .ok o.sellFeePct :=
    numberField_some rfl (h.float _ (by simp [floats]))
  have hout : numberFieldOr PyText.floatStr 0 o.toRedis "withdrawal_fee_usd" =
      .ok o.withdrawalFeeUsd := numberFieldOr_some rfl (h.float _ (by simp [floats]))
  have hnet : numberField PyText.floatStr o.toRedis "net_spread_pct" = .ok o.netSpreadPct :=
    numberField_some rfl (h.float _ (by simp [floats]))
  have hat : numberField PyText.intStr o.toRedis "detected_at" = .ok o.detectedAt :=
    numberField_some rfl (h.int _ (by simp [ints]))
  have httl : numberFieldOr PyText.intStr 5 o.toRedis "ttl_seconds" = .ok o.ttlSeconds :=
    numberFieldOr_some rfl (h.int _ (by simp [ints]))
  unfold fromRedis
  simp only [hid, hsymbol, hbuyEx, hsellEx, hbuy, hsell, hgross, hbuyFee, hsellFee, hout, hnet,
    hat, httl, bind, Except.bind]

end Opportunity

namespace Trade

/-- The validation asks for one of the four values of `status`. -/
def Valid (t : Trade) : Prop := t.status ∈ statuses

instance (t : Trade) : Decidable t.Valid := inferInstanceAs (Decidable (t.status ∈ statuses))

def texts (t : Trade) : List String :=
  [t.id, t.opportunityId, t.symbol, t.buyExchange, t.sellExchange]

def floats (t : Trade) : List ℚ := [t.buyPrice, t.sellPrice, t.amount, t.buyFee, t.sellFee,
  t.withdrawalFee, t.slippageCost, t.grossPnl, t.netPnl]

def ints (t : Trade) : List ℤ := t.executedAt.toList ++ t.durationMs.toList

theorem optionalIntField_some {data : Fields} {key : String} {n : Option ℤ} {floats : List ℚ}
    {ints : List ℤ} (h : data.lookup key = some (optionalInt n)) (hr : ReadsBack floats ints)
    (hn : ∀ m ∈ n, m ∈ ints) : optionalIntField data key = .ok n := by
  unfold optionalIntField
  cases n with
  | none =>
    rw [h]
    rfl
  | some m =>
    have hmem := hn m rfl
    have hfilled : optionalInt (some m) ≠ "" := hr.int_filled hmem
    have hread : PyText.intStr (optionalInt (some m)) = some m := hr.int m hmem
    have hnumber := numberField_some h hread
    generalize optionalInt (some m) = s at h hfilled
    rw [h]
    split
    · rename_i heq
      cases heq
    · rename_i heq
      exact absurd (Option.some.inj heq) hfilled
    · rw [hnumber]
      rfl

theorem fromRedis_toRedis (t : Trade) (hv : t.Valid) (h : ReadsBack t.floats t.ints) :
    fromRedis t.toRedis = if "" ∈ t.texts then .error .valueError else .ok t := by
  have hid : nonemptyField t.toRedis "id" = if t.id = "" then .error .valueError else .ok t.id :=
    nonemptyField_some rfl
  have hopp : nonemptyField t.toRedis "opportunity_id" =
      if t.opportunityId = "" then .error .valueError else .ok t.opportunityId :=
    nonemptyField_some rfl
  have hsymbol : nonemptyField t.toRedis "symbol" =
      if t.symbol = "" then .error .valueError else .ok t.symbol := nonemptyField_some rfl
  have hbuyEx : nonemptyField t.toRedis "buy_exchange" =
      if t.buyExchange = "" then .error .valueError else .ok t.buyExchange :=
    nonemptyField_some rfl
  have hsellEx : nonemptyField t.toRedis "sell_exchange" =
      if t.sellExchange = "" then .error .valueError else .ok t.sellExchange :=
    nonemptyField_some rfl
  have hbuy : numberField readFloat t.toRedis "buy_price" = .ok t.buyPrice :=
    numberField_some rfl (h.readFloat (by simp [floats]))
  have hsell : numberField readFloat t.toRedis "sell_price" = .ok t.sellPrice :=
    numberField_some rfl (h.readFloat (by simp [floats]))
  have hamount : numberField readFloat t.toRedis "amount" = .ok t.amount :=
    numberField_some rfl (h.readFloat (by simp [floats]))
  have hbuyFee : numberFieldOr readFloat 0 t.toRedis "buy_fee" = .ok t.buyFee :=
    numberFieldOr_some rfl (h.readFloat (by simp [floats]))
  have hsellFee : numberFieldOr readFloat 0 t.toRedis "sell_fee" = .ok t.sellFee :=
    numberFieldOr_some rfl (h.readFloat (by simp [floats]))
  have hout : numberFieldOr readFloat 0 t.toRedis "withdrawal_fee" = .ok t.withdrawalFee :=
    numberFieldOr_some rfl (h.readFloat (by simp [floats]))
  have hslip : numberFieldOr readFloat 0 t.toRedis "slippage_cost" = .ok t.slippageCost :=
    numberFieldOr_some rfl (h.readFloat (by simp [floats]))
  have hgross : numberField readFloat t.toRedis "gross_pnl" = .ok t.grossPnl :=
    numberField_some rfl (h.readFloat (by simp [floats]))
  have hnet : numberField readFloat t.toRedis "net_pnl" = .ok t.netPnl :=
    numberField_some rfl (h.readFloat (by simp [floats]))
  have hstatus : statusField t.toRedis = .ok t.status := by
    have hlook : t.toRedis.lookup "status" = some t.status := rfl
    simp only [statusField, hlook]
    exact if_pos hv
  have hat : optionalIntField t.toRedis "executed_at" = .ok t.executedAt :=
    optionalIntField_some rfl h fun m hm => by simp [ints, Option.mem_def.mp hm]
  have hduration : optionalIntField t.toRedis "duration_ms" = .ok t.durationMs :=
    optionalIntField_some rfl h fun m hm => by simp [ints, Option.mem_def.mp hm]
  unfold fromRedis
  simp only [hid, hopp, hsymbol, hbuyEx, hsellEx, hbuy, hsell, hamount, hbuyFee, hsellFee, hout,
    hslip, hgross, hnet, hstatus, hat, hduration, bind, Except.bind]
  -- the texts are read first, in this order
  by_cases h₁ : t.id = ""
  · simp [texts, h₁]
  by_cases h₂ : t.opportunityId = ""
  · simp [texts, h₁, h₂]
  by_cases h₃ : t.symbol = ""
  · simp [texts, h₁, h₂, h₃]
  by_cases h₄ : t.buyExchange = ""
  · simp [texts, h₁, h₂, h₃, h₄]
  by_cases h₅ : t.sellExchange = ""
  · simp [texts, h₁, h₂, h₃, h₄, h₅]
  have hfilled : "" ∉ t.texts := by
    simp [texts, Ne.symm h₁, Ne.symm h₂, Ne.symm h₃, Ne.symm h₄, Ne.symm h₅]
  simp only [if_neg h₁, if_neg h₂, if_neg h₃, if_neg h₄, if_neg h₅, if_neg hfilled]

end Trade

end

/-- What `Decimal` makes of a text that `float` reads: a finite number, that the float is the
nearest to. -/
structure SpellsDecimals [PyText] (floats : List ℚ) : Prop where
  nearest : ∀ x ∈ floats, ∀ y, PyText.floatStr (PyText.strFloat x) = some y →
    ∃ d, PyText.decimalStr (PyText.strFloat x) = some (.finite d) ∧
      FloatRounding.round d = .finite y
  zero : PyText.decimalStr (PyText.strFloat 0) = some (.finite 0)

theorem floatLimit_le_decimalTop : floatLimit ≤ decimalTop := by decide +kernel

theorem exceeds_small {q limit : ℚ} {digits : ℕ} (h : |q| < floatLimit) :
    exceeds limit digits (.finite q) = .ok (decide (limit < pyRound |q| digits)) :=
  if_neg (not_le.mpr (h.trans_le floatLimit_le_decimalTop))

namespace PriceTick

section
variable [PyText]

def spelled (x : ℚ) : ℚ := ((PyText.decimalStr (PyText.strFloat x)).getD .nan).value

def Valid (p : PriceTick) : Prop := 0 < p.bid ∧ 0 < p.ask

def floats (p : PriceTick) : List ℚ :=
  [p.bid, p.ask] ++ p.bidVolume.toList ++ p.askVolume.toList

def ints (p : PriceTick) : List ℤ := [p.timestamp, p.receivedAt, p.latencyMs]

def overflows (p : PriceTick) : Bool :=
  decide (priceMax < pyRound |spelled p.bid| 18) || decide (priceMax < pyRound |spelled p.ask| 18)

def keptVolume (volume : Option ℚ) : Option ℚ :=
  (volume.map spelled).filter fun d => !decide (volumeMax < pyRound |d| 8)

def row (p : PriceTick) (time : ℚ) : PriceRow where
  time := time
  exchange := p.exchange
  symbol := p.symbol
  bid := spelled p.bid
  ask := spelled p.ask
  bidVolume := keptVolume p.bidVolume
  askVolume := keptVolume p.askVolume
  latencyMs := some p.latencyMs

/-- What the texts of a tick's numbers are read as. -/
structure Reads (p : PriceTick) : Prop extends ReadsBack p.floats p.ints, SpellsDecimals p.floats

variable {p : PriceTick}

theorem readTick_toRedis (h : ReadsBack p.floats p.ints) :
    readTick p.toRedis = .ok (p.symbol, p.exchange, ⟨some p.bid, some p.ask⟩) := by
  have hfloat : ∀ {key : String} {x : ℚ}, p.toRedis.lookup key = some (PyText.strFloat x) →
      x ∈ p.floats → floatAt p.toRedis key = .ok x := by
    intro key x hlook hx
    simp only [floatAt, fieldAt, hlook, bind, Except.bind, h.float x hx]
  have hsymbol : fieldAt p.toRedis "symbol" = .ok p.symbol := rfl
  have hexchange : fieldAt p.toRedis "exchange" = .ok p.exchange := rfl
  have hbid : floatAt p.toRedis "bid" = .ok p.bid := hfloat rfl (by simp [floats])
  have hask : floatAt p.toRedis "ask" = .ok p.ask := hfloat rfl (by simp [floats])
  simp only [readTick, hsymbol, hexchange, hbid, hask, bind, Except.bind]

theorem Reads.spelled (h : p.Reads) {x : ℚ} (hx : x ∈ p.floats) :
    PyText.decimalStr (PyText.strFloat x) = some (.finite (spelled x)) ∧
      FloatRounding.round (PriceTick.spelled x) = .finite x := by
  obtain ⟨d, hd, hround⟩ := h.nearest x hx x (h.float x hx)
  have hvalue : PriceTick.spelled x = d := by
    rw [PriceTick.spelled, hd]
    rfl
  rw [hvalue]
  exact ⟨hd, hround⟩

theorem spelled_zero (h : p.Reads) : spelled 0 = 0 := by
  rw [spelled, h.zero]
  rfl

theorem Reads.exceeds (h : p.Reads) {x : ℚ} (hx : x ∈ p.floats) (limit : ℚ) (digits : ℕ) :
    CriptoParser.exceeds limit digits (.finite (PriceTick.spelled x)) =
      .ok (decide (limit < pyRound |PriceTick.spelled x| digits)) :=
  exceeds_small (PyFloat.lt_of_round (h.spelled hx).2)

theorem readDecimal_strFloat (h : p.Reads) {x : ℚ} (hx : x ∈ p.floats) :
    readDecimal (PyText.strFloat x) = .ok (.finite (spelled x)) := by
  rw [readDecimal, (h.spelled hx).1]

theorem readVolume_optionalFloat (h : p.Reads) {key : String} {volume : Option ℚ}
    (hv : ∀ x ∈ volume, x ∈ p.floats)
    (hlook : p.toRedis.lookup key = some (optionalFloat volume)) :
    readVolume (filledField p.toRedis key) = .ok (volume.map fun x => .finite (spelled x)) := by
  rw [filledField_some hlook]
  cases volume with
  | none => rfl
  | some x =>
    have hx := hv x rfl
    have hfilled : optionalFloat (some x) ≠ "" := h.float_filled hx
    rw [if_neg hfilled]
    simp only [readVolume, optionalFloat, readDecimal_strFloat h hx]
    rfl

theorem screenVolume_spelled (h : p.Reads) {volume : Option ℚ}
    (hv : ∀ x ∈ volume, x ∈ p.floats) :
    screenVolume (volume.map fun x => .finite (spelled x)) = .ok (keptVolume volume) := by
  cases volume with
  | none => rfl
  | some x =>
    have hexceeds := h.exceeds (hv x rfl) volumeMax 8
    simp only [Option.map_some, screenVolume, volumeExceeds, hexceeds, bind, Except.bind,
      keptVolume, PyDecimal.value]
    by_cases hx : volumeMax < pyRound |spelled x| 8
    · simp [hx, Option.filter, pure, Except.pure]
    · simp [hx, Option.filter, pure, Except.pure]

theorem toRecord_toRedis (h : p.Reads) :
    toRecord p.toRedis =
      match fromTimestamp p.receivedAt with
      | .error x => if x.skipsTick then .ok none else .error x
      | .ok time => .ok (if p.overflows then none else some (p.row time)) := by
  have hbidMem : p.bid ∈ p.floats := by simp [floats]
  have haskMem : p.ask ∈ p.floats := by simp [floats]
  have hbidVolumeMem : ∀ x ∈ p.bidVolume, x ∈ p.floats := fun x hx => by
    simp [floats, Option.mem_def.mp hx]
  have haskVolumeMem : ∀ x ∈ p.askVolume, x ∈ p.floats := fun x hx => by
    simp [floats, Option.mem_def.mp hx]
  have hstamp : readStamp (PyText.strInt p.receivedAt) = fromTimestamp p.receivedAt := by
    rw [readStamp, h.int _ (by simp [ints])]
  have hat : fieldAt p.toRedis "received_at" = .ok (PyText.strInt p.receivedAt) :=
    fieldAt_some rfl
  have hbid : fieldAt p.toRedis "bid" = .ok (PyText.strFloat p.bid) := fieldAt_some rfl
  have hask : fieldAt p.toRedis "ask" = .ok (PyText.strFloat p.ask) := fieldAt_some rfl
  have hbidVolume : readVolume (filledField p.toRedis "bid_volume") =
      .ok (p.bidVolume.map fun x => .finite (spelled x)) :=
    readVolume_optionalFloat h hbidVolumeMem rfl
  have haskVolume : readVolume (filledField p.toRedis "ask_volume") =
      .ok (p.askVolume.map fun x => .finite (spelled x)) :=
    readVolume_optionalFloat h haskVolumeMem rfl
  let tick (time : ℚ) : ParsedTick := ⟨time, .finite (spelled p.bid), .finite (spelled p.ask),
    p.bidVolume.map fun x => .finite (spelled x), p.askVolume.map fun x => .finite (spelled x)⟩
  have hparse : parseTick p.toRedis = (fromTimestamp p.receivedAt).map tick := by
    unfold parseTick
    simp only [hat, hbid, hask, hstamp, hbidVolume, haskVolume, bind, Except.bind,
      readDecimal_strFloat h hbidMem, readDecimal_strFloat h haskMem]
    cases fromTimestamp p.receivedAt <;> rfl
  have hlatency : (filledField p.toRedis "latency_ms").bind PyText.intStr = some p.latencyMs := by
    have hmem : p.latencyMs ∈ p.ints := by simp [ints]
    have hlook : p.toRedis.lookup "latency_ms" = some (PyText.strInt p.latencyMs) := rfl
    rw [filledField_some hlook, if_neg (h.int_filled hmem)]
    exact h.int _ hmem
  have hrecord : ∀ time, tickRecord p.toRedis (tick time) = .ok (some (p.row time)) := by
    intro time
    have hexchange : fieldAt p.toRedis "exchange" = .ok p.exchange := rfl
    have hsymbol : fieldAt p.toRedis "symbol" = .ok p.symbol := rfl
    simp only [tickRecord, tick, screenVolume_spelled h hbidVolumeMem,
      screenVolume_spelled h haskVolumeMem, hexchange, hsymbol, hlatency, bind, Except.bind]
    rfl
  unfold toRecord
  rw [hparse]
  cases fromTimestamp p.receivedAt with
  | error x => rfl
  | ok time =>
    have hscreen : screenTick p.toRedis (tick time) =
        .ok (if p.overflows then none else some (p.row time)) := by
      have hbidExceeds := h.exceeds hbidMem priceMax 18
      have haskExceeds := h.exceeds haskMem priceMax 18
      simp only [screenTick, tick, priceExceeds, hbidExceeds, haskExceeds, bind, Except.bind,
        overflows]
      by_cases hb : priceMax < pyRound |spelled p.bid| 18
      · simp [hb, pure, Except.pure]
      · by_cases ha : priceMax < pyRound |spelled p.ask| 18
        · simp [hb, ha, pure, Except.pure]
        · simp [hb, ha, hrecord time, tick]
    exact hscreen

end

end PriceTick

section
variable [PyText]

/-- Each record reads back as it was written: of a tick the record has the numbers that the
texts of its floats spell, the floats are the nearest to these, and a zero stays zero. A trade
with an empty text is refused; a tick without a date or with a price that overflows is no record,
and a volume that overflows is dropped from it. -/
theorem codecs_lossless (o : Opportunity) (t : Trade) (p : PriceTick) (ho : o.Valid)
    (ht : t.Valid) (hro : ReadsBack o.floats o.ints) (hrt : ReadsBack t.floats t.ints)
    (hrp : p.Reads) :
    Opportunity.fromRedis o.toRedis = .ok o ∧
    Trade.fromRedis t.toRedis = (if "" ∈ t.texts then .error .valueError else .ok t) ∧
    readTick p.toRedis = .ok (p.symbol, p.exchange, ⟨some p.bid, some p.ask⟩) ∧
    toRecord p.toRedis =
      (match fromTimestamp p.receivedAt with
      | .error x => if x.skipsTick then .ok none else .error x
      | .ok time => .ok (if p.overflows then none else some (p.row time))) ∧
    (∀ x ∈ p.floats, FloatRounding.round (PriceTick.spelled x) = .finite x) ∧
    PriceTick.spelled 0 = 0 :=
  ⟨o.fromRedis_toRedis ho hro, t.fromRedis_toRedis ht hrt,
    PriceTick.readTick_toRedis hrp.toReadsBack,
    PriceTick.toRecord_toRedis hrp, fun _ hx => (hrp.spelled hx).2, PriceTick.spelled_zero hrp⟩

end

def codecNumbers : List (String × ℚ) :=
  [("0.0", 0), ("0.1", 1 / 10), ("1.5", 3 / 2), ("1e+21", 10 ^ 21)]

/-- A text of these stands for the float nearest to its number. -/
@[reducible] def codecText : PyText :=
  { PyText.ofTables codecNumbers [] with
    strFloat := fun x =>
      ((codecNumbers.find? fun n => double.nearest n.2 = x).map Prod.fst).getD ""
    floatStr := fun s => (codecNumbers.lookup s).map double.nearest }

def tenth : ℚ := double.nearest (1 / 10)

def codecOpportunity : Opportunity :=
  ⟨"opp_0_kucoin_binance_btcusdt", "BTC/USDT", "kucoin", "binance", 3 / 2, tenth, 0, 0, 0, 0, 0, 7,
    5⟩

def codecTrade (symbol : String) : Trade :=
  ⟨"trade_7_abcdefab", "opp_7", symbol, "kucoin", "binance", 3 / 2, tenth, 3 / 2, 0, 0, 0, 0, 0, 0,
    "pending", none, some 12⟩

def codecTick (volume : ℚ) : PriceTick :=
  ⟨"kucoin", "BTC/USDT", tenth, 3 / 2, none, some volume, 7, 7, 0⟩

/-- The row has the tenth itself, where the tick had the float next to it. -/
theorem codecs_lossless_sample :
    @Opportunity.fromRedis codecText (@Opportunity.toRedis codecText codecOpportunity) =
      .ok codecOpportunity ∧
    @Trade.fromRedis codecText (@Trade.toRedis codecText (codecTrade "BTC/USDT")) =
      .ok (codecTrade "BTC/USDT") ∧
    @toRecord codecText (@PriceTick.toRedis codecText (codecTick 0)) =
      .ok (some ⟨7 / 1000, "kucoin", "BTC/USDT", 1 / 10, 3 / 2, none, some 0, some 0⟩) := by
  let _ := codecText
  have hreads : ∀ {floats : List ℚ} {ints : List ℤ},
      (∀ x ∈ floats, x = 0 ∨ x = tenth ∨ x = 3 / 2) →
      (∀ n ∈ ints, n = 0 ∨ n = 5 ∨ n = 7 ∨ n = 12) → ReadsBack floats ints := by
    intro floats ints hfloats hints
    refine ⟨?_, ?_, by decide +kernel, by decide +kernel⟩
    · intro x hx
      rcases hfloats x hx with rfl | rfl | rfl <;> decide +kernel
    · intro n hn
      rcases hints n hn with rfl | rfl | rfl | rfl <;> decide +kernel
  have hspells : SpellsDecimals (codecTick 0).floats := by
    have hall : ∀ x ∈ (codecTick 0).floats, x = 0 ∨ x = tenth ∨ x = 3 / 2 := by decide +kernel
    have hspell : ∀ {x : ℚ} (d : ℚ), PyText.floatStr (PyText.strFloat x) = some x →
        PyText.decimalStr (PyText.strFloat x) = some (.finite d) →
        FloatRounding.round d = .finite x → ∀ y, PyText.floatStr (PyText.strFloat x) = some y →
          ∃ d, PyText.decimalStr (PyText.strFloat x) = some (.finite d) ∧
            FloatRounding.round d = .finite y := by
      intro x d hx hd hround y hy
      obtain rfl := Option.some.inj (hx.symm.trans hy)
      exact ⟨d, hd, hround⟩
    refine ⟨fun x hx => ?_, by decide +kernel⟩
    rcases hall x hx with rfl | rfl | rfl
    · exact hspell 0 (by decide +kernel) (by decide +kernel) (by decide +kernel)
    · exact hspell (1 / 10) (by decide +kernel) (by decide +kernel) (by decide +kernel)
    · exact hspell (3 / 2) (by decide +kernel) (by decide +kernel) (by decide +kernel)
  obtain ⟨ho, ht, -, hp, -⟩ := codecs_lossless codecOpportunity (codecTrade "BTC/USDT")
    (codecTick 0) ⟨by decide +kernel, by decide +kernel⟩ (by decide +kernel)
    (hreads (by decide +kernel) (by decide +kernel))
    (hreads (by decide +kernel) (by decide +kernel))
    ⟨hreads (by decide +kernel) (by decide +kernel), hspells⟩
  have hdate : fromTimestamp (codecTick 0).receivedAt = .ok (7 / 1000) := by decide +kernel
  have hfits : (codecTick 0).overflows = false := by decide +kernel
  have hrow : (codecTick 0).row (7 / 1000) =
      ⟨7 / 1000, "kucoin", "BTC/USDT", 1 / 10, 3 / 2, none, some 0, some 0⟩ := by decide +kernel
  rw [hdate, hfits] at hp
  exact ⟨ho, ht, hp.trans (congrArg (fun row => Except.ok (some row)) hrow)⟩

/-- A trade without a symbol is written and refused; a volume of 10^21 is written, and the
record is without it. -/
theorem codecs_lose :
    (codecTrade "").Valid ∧
    @Trade.fromRedis codecText (@Trade.toRedis codecText (codecTrade "")) = .error .valueError ∧
    (codecTick (10 ^ 21)).askVolume = some (10 ^ 21) ∧
    @toRecord codecText (@PriceTick.toRedis codecText (codecTick (10 ^ 21))) =
      .ok (some ⟨7 / 1000, "kucoin", "BTC/USDT", 1 / 10, 3 / 2, none, none, some 0⟩) := by
  refine ⟨by decide +kernel, by decide +kernel, rfl, by decide +kernel⟩

end CriptoParser
