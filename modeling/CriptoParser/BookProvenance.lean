import CriptoParser.BookSources

/-!
What it is for a tick, a document, a quote, an opportunity and a trade to be made of given books,
and how that passes through the texts in between.
-/

set_option autoImplicit false

namespace CriptoParser

open Await Streams

section
variable [PyText]

/-- A way to say which books an exchange has handed out for a symbol. -/
abbrev Books := String → String → OrderBook → Prop

variable (books : Books)

def TickFrom (fields : Fields) : Prop :=
  ∃ name symbol book, books name symbol book ∧ TickOf name symbol book fields

def TextFrom (key value : String) : Prop :=
  ∃ name symbol book now, books name symbol book ∧ key = depthKey name symbol ∧
    dumpDepth book.bids book.asks now depthLevels = .ok value

def QuoteFrom (symbol : String) (quote : String × Quote) : Prop :=
  ∃ fields, TickFrom books fields ∧ readTick fields = .ok (symbol, quote.1, quote.2)

/-- The depth is read from the document of a book of the exchange, and is no older than the
limit. -/
def DepthFrom (nowMs : ℤ) (exchange symbol : String) (depth : Depth) : Prop :=
  nowMs - depth.ts ≤ depthMaxAgeMs ∧ ∃ book now value, books exchange symbol book ∧
    dumpDepth book.bids book.asks now depthLevels = .ok value ∧
    parseDepth (some value) = .ok (some depth)

def AskFrom (exchange symbol : String) (price : ℚ) : Prop :=
  ∃ book ask, books exchange symbol book ∧ bestPrice book.asks = .ok ask ∧
    PyText.floatStr (PyText.strFloat ask) = some price

def BidFrom (exchange symbol : String) (price : ℚ) : Prop :=
  ∃ book bid, books exchange symbol book ∧ bestPrice book.bids = .ok bid ∧
    PyText.floatStr (PyText.strFloat bid) = some price

def WalkedFrom (nowMs : ℤ) (buyExchange sellExchange symbol : String)
    (notional amount buyPrice sellPrice : ℚ) : Prop :=
  ∃ buy sell, DepthFrom books nowMs buyExchange symbol buy ∧
    DepthFrom books nowMs sellExchange symbol sell ∧
    walkAsksForNotional buy.asks notional = .ok (some (amount, buyPrice)) ∧
    walkBidsForAmount sell.bids amount = .ok (some sellPrice)

/-- The prices of an opportunity are those of two walks, or the best ask and the best bid. -/
def OpportunityFrom (nowMs : ℤ) (notional : ℚ) (opp : Opportunity) : Prop :=
  (∃ amount, WalkedFrom books nowMs opp.buyExchange opp.sellExchange opp.symbol notional amount
    opp.buyPrice opp.sellPrice) ∨
  AskFrom books opp.buyExchange opp.symbol opp.buyPrice ∧
    BidFrom books opp.sellExchange opp.symbol opp.sellPrice

def TradeFrom (nowMs : ℤ) (trade : Trade) : Prop :=
  ∃ notional, WalkedFrom books nowMs trade.buyExchange trade.sellExchange trade.symbol notional
    trade.amount trade.buyPrice trade.sellPrice

variable {books} {books' : Books} (hle : ∀ name symbol book, books name symbol book →
  books' name symbol book)

include hle

theorem TickFrom.mono {fields : Fields} (h : TickFrom books fields) :
    TickFrom books' fields := by
  obtain ⟨name, symbol, book, hbook, htick⟩ := h
  exact ⟨name, symbol, book, hle _ _ _ hbook, htick⟩

theorem TextFrom.mono {key value : String} (h : TextFrom books key value) :
    TextFrom books' key value := by
  obtain ⟨name, symbol, book, now, hbook, hrest⟩ := h
  exact ⟨name, symbol, book, now, hle _ _ _ hbook, hrest⟩

theorem QuoteFrom.mono {symbol : String} {quote : String × Quote}
    (h : QuoteFrom books symbol quote) : QuoteFrom books' symbol quote := by
  obtain ⟨fields, htick, hread⟩ := h
  exact ⟨fields, htick.mono hle, hread⟩

omit hle

omit [PyText] in
theorem bookTick_ok {name symbol : String} {book : OrderBook} {now : ℤ} {tick : PriceTick}
    (h : bookTick name symbol book now = .ok tick) :
    tick.exchange = name ∧ tick.symbol = symbol ∧ bestPrice book.bids = .ok tick.bid ∧
      bestPrice book.asks = .ok tick.ask := by
  unfold bookTick at h
  cases hbid : bestPrice book.bids with
  | error x => simp [hbid, bind, Except.bind] at h
  | ok bid =>
    cases hask : bestPrice book.asks with
    | error x => simp [hbid, hask, bind, Except.bind] at h
    | ok ask =>
      simp only [hbid, hask, bind, Except.bind] at h
      split at h
      · cases h
        exact ⟨rfl, rfl, rfl, rfl⟩
      · cases h

theorem readTick_tick {tick : PriceTick} {symbol exchange : String} {quote : Quote}
    (h : readTick tick.toRedis = .ok (symbol, exchange, quote)) :
    symbol = tick.symbol ∧ exchange = tick.exchange ∧
      PyText.floatStr (PyText.strFloat tick.bid) = quote.bid ∧
      PyText.floatStr (PyText.strFloat tick.ask) = quote.ask := by
  have hsymbol : fieldAt tick.toRedis "symbol" = .ok tick.symbol := rfl
  have hexchange : fieldAt tick.toRedis "exchange" = .ok tick.exchange := rfl
  have hbid : fieldAt tick.toRedis "bid" = .ok (PyText.strFloat tick.bid) := rfl
  have hask : fieldAt tick.toRedis "ask" = .ok (PyText.strFloat tick.ask) := rfl
  simp only [readTick, floatAt, hsymbol, hexchange, hbid, hask, bind, Except.bind] at h
  cases hb : PyText.floatStr (PyText.strFloat tick.bid) with
  | none => simp [hb] at h
  | some bid =>
    cases ha : PyText.floatStr (PyText.strFloat tick.ask) with
    | none => simp [hb, ha] at h
    | some ask =>
      simp only [hb, ha, Except.ok.injEq, Prod.mk.injEq] at h
      obtain ⟨rfl, rfl, rfl⟩ := h
      exact ⟨rfl, rfl, rfl, rfl⟩

theorem QuoteFrom.known {symbol : String} {quote : String × Quote}
    (h : QuoteFrom books symbol quote) : ∃ book, books quote.1 symbol book := by
  obtain ⟨fields, ⟨name, s, book, hbook, now, tick, htick, rfl⟩, hread⟩ := h
  obtain ⟨rfl, hname, -⟩ := readTick_tick hread
  obtain ⟨hexchange, hsymbol, -⟩ := bookTick_ok htick
  rw [hname, hexchange, hsymbol]
  exact ⟨book, hbook⟩

theorem QuoteFrom.ask {symbol : String} {quote : String × Quote} {price : ℚ}
    (h : QuoteFrom books symbol quote) (hprice : quote.2.ask = some price) :
    AskFrom books quote.1 symbol price := by
  obtain ⟨fields, ⟨name, s, book, hbook, now, tick, htick, rfl⟩, hread⟩ := h
  obtain ⟨rfl, hname, -, hask⟩ := readTick_tick hread
  obtain ⟨hexchange, hsymbol, -, hbest⟩ := bookTick_ok htick
  rw [hname, hexchange, hsymbol]
  exact ⟨book, tick.ask, hbook, hbest, hask.trans hprice⟩

theorem QuoteFrom.bid {symbol : String} {quote : String × Quote} {price : ℚ}
    (h : QuoteFrom books symbol quote) (hprice : quote.2.bid = some price) :
    BidFrom books quote.1 symbol price := by
  obtain ⟨fields, ⟨name, s, book, hbook, now, tick, htick, rfl⟩, hread⟩ := h
  obtain ⟨rfl, hname, hbid, -⟩ := readTick_tick hread
  obtain ⟨hexchange, hsymbol, hbest, -⟩ := bookTick_ok htick
  rw [hname, hexchange, hsymbol]
  exact ⟨book, tick.bid, hbook, hbest, hbid.trans hprice⟩

omit [PyText] in
theorem depthKey_inj {a b s t : String} (ha : (exchangeConfig a).isSome = true)
    (hb : (exchangeConfig b).isSome = true) (h : depthKey a s = depthKey b t) : a = b ∧ s = t := by
  have hl : "depth:".toList ++ (a.toList ++ ':' :: s.toList) =
      "depth:".toList ++ (b.toList ++ ':' :: t.toList) := by
    simpa [depthKey] using congrArg String.toList h
  obtain ⟨hab, hst⟩ := separator_append_inj (exchange_noColon ha) (exchange_noColon hb)
    (List.append_cancel_left hl)
  exact ⟨String.toList_injective hab, String.toList_injective hst⟩

theorem depthFrom_text {nowMs : ℤ} {exchange symbol : String} {depth : Depth} {raw : Option String}
    (hconfigured : ∀ name symbol book, books name symbol book → (exchangeConfig name).isSome = true)
    (hexchange : (exchangeConfig exchange).isSome = true)
    (hraw : ∀ value, raw = some value → TextFrom books (depthKey exchange symbol) value)
    (hparse : parseDepth raw = .ok (some depth)) (hfresh : nowMs - depth.ts ≤ depthMaxAgeMs) :
    DepthFrom books nowMs exchange symbol depth := by
  cases raw with
  | none => cases hparse
  | some value =>
    obtain ⟨name, s, book, now, hbook, hkey, hdump⟩ := hraw value rfl
    obtain ⟨rfl, rfl⟩ := depthKey_inj hexchange (hconfigured _ _ _ hbook) hkey
    exact ⟨hfresh, book, now, value, hbook, hdump, hparse⟩

theorem fillFromDepth_fresh {rawBuy rawSell : Option String} {nowMs : ℤ} {notional : ℚ} {f : Fill}
    (h : fillFromDepth rawBuy rawSell nowMs notional = .ok (some f)) :
    ∃ buy sell : Depth, parseDepth rawBuy = .ok (some buy) ∧ parseDepth rawSell = .ok (some sell) ∧
      nowMs - buy.ts ≤ depthMaxAgeMs ∧ nowMs - sell.ts ≤ depthMaxAgeMs ∧
      walkAsksForNotional buy.asks notional = .ok (some (f.amount, f.effectiveBuy)) ∧
      walkBidsForAmount sell.bids f.amount = .ok (some f.effectiveSell) := by
  obtain ⟨buy, sell, hbuy, hsell, hasks, hbids, -⟩ := fillFromDepth_some h
  refine ⟨buy, sell, hbuy, hsell, ?_⟩
  by_contra hstale
  have hold : (!isFresh (some buy) nowMs depthMaxAgeMs ||
      !isFresh (some sell) nowMs depthMaxAgeMs) = true := by
    by_contra hfresh
    simp only [isFresh, Bool.or_eq_true, Bool.not_eq_true', decide_eq_false_iff_not, not_or,
      not_not] at hfresh
    exact hstale ⟨hfresh.1, hfresh.2, hasks, hbids⟩
  simp [fillFromDepth, hbuy, hsell, bind, Except.bind, hold] at h

theorem OpportunityFrom.configured {nowMs : ℤ} {notional : ℚ} {opp : Opportunity}
    (h : OpportunityFrom books nowMs notional opp)
    (hconfigured : ∀ name symbol book, books name symbol book → (exchangeConfig name).isSome = true) :
    opp.Configured := by
  rcases h with ⟨amount, buy, sell, ⟨-, b, now, value, hb, -⟩, ⟨-, s, now', value', hs, -⟩, -⟩ |
    ⟨⟨b, ask, hb, -⟩, s, bid, hs, -⟩
  · exact ⟨hconfigured _ _ _ hb, hconfigured _ _ _ hs⟩
  · exact ⟨hconfigured _ _ _ hb, hconfigured _ _ _ hs⟩

theorem configured_fromRedis {opp published : Opportunity} (hconfigured : published.Configured)
    (h : Opportunity.fromRedis published.toRedis = .ok opp) : opp.Configured := by
  simp only [Opportunity.fromRedis, bind_eq_ok, Except.ok.injEq] at h
  obtain ⟨id, -, symbol, -, buy, hbuy, sell, hsell, -, -, -, -, -, -, -, -, -, -, -, -, -, -,
    -, -, -, -, rfl⟩ := h
  obtain rfl : published.buyExchange = buy := Option.some.inj (textField_ok hbuy)
  obtain rfl : published.sellExchange = sell := Option.some.inj (textField_ok hsell)
  exact hconfigured

theorem tradeFrom_fill {t : ℚ} {raws : String → Option String} {notional : ℚ} {opp : Opportunity}
    {f : Fill} {now durationMs : ℤ} {uuid : String}
    (hconfigured : ∀ name symbol book, books name symbol book → (exchangeConfig name).isSome = true)
    (hopp : opp.Configured)
    (hraws : ∀ key value, raws key = some value → TextFrom books key value)
    (h : fillAt opp t raws notional = .ok (some f)) :
    TradeFrom books (pyInt (t * 1000)) (f.trade opp now uuid durationMs) := by
  obtain ⟨buy, sell, hbuy, hsell, hbuyFresh, hsellFresh, hasks, hbids⟩ := fillFromDepth_fresh h
  exact ⟨notional, buy, sell,
    depthFrom_text hconfigured hopp.1 (fun value => hraws _ value) hbuy hbuyFresh,
    depthFrom_text hconfigured hopp.2 (fun value => hraws _ value) hsell hsellFresh, hasks, hbids⟩

end

end CriptoParser
