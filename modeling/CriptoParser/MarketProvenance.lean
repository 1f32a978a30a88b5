import CriptoParser.BookProvenance
import CriptoParser.MarketSystem
import CriptoParser.TruncatedDepth

/-!
Where the prices in the market come from. However the collectors, the scanner and the executor are
interleaved and whatever fails, every price that is published or traded at is taken from books that
the exchanges handed out.
-/

set_option autoImplicit false

namespace CriptoParser

open Await Streams

variable {ι : Type}

abbrev MarketLog (ι : Type) := List (MarketTask ι × Event (Market ι))

def HandedOut (collectors : ι → ExchangeCollector) (log : MarketLog ι) : Books :=
  fun name symbol book => ∃ k e, (collectors k).name = name ∧
    Event.within (T := Market ι) (.collector k) e ∈ merged log ∧ bookFor e = some (symbol, book)

theorem handedOut_configured {collectors : ι → ExchangeCollector} {log : MarketLog ι} :
    ∀ name symbol book, HandedOut collectors log name symbol book →
      (exchangeConfig name).isSome = true := by
  rintro name symbol book ⟨k, e, rfl, -⟩
  exact (collectors k).configured

theorem handedOut_mono {collectors : ι → ExchangeCollector} {log log' : MarketLog ι}
    (hlog : log ⊆ log') {name symbol : String} {book : OrderBook}
    (h : HandedOut collectors log name symbol book) :
    HandedOut collectors log' name symbol book := by
  obtain ⟨k, e, hname, he, hbook⟩ := h
  exact ⟨k, e, hname, List.map_subset _ hlog he, hbook⟩

theorem mem_fresh {log : Log Fields} {group : String} {count : ℕ} {entry : Entry Fields}
    (h : entry ∈ log.fresh group count) : entry.payload ∈ log.entries := by
  have hpayload := List.mem_map_of_mem (f := Entry.payload) h
  rw [fresh_payloads] at hpayload
  exact List.mem_of_mem_drop (List.mem_of_mem_take hpayload)

theorem arrive_nothing {w : World} (h : w.now.arrivals = []) : w.arrive.streams = w.streams := by
  funext s
  simp [World.arrive, h, Log.append]

theorem readGroup_mem {w : World} {group : String} {names : List String} {count : ℕ}
    {r : String × List (Entry Fields)} (hr : r ∈ w.readGroup group names count) :
    r.1 ∈ names ∧ ∀ entry ∈ r.2, entry.payload ∈ (w.streams r.1).entries := by
  obtain ⟨s, hs, rfl⟩ := List.mem_map.mp (List.mem_filter.mp hr).1
  exact ⟨hs, fun entry he => mem_fresh he⟩

section
variable [PyText] (collectors : ι → ExchangeCollector)

def OnStream (log : MarketLog ι) (fields : Fields) : Prop :=
  ∃ (opp : Opportunity) (reply : Except PyExc Unit), fields = opp.toRedis ∧ opp.Configured ∧
    (.scanner, ⟨.service (.xadd opportunitiesStream fields), reply⟩) ∈ log

/-- What a service was answered is made of books and of opportunities that were published. -/
def AnsweredFrom (log : MarketLog ι) : Event Service → Prop
  | ⟨.book symbol, .ok quotes⟩ => ∀ q ∈ quotes, QuoteFrom (HandedOut collectors log) symbol q
  | ⟨.mget _, .ok raws⟩ => ∀ key value, raws key = some value →
      TextFrom (HandedOut collectors log) key value
  | ⟨.xreadgroup _ names _, .ok resp⟩ => ∀ r ∈ resp, r.1 ∈ names ∧ ∀ entry ∈ r.2,
      (r.1 = pricesStream → TickFrom (HandedOut collectors log) entry.payload) ∧
        (r.1 = opportunitiesStream → OnStream log entry.payload)
  | _ => True

/-- Everything in Redis and in the price table is made of books that were handed out. -/
structure MarketState (w : MarketWorld ι) (log : MarketLog ι) : Prop where
  prices : ∀ fields ∈ (w.services.streams pricesStream).entries,
    TickFrom (HandedOut collectors log) fields
  opportunities : ∀ fields ∈ (w.services.streams opportunitiesStream).entries, OnStream log fields
  depths : ∀ key value, w.depths key = some value → TextFrom (HandedOut collectors log) key value
  quotes : ∀ symbol, ∀ q ∈ w.services.books symbol,
    QuoteFrom (HandedOut collectors log) symbol q
  answers : ∀ e, Event.within (T := Market ι) .service e ∈ merged log →
    AnsweredFrom collectors log e

variable {collectors} {w : MarketWorld ι} {log log' : MarketLog ι}

theorem OnStream.mono {fields : Fields} (h : OnStream log fields) (hlog : log ⊆ log') :
    OnStream log' fields := by
  obtain ⟨opp, reply, hfields, hconfigured, he⟩ := h
  exact ⟨opp, reply, hfields, hconfigured, hlog he⟩

theorem AnsweredFrom.mono {e : Event Service} (h : AnsweredFrom collectors log e)
    (hlog : log ⊆ log') : AnsweredFrom collectors log' e := by
  have hbooks : ∀ name symbol book, HandedOut collectors log name symbol book →
      HandedOut collectors log' name symbol book := fun _ _ _ => handedOut_mono hlog
  obtain ⟨c, a⟩ := e
  cases a with
  | error x => cases c <;> trivial
  | ok v =>
    cases c with
    | book symbol => exact fun q hq => (h q hq).mono hbooks
    | mget keys => exact fun key value hv => (h key value hv).mono hbooks
    | xreadgroup group names count =>
      intro r hr
      obtain ⟨hname, hentries⟩ := h r hr
      exact ⟨hname, fun entry he => ⟨fun hs => ((hentries entry he).1 hs).mono hbooks,
        fun hs => ((hentries entry he).2 hs).mono hlog⟩⟩
    | _ => trivial

theorem MarketState.answered (h : MarketState collectors w log) (c : Call) :
    AnsweredFrom collectors log
      ⟨c, (World.serve c { w.services with outside := fun _ => w.outside }).1⟩ := by
  unfold World.serve
  split
  · cases c with
    | book symbol => exact h.quotes symbol
    | mget keys =>
      intro key value hvalue
      have hkey : (if w.expired w.services.tick key then none else w.depths key) = some value :=
        hvalue
      split at hkey
      · cases hkey
      · exact h.depths key value hkey
    | xreadgroup group names count =>
      intro r hr
      obtain ⟨hname, hentries⟩ := readGroup_mem hr
      rw [arrive_nothing (by rfl)] at hentries
      refine ⟨hname, fun entry he => ⟨fun hs => ?_, fun hs => ?_⟩⟩
      · exact h.prices _ (hs ▸ hentries entry he)
      · exact h.opportunities _ (hs ▸ hentries entry he)
    | _ => trivial
  · cases c <;> trivial

variable [DecidableEq ι]

variable (collectors log)

/-- The trade is one of an opportunity that the scanner had published, at prices from books that
had been handed out by the executor's clock. -/
def TradeFounded (trade : Trade) : Prop :=
  ∃ (opp : Opportunity) (fields : Fields) (reply : Except PyExc Unit) (t : ℚ),
    (.scanner, ⟨.service (.xadd opportunitiesStream fields), reply⟩) ∈ log ∧
    Opportunity.fromRedis fields = .ok opp ∧ trade.opportunityId = opp.id ∧
    trade.symbol = opp.symbol ∧ trade.buyExchange = opp.buyExchange ∧
    trade.sellExchange = opp.sellExchange ∧ (.executor, ⟨.service .time, .ok t⟩) ∈ log ∧
    TradeFrom (HandedOut collectors log) (pyInt (t * 1000)) trade

variable {collectors log}

omit [PyText] in
theorem mem_log {i : MarketTask ι} {before : List (Event Service)}
    (hown : own i log = before.map (Event.within (T := Market ι) .service)) {e : Event Service}
    (he : e ∈ before) : (i, Event.within (T := Market ι) .service e) ∈ log := by
  rw [← mem_own, hown]
  exact List.mem_map_of_mem he

theorem MarketState.answered_own (h : MarketState collectors w log) {i : MarketTask ι}
    {before : List (Event Service)}
    (hown : own i log = before.map (Event.within (T := Market ι) .service)) {e : Event Service}
    (he : e ∈ before) : AnsweredFrom collectors log e :=
  h.answers e (List.mem_map_of_mem (mem_log hown he))

theorem MarketState.trade (h : MarketState collectors w log) {before : List (Event Service)}
    {trade : Trade}
    (hown : own .executor log = before.map (Event.within (T := Market ι) .service))
    (hexecuted : Executed before trade) : TradeFounded collectors log trade := by
  obtain ⟨opp, ⟨resp, r, entry, hread, hr, hentry, hparse⟩, t, keys, raws, notional, f, now, uuid,
    durationMs, ht, hmget, hfill, rfl⟩ := hexecuted
  have hbatch : AnsweredFrom collectors log
      ⟨.xreadgroup executorGroup [opportunitiesStream] 100, .ok resp⟩ := h.answered_own hown hread
  have hraws : AnsweredFrom collectors log ⟨.mget keys, .ok raws⟩ := h.answered_own hown hmget
  obtain ⟨hname, hentries⟩ := hbatch r hr
  obtain ⟨published, reply, hfields, hconfigured, hevent⟩ :=
    (hentries entry hentry).2 (List.mem_singleton.mp hname)
  rw [hfields] at hparse hevent
  have hopp := configured_fromRedis hconfigured hparse
  exact ⟨opp, published.toRedis, reply, t, hevent, hparse, rfl, rfl, rfl, rfl, mem_log hown ht,
    tradeFrom_fill handedOut_configured hopp hraws hfill⟩

end

end CriptoParser
