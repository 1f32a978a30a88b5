import CriptoParser.CollectorWriter

/-!
The snapshots of prices. The last entries of the stream are read, newest first, and the first of
each pair is taken: a pair whose entries all lie before them is missing.
-/

set_option autoImplicit false

namespace CriptoParser

abbrev Pair := Option String × Option String

def pairOf (f : Fields) : Pair := (f.lookup "exchange", f.lookup "symbol")

structure PriceItem where
  exchange : Option String
  symbol : Option String
  bid : ℚ
  ask : ℚ
  deriving DecidableEq, Repr

def PriceItem.pair (item : PriceItem) : Pair := (item.exchange, item.symbol)

def mostRecent (stream : List Fields) (pair : Pair) : Option Fields :=
  stream.reverse.find? fun f => pairOf f = pair

/-- Each pair of the stream is among its last 80 entries. -/
def AllRecent (stream : List Fields) : Prop :=
  ∀ f ∈ stream, ∃ g ∈ stream.reverse.take 80, pairOf g = pairOf f

def itemsOf (pair : Pair) (latest : List (Pair × PriceItem)) : List PriceItem :=
  (latest.map Prod.snd).filter fun i => i.pair = pair

def Keyed (latest : List (Pair × PriceItem)) : Prop := ∀ kv ∈ latest, kv.2.pair = kv.1

theorem Keyed.itemsOf_eq_nil {latest : List (Pair × PriceItem)} (h : Keyed latest) {pair : Pair}
    (hp : pair ∉ latest.map Prod.fst) : itemsOf pair latest = [] := by
  rw [itemsOf, List.filter_eq_nil_iff]
  intro item hitem hpair
  obtain ⟨kv, hkv, rfl⟩ := List.mem_map.mp hitem
  refine hp (List.mem_map.mpr ⟨kv, hkv, ?_⟩)
  rw [← h kv hkv]
  exact of_decide_eq_true hpair

theorem mostRecent_of_window {stream : List Fields} {pair : Pair} {f : Fields}
    (h : (stream.reverse.take 80).find? (fun g => pairOf g = pair) = some f) :
    mostRecent stream pair = some f := by
  rw [mostRecent, ← List.take_append_drop 80 stream.reverse, List.find?_append, h]
  rfl

section
variable [PyText]

def priceItem (f : Fields) : Except PyExc PriceItem := do
  let bid ← floatAt f "bid"
  let ask ← floatAt f "ask"
  .ok ⟨f.lookup "exchange", f.lookup "symbol", bid, ask⟩

/-- The loop over the entries; `latest` is a dict in order of insertion. -/
def latestPrices : List Fields → List (Pair × PriceItem) → Except PyExc (List (Pair × PriceItem))
  | [], latest => .ok latest
  | f :: rest, latest =>
    if pairOf f ∈ latest.map Prod.fst then latestPrices rest latest
    else
      match priceItem f with
      | .ok item => latestPrices rest (latest ++ [(pairOf f, item)])
      | .error x => .error x

/-- One round of `prices_broadcaster`: the data it broadcasts, if it does. The stream is given
oldest first; `xrevrange` answers with its last 80 entries, newest first. -/
def pricesRound (clients : ℕ) (stream : List Fields) : Except PyExc (Option (List PriceItem)) :=
  if clients = 0 then .ok none
  else do
    let latest ← latestPrices (stream.reverse.take 80) []
    .ok (if latest = [] then none else some (latest.map Prod.snd))

def WellFormedTick (f : Fields) : Prop := ∃ item, priceItem f = .ok item

/-- One item for each pair of the stream, with the prices of its most recent entry. -/
def CompleteSnapshot (stream : List Fields) (snapshot : List PriceItem) : Prop :=
  ∀ f ∈ stream, ∃ recent item, mostRecent stream (pairOf f) = some recent ∧
    priceItem recent = .ok item ∧ snapshot.filter (fun i => i.pair = pairOf f) = [item]

theorem priceItem_pair {f : Fields} {item : PriceItem} (h : priceItem f = .ok item) :
    item.pair = pairOf f := by
  unfold priceItem at h
  cases hbid : floatAt f "bid" with
  | error x => simp [hbid, bind, Except.bind] at h
  | ok bid =>
    cases hask : floatAt f "ask" with
    | error x => simp [hbid, hask, bind, Except.bind] at h
    | ok ask =>
      simp only [hbid, hask, bind, Except.bind, Except.ok.injEq] at h
      obtain rfl := h
      rfl

/-- The loop reads all the entries, keeps what it holds and adds the first entry of each other
pair. -/
theorem latestPrices_spec {entries : List Fields} (hwf : ∀ f ∈ entries, WellFormedTick f)
    {latest : List (Pair × PriceItem)} (hkeyed : Keyed latest) :
    ∃ result, latestPrices entries latest = .ok result ∧ Keyed result ∧
      ∀ pair,
        (pair ∈ latest.map Prod.fst → itemsOf pair result = itemsOf pair latest) ∧
        (pair ∉ latest.map Prod.fst →
          match entries.find? (fun f => pairOf f = pair) with
          | none => itemsOf pair result = []
          | some f => ∃ item, priceItem f = .ok item ∧ itemsOf pair result = [item]) := by
  induction entries generalizing latest with
  | nil => exact ⟨latest, rfl, hkeyed, fun pair => ⟨fun _ => rfl, fun hp => hkeyed.itemsOf_eq_nil hp⟩⟩
  | cons f rest ih =>
    have hrest := fun g hg => hwf g (List.mem_cons_of_mem _ hg)
    by_cases hf : pairOf f ∈ latest.map Prod.fst
    · obtain ⟨result, hresult, hkeyed', hitems⟩ := ih hrest hkeyed
      refine ⟨result, by rw [latestPrices, if_pos hf, hresult], hkeyed', fun pair => ?_⟩
      refine ⟨(hitems pair).1, fun hp => ?_⟩
      have hne : pairOf f ≠ pair := fun heq => hp (heq ▸ hf)
      rw [List.find?_cons_of_neg (by simpa using hne)]
      exact (hitems pair).2 hp
    · obtain ⟨item, hitem⟩ := hwf f List.mem_cons_self
      have hpair := priceItem_pair hitem
      have hkeyed₁ : Keyed (latest ++ [(pairOf f, item)]) := by
        intro kv hkv
        rcases List.mem_append.mp hkv with hkv | hkv
        · exact hkeyed kv hkv
        · rw [List.mem_singleton.mp hkv]
          exact hpair
      obtain ⟨result, hresult, hkeyed', hitems⟩ := ih hrest hkeyed₁
      refine ⟨result, by rw [latestPrices, if_neg hf, hitem]; exact hresult, hkeyed',
        fun pair => ?_⟩
      by_cases heq : pairOf f = pair
      · subst heq
        refine ⟨fun hp => absurd hp hf, fun _ => ?_⟩
        have hheld := (hitems (pairOf f)).1 (by simp)
        have hold := hkeyed.itemsOf_eq_nil hf
        rw [List.find?_cons_of_pos (by simp)]
        refine ⟨item, hitem, ?_⟩
        rw [hheld]
        simp only [itemsOf] at hold ⊢
        rw [List.map_append, List.filter_append, hold]
        simp [hpair]
      · have hsame : itemsOf pair (latest ++ [(pairOf f, item)]) = itemsOf pair latest := by
          simp [itemsOf, hpair, heq]
        have hmem : pair ∈ (latest ++ [(pairOf f, item)]).map Prod.fst ↔
            pair ∈ latest.map Prod.fst := by
          simp [Ne.symm heq]
        rw [List.find?_cons_of_neg (by simpa using heq)]
        refine ⟨fun hp => ?_, fun hp => (hitems pair).2 (mt hmem.mp hp)⟩
        rw [(hitems pair).1 (hmem.mpr hp), hsame]

theorem pricesRound_spec {stream : List Fields} (hwf : ∀ f ∈ stream, WellFormedTick f) :
    ∃ snapshot : List PriceItem,
      (∀ pair, match (stream.reverse.take 80).find? (fun f => pairOf f = pair) with
        | none => snapshot.filter (fun i => i.pair = pair) = []
        | some f => ∃ item, priceItem f = .ok item ∧
            snapshot.filter (fun i => i.pair = pair) = [item]) ∧
      ∀ clients, pricesRound clients stream =
        .ok (if clients = 0 ∨ snapshot = [] then none else some snapshot) := by
  have hwindow : ∀ f ∈ stream.reverse.take 80, WellFormedTick f := fun f hf =>
    hwf f (List.mem_reverse.mp (List.mem_of_mem_take hf))
  have hempty : Keyed ([] : List (Pair × PriceItem)) := by simp [Keyed]
  obtain ⟨result, hresult, -, hitems⟩ := latestPrices_spec hwindow hempty
  refine ⟨result.map Prod.snd, fun pair => (hitems pair).2 (by simp), fun clients => ?_⟩
  by_cases hclients : clients = 0
  · simp [pricesRound, hclients]
  · by_cases hnone : result = []
    · simp [pricesRound, hclients, hresult, hnone, bind, Except.bind]
    · simp [pricesRound, hclients, hresult, hnone, bind, Except.bind]

/-- The snapshots are complete if and only if each pair of the stream is among its last 80
entries. -/
theorem pricesRound_complete (stream : List Fields) (hwf : ∀ f ∈ stream, WellFormedTick f) :
    (∀ clients snapshot, pricesRound clients stream = .ok (some snapshot) →
      CompleteSnapshot stream snapshot) ↔ AllRecent stream := by
  obtain ⟨snapshot, hitems, hround⟩ := pricesRound_spec hwf
  constructor
  · intro h f hf
    -- something is broadcast, since the last entry is in the window
    have hne : snapshot ≠ [] := by
      intro hnone
      cases hlast : stream.reverse.take 80 with
      | nil =>
        have hlength := congrArg List.length hlast
        rw [List.length_take, List.length_reverse, List.length_nil] at hlength
        have := List.length_pos_of_mem hf
        omega
      | cons g rest =>
        have hfirst := hitems (pairOf g)
        rw [hlast, List.find?_cons_of_pos (by simp), hnone] at hfirst
        obtain ⟨item, -, hitem⟩ := hfirst
        cases hitem
    have hbroadcast : pricesRound 1 stream = .ok (some snapshot) := by
      rw [hround 1, if_neg (by simp [hne])]
    obtain ⟨-, item, -, -, hitem⟩ := h 1 snapshot hbroadcast f hf
    by_contra hold
    have hnone : (stream.reverse.take 80).find? (fun g => pairOf g = pairOf f) = none := by
      rw [List.find?_eq_none]
      intro g hg hpair
      exact hold ⟨g, hg, of_decide_eq_true hpair⟩
    have hmissing := hitems (pairOf f)
    rw [hnone] at hmissing
    rw [hmissing] at hitem
    cases hitem
  · intro h clients served hserved f hf
    rw [hround clients] at hserved
    split at hserved
    · cases hserved
    · obtain rfl := Option.some.inj (Except.ok.inj hserved)
      obtain ⟨g, hg, hpair⟩ := h f hf
      have hfound := hitems (pairOf f)
      cases hfind : (stream.reverse.take 80).find? (fun k => pairOf k = pairOf f) with
      | none => exact absurd hpair (by simpa using List.find?_eq_none.mp hfind g hg)
      | some recent =>
        rw [hfind] at hfound
        obtain ⟨item, hitem, hone⟩ := hfound
        exact ⟨recent, item, mostRecent_of_window hfind, hitem, hone⟩

end

@[reducible] def snapshotText : PyText := PyText.ofTables [("99.5", 199 / 2), ("100.5", 201 / 2)] []

def sampleQuote (exchange symbol : String) : Fields :=
  [("exchange", exchange), ("symbol", symbol), ("bid", "99.5"), ("ask", "100.5")]

theorem sampleQuote_wellFormed (exchange symbol : String) :
    @WellFormedTick snapshotText (sampleQuote exchange symbol) :=
  ⟨⟨some exchange, some symbol, 199 / 2, 201 / 2⟩, rfl⟩

/-- Two pairs, both among the last entries. -/
theorem pricesRound_complete_two :
    AllRecent [sampleQuote "bybit" "BTC/USDT", sampleQuote "kucoin" "ETH/USDT"] ∧
    ∀ clients snapshot, @pricesRound snapshotText clients
      [sampleQuote "bybit" "BTC/USDT", sampleQuote "kucoin" "ETH/USDT"] = .ok (some snapshot) →
        @CompleteSnapshot snapshotText [sampleQuote "bybit" "BTC/USDT", sampleQuote "kucoin" "ETH/USDT"]
          snapshot := by
  have hrecent : AllRecent [sampleQuote "bybit" "BTC/USDT", sampleQuote "kucoin" "ETH/USDT"] :=
    fun f hf => ⟨f, by simpa [or_comm] using hf, rfl⟩
  refine ⟨hrecent, (@pricesRound_complete snapshotText _ fun f hf => ?_).mpr hrecent⟩
  rcases List.mem_cons.mp hf with rfl | hf
  · exact sampleQuote_wellFormed _ _
  · rw [List.mem_singleton.mp hf]
    exact sampleQuote_wellFormed _ _

/-- After 80 ticks of another pair the pair is gone from the snapshot. -/
theorem pricesRound_seldom :
    ¬∀ clients snapshot, @pricesRound snapshotText clients
      (sampleQuote "kucoin" "ETH/USDT" :: List.replicate 80 (sampleQuote "bybit" "BTC/USDT")) =
        .ok (some snapshot) →
      @CompleteSnapshot snapshotText
        (sampleQuote "kucoin" "ETH/USDT" :: List.replicate 80 (sampleQuote "bybit" "BTC/USDT"))
        snapshot := by
  intro h
  have hround : @pricesRound snapshotText 1
      (sampleQuote "kucoin" "ETH/USDT" :: List.replicate 80 (sampleQuote "bybit" "BTC/USDT")) =
      .ok (some [⟨some "bybit", some "BTC/USDT", 199 / 2, 201 / 2⟩]) := by
    decide +kernel
  obtain ⟨-, item, -, -, hitem⟩ := h 1 _ hround _ List.mem_cons_self
  have hnone : ([⟨some "bybit", some "BTC/USDT", 199 / 2, 201 / 2⟩] : List PriceItem).filter
      (fun i => i.pair = pairOf (sampleQuote "kucoin" "ETH/USDT")) = [] := by
    decide +kernel
  rw [hnone] at hitem
  cases hitem

end CriptoParser
