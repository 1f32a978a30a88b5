import CriptoParser.OpportunityDedup
import CriptoParser.SpreadProfit

/-!
Where the prices of a published opportunity come from. Depths are checked for their age, against
the clock at the start of the scan; the quotes of the price table carry no time and are used
however old they are.
-/

set_option autoImplicit false

namespace CriptoParser

open Await Streams

def quotesAfter (books : String → List (String × Quote)) (es : List (Event Service)) :
    String → List (String × Quote) :=
  es.foldl (fun books e =>
    match e.call with
    | .putQuote symbol exchange quote =>
      Function.update books symbol (dictSet exchange quote (books symbol))
    | _ => books) books

theorem serve_books (c : Call) (w : World) :
    (World.serve c w).2.books = quotesAfter w.books [⟨c, (World.serve c w).1⟩] := by
  rw [serve_snd]
  cases c with
  | putQuote symbol exchange quote =>
    rw [serve_local rfl]
    rfl
  | _ => split <;> rfl

theorem follows_books {w w' : World} {es : List (Event Service)}
    (h : Follows World.serve w es w') : w'.books = quotesAfter w.books es := by
  induction es generalizing w with
  | nil =>
    cases h
    rfl
  | cons e es ih =>
    obtain ⟨-, h⟩ := h
    rw [ih h, serve_books]
    rfl

def Call.afterTicks : Call → Prop
  | .xreadgroup _ _ _ | .putQuote _ _ _ => False
  | _ => True

theorem Call.scans.afterTicks {c : Call} (h : c.scans) : c.afterTicks := by
  cases c <;> trivial

theorem quotesAfter_still {books : String → List (String × Quote)} {es : List (Event Service)}
    (h : ∀ e ∈ es, e.call.afterTicks) : quotesAfter books es = books := by
  induction es with
  | nil => rfl
  | cons e es ih =>
    have he := h e List.mem_cons_self
    have hrest := ih fun d hd => h d (List.mem_cons_of_mem _ hd)
    obtain ⟨c, v⟩ := e
    cases c <;> first | exact hrest | exact he.elim

theorem getD_pos {x : Option ℚ} {q : ℚ} (h : x.getD 0 = q) (hq : 0 < q) : x = some q := by
  cases x with
  | none =>
    rw [← h] at hq
    exact absurd hq (lt_irrefl 0)
  | some y => exact congrArg some h

theorem claimNew_subset {ttl : ℚ} {opps found : List Opportunity} {es : List (Event Service)}
    (h : (claimNew ttl opps).Ends es (.ok found)) : found ⊆ opps := by
  induction opps generalizing es found with
  | nil =>
    obtain ⟨-, hfound⟩ := (Prog.ends_pure _ _ _).mp h
    obtain rfl := Except.ok.inj hfound
    exact List.Subset.refl _
  | cons opp rest ih =>
    rw [claimNew, Prog.bind_eq, Prog.ends_bind] at h
    rcases h with ⟨new, es₁, es₂, rfl, -, h⟩ | ⟨x, -, hx⟩
    · rw [Prog.bind_eq, Prog.ends_bind] at h
      rcases h with ⟨more, es₃, es₄, rfl, h₃, h₄⟩ | ⟨x, -, hx⟩
      · obtain ⟨-, hfound⟩ := (Prog.ends_pure _ _ _).mp h₄
        obtain rfl := Except.ok.inj hfound
        have hmore := ih h₃
        cases new with
        | true => exact List.cons_subset_cons _ hmore
        | false => exact List.subset_cons_of_subset _ hmore
      · cases hx
    · cases hx

section
variable [PyText]

def depthAt (nowMs : ℤ) (raws : String → Option String) (exchange symbol : String) :
    Option Depth :=
  match parseDepth (raws (depthKey exchange symbol)) with
  | .ok (some d) => if isFresh (some d) nowMs depthMaxAgeMs then some d else none
  | _ => none

theorem depthAt_fresh {nowMs : ℤ} {raws : String → Option String} {exchange symbol : String}
    {d : Depth} (h : depthAt nowMs raws exchange symbol = some d) :
    nowMs - d.ts ≤ depthMaxAgeMs := by
  unfold depthAt at h
  split at h
  · split at h
    · rename_i hfresh
      obtain rfl := Option.some.inj h
      simpa [isFresh] using hfresh
    · cases h
  · cases h

theorem freshDepths_lookup {symbol : String} {nowMs : ℤ} {raws : String → Option String}
    {book : List (String × Quote)} {depth : List (String × Depth)}
    (h : freshDepths symbol nowMs raws book = .ok depth) (ex : String) :
    depth.lookup ex = if ex ∈ book.map Prod.fst then depthAt nowMs raws ex symbol else none := by
  induction book generalizing depth with
  | nil =>
    obtain rfl := Except.ok.inj h
    rfl
  | cons first rest ih =>
    obtain ⟨exchange, quote⟩ := first
    unfold freshDepths at h
    cases hp : parseDepth (raws (depthKey exchange symbol)) with
    | error x => simp [hp, bind, Except.bind] at h
    | ok parsed =>
      cases hm : freshDepths symbol nowMs raws rest with
      | error x => simp [hp, hm, bind, Except.bind] at h
      | ok more =>
        have hmore := ih hm
        have hat : depthAt nowMs raws exchange symbol = parsed.bind fun d =>
            if isFresh (some d) nowMs depthMaxAgeMs then some d else none := by
          cases parsed <;> simp [depthAt, hp]
        simp only [hp, hm, bind, Except.bind] at h
        by_cases hex : ex = exchange
        · subst hex
          have hstale : depthAt nowMs raws ex symbol = none → more.lookup ex = none := by
            intro hnone
            rw [hmore, hnone, ite_self]
          rw [if_pos (by simp), hat]
          cases parsed with
          | none =>
            obtain rfl := Except.ok.inj h
            exact hstale hat
          | some d =>
            obtain rfl := Except.ok.inj h
            by_cases hfresh : isFresh (some d) nowMs depthMaxAgeMs = true
            · simp [hfresh]
            · simp only [Option.bind_some, if_neg hfresh] at hat ⊢
              exact hstale hat
        · have hmem : (ex ∈ List.map Prod.fst ((exchange, quote) :: rest)) ↔
              ex ∈ rest.map Prod.fst := by simp [hex]
          have hskip : depth.lookup ex = more.lookup ex := by
            have hne : (ex == exchange) = false := by simpa using hex
            cases parsed with
            | none =>
              obtain rfl := Except.ok.inj h
              rfl
            | some d =>
              obtain rfl := Except.ok.inj h
              by_cases hfresh : isFresh (some d) nowMs depthMaxAgeMs = true
              · simp [hfresh, List.lookup_cons, hne]
              · simp [hfresh]
          rw [hskip, hmore]
          simp only [hmem]

/-- The prices of an opportunity: those of the walks over two fresh depths, or else the last
quotes of the two exchanges. -/
def PricedFrom (nowMs : ℤ) (book : List (String × Quote)) (raws : String → Option String)
    (notional : ℚ) (opp : Opportunity) : Prop :=
  ∃ buy ∈ book, ∃ sell ∈ book, buy.1 = opp.buyExchange ∧ sell.1 = opp.sellExchange ∧
    ((∃ buyDepth sellDepth amount,
        depthAt nowMs raws opp.buyExchange opp.symbol = some buyDepth ∧
        depthAt nowMs raws opp.sellExchange opp.symbol = some sellDepth ∧
        nowMs - buyDepth.ts ≤ depthMaxAgeMs ∧ nowMs - sellDepth.ts ≤ depthMaxAgeMs ∧
        walkAsksForNotional buyDepth.asks notional = .ok (some (amount, opp.buyPrice)) ∧
        walkBidsForAmount sellDepth.bids amount = .ok (some opp.sellPrice)) ∨
      (depthAt nowMs raws opp.buyExchange opp.symbol = none ∨
          depthAt nowMs raws opp.sellExchange opp.symbol = none) ∧
        buy.2.ask = some opp.buyPrice ∧ sell.2.bid = some opp.sellPrice)

theorem calculateSpreads_priced {symbol : String} {nowMs now : ℤ} {raws : String → Option String}
    {book : List (String × Quote)} {depth : List (String × Depth)} {minSpread notional : ℚ}
    {opps : List Opportunity} {opp : Opportunity}
    (hdepth : freshDepths symbol nowMs raws book = .ok depth)
    (h : calculateSpreads symbol book minSpread notional depth now = .ok opps)
    (hopp : opp ∈ opps) :
    opp.symbol = symbol ∧ opp.detectedAt = now ∧ PricedFrom nowMs book raws notional opp := by
  obtain ⟨buy, hbuy, sell, hsell, -, hroute⟩ := buyLoop_mem h hopp
  obtain ⟨buyPrice, sellPrice, hprices, -, hr⟩ := spreadRoute_routed hroute
  obtain ⟨hof, -, hposb, hposs, -⟩ := routeOpportunity_spec hr
  have hbuy' := (List.mem_filter.mp hbuy).1
  have hsell' := (List.mem_filter.mp hsell).1
  rw [freshDepths_lookup hdepth, freshDepths_lookup hdepth,
    if_pos (List.mem_map_of_mem hbuy'), if_pos (List.mem_map_of_mem hsell')] at hprices
  have hb := hof.buyExchange
  have hs := hof.sellExchange
  have hsym := hof.symbol_eq
  refine ⟨hsym, hof.detectedAt, buy, hbuy', sell, hsell', hb.symm, hs.symm, ?_⟩
  rw [hb, hs, hsym, hof.buyPrice_eq, hof.sellPrice_eq]
  have hquotes : Except.ok (some (buy.2.ask.getD 0, sell.2.bid.getD 0)) =
      (.ok (some (buyPrice, sellPrice)) : Except PyExc _) →
      buy.2.ask = some buyPrice ∧ sell.2.bid = some sellPrice := by
    intro hq
    obtain ⟨hask, hbid⟩ := Prod.mk.inj (Option.some.inj (Except.ok.inj hq))
    exact ⟨getD_pos hask hposb, getD_pos hbid hposs⟩
  cases hbd : depthAt nowMs raws buy.1 symbol with
  | none =>
    rw [hbd] at hprices
    exact .inr ⟨.inl rfl, hquotes hprices⟩
  | some buyDepth =>
    cases hsd : depthAt nowMs raws sell.1 symbol with
    | none =>
      rw [hbd, hsd] at hprices
      exact .inr ⟨.inr rfl, hquotes hprices⟩
    | some sellDepth =>
      rw [hbd, hsd] at hprices
      obtain ⟨amount, hasks, hbids⟩ := routePrices_walks hprices
      exact .inl ⟨buyDepth, sellDepth, amount, rfl, rfl, depthAt_fresh hbd, depthAt_fresh hsd,
        hasks, hbids⟩

/-- What a scan has read when it publishes an opportunity: the clock at its start, the symbols
before, and for the symbol itself the table, the depth keys, the settings and the clock again. -/
structure ScanReading where
  now : ℚ
  updated : List String
  symbols : List String
  others : List (Event Service)
  book : List (String × Quote)
  raws : String → Option String
  chosen : ℚ × ℚ
  detected : ℚ
  later : List (Event Service)

def ScanReading.symbolEvents (r : ScanReading) (symbol : String) : List (Event Service) :=
  ⟨.book symbol, .ok r.book⟩ ::
    ⟨.mget (r.book.map fun quote => depthKey quote.1 symbol), .ok r.raws⟩ ::
    ⟨.scanSettings, .ok r.chosen⟩ :: ⟨.time, .ok r.detected⟩ :: r.later

def ScanReading.events (r : ScanReading) (symbol : String) : List (Event Service) :=
  ⟨.time, .ok r.now⟩ :: ⟨.setOrder r.updated, .ok r.symbols⟩ ::
    (r.others ++ r.symbolEvents symbol)

/-- What is published after `before` comes from a scan of the iteration under way. -/
def Sourced (before : List (Event Service)) (fields : Fields) : Prop :=
  ∃ (earlier : List (Event Service)) (r : ScanReading) (opp : Opportunity),
    before = earlier ++ r.events opp.symbol ∧ fields = opp.toRedis ∧
      opp.detectedAt = pyInt (r.detected * 1000) ∧
      (∀ e ∈ r.others, e.call.afterTicks) ∧ (∀ e ∈ r.later, e.call.afterTicks) ∧
      PricedFrom (pyInt (r.now * 1000)) r.book r.raws r.chosen.2 opp

theorem Sourced.prepend {before : List (Event Service)} {fields : Fields}
    (h : Sourced before fields) (es : List (Event Service)) : Sourced (es ++ before) fields := by
  obtain ⟨earlier, r, opp, rfl, hrest⟩ := h
  exact ⟨es ++ earlier, r, opp, by rw [List.append_assoc], hrest⟩

def ReadFor (nowMs : ℤ) (es : List (Event Service)) (opp : Opportunity) : Prop :=
  ∃ r : ScanReading, es = r.others ++ r.symbolEvents opp.symbol ∧
    opp.detectedAt = pyInt (r.detected * 1000) ∧ (∀ e ∈ r.others, e.call.afterTicks) ∧
    (∀ e ∈ r.later, e.call.afterTicks) ∧ PricedFrom nowMs r.book r.raws r.chosen.2 opp

theorem scanSymbol_reads {ttl : ℚ} {nowMs : ℤ} {symbol : String} {found : List Opportunity}
    {es : List (Event Service)} (h : (scanSymbol ttl nowMs symbol).Ends es (.ok found)) :
    ∀ opp ∈ found, ReadFor nowMs es opp := by
  rcases (Prog.ends_call_bind _ _ _ _).mp h with ⟨book, es₁, rfl, h₁⟩ | ⟨x, -, hx⟩
  · rw [Prog.bind_eq, Prog.ends_bind] at h₁
    rcases h₁ with ⟨raws, es₂, es₃, rfl, hraws, h₃⟩ | ⟨x, -, hx⟩
    · rcases (Prog.ends_lift_bind _ _ _ _).mp h₃ with ⟨depth, hdepth, h₄⟩ | ⟨x, -, -, hx⟩
      · rcases (Prog.ends_call_bind _ _ _ _).mp h₄ with ⟨chosen, es₄, rfl, h₅⟩ | ⟨x, -, hx⟩
        · rcases (Prog.ends_call_bind _ _ _ _).mp h₅ with ⟨now, es₅, rfl, h₆⟩ | ⟨x, -, hx⟩
          · rcases (Prog.ends_lift_bind _ _ _ _).mp h₆ with ⟨opps, hopps, h₇⟩ | ⟨x, -, -, hx⟩
            · intro opp hopp
              have hlater := ((claimNew_scans ttl opps).mono fun _ hc => hc.afterTicks).ends h₇
              obtain ⟨hsym, hdet, hpriced⟩ :=
                calculateSpreads_priced hdepth hopps (claimNew_subset h₇ hopp)
              have hbook : book.isEmpty = false := by
                obtain ⟨buy, hbuy, -⟩ := hpriced
                cases book with
                | nil => cases hbuy
                | cons b rest => rfl
              rw [readDepths, hbook, if_neg Bool.false_ne_true] at hraws
              obtain ⟨v, es', rfl, rfl, hv⟩ := hraws
              refine ⟨⟨0, [], [], [], book, raws, chosen, now, es₅⟩, ?_, hdet, by simp, hlater,
                hpriced⟩
              rw [← hv, hsym]
              rfl
            · cases hx
          · cases hx
        · cases hx
      · cases hx
    · cases hx
  · cases hx

theorem scanSymbols_reads {ttl : ℚ} {nowMs : ℤ} {symbols : List String}
    {found : List Opportunity} {es : List (Event Service)}
    (h : (scanSymbols ttl nowMs symbols).Ends es (.ok found)) :
    ∀ opp ∈ found, ReadFor nowMs es opp := by
  induction symbols generalizing es found with
  | nil =>
    obtain ⟨-, hfound⟩ := (Prog.ends_pure _ _ _).mp h
    obtain rfl := Except.ok.inj hfound
    simp
  | cons symbol rest ih =>
    rw [scanSymbols, Prog.bind_eq, Prog.ends_bind] at h
    rcases h with ⟨first, es₁, es₂, rfl, h₁, h⟩ | ⟨x, -, hx⟩
    · rw [Prog.bind_eq, Prog.ends_bind] at h
      rcases h with ⟨more, es₃, es₄, rfl, h₃, h₄⟩ | ⟨x, -, hx⟩
      · obtain ⟨rfl, hfound⟩ := (Prog.ends_pure _ _ _).mp h₄
        obtain rfl := Except.ok.inj hfound
        rw [List.append_nil]
        have hrest := (scanSymbols_scans ttl nowMs rest).ends h₃
        intro opp hopp
        rcases List.mem_append.mp hopp with hopp | hopp
        · obtain ⟨r, rfl, hdet, hothers, hlater, hpriced⟩ := scanSymbol_reads h₁ opp hopp
          refine ⟨{ r with later := r.later ++ es₃ }, ?_, hdet, hothers, ?_, hpriced⟩
          · simp [ScanReading.symbolEvents]
          · intro e he
            rcases List.mem_append.mp he with he | he
            · exact hlater e he
            · exact (hrest e he).afterTicks
        · obtain ⟨r, rfl, hdet, hothers, hlater, hpriced⟩ := ih h₃ opp hopp
          refine ⟨{ r with others := es₁ ++ r.others }, ?_, hdet, ?_, hlater, hpriced⟩
          · simp [ScanReading.symbolEvents]
          · intro e he
            rcases List.mem_append.mp he with he | he
            · exact ((scanSymbol_scans ttl nowMs symbol).ends h₁ e he).afterTicks
            · exact hothers e he
      · cases hx
    · cases hx

/-- Where an entry of the stream of opportunities is added, `Sourced` holds before it. -/
def AllSourced (es : List (Event Service)) : Prop :=
  ∀ before fields reply after,
    es = before ++ ⟨.xadd opportunitiesStream fields, reply⟩ :: after → Sourced before fields

theorem AllSourced.append {es fs : List (Event Service)} (h : AllSourced es)
    (h' : AllSourced fs) : AllSourced (es ++ fs) := by
  intro before fields reply after heq
  rcases append_eq_append_cons heq with ⟨rest, hes⟩ | ⟨c, rfl, hfs⟩
  · exact h before fields reply rest hes
  · exact (h' c fields reply after hfs).prepend es

theorem allSourced_silent {es : List (Event Service)}
    (h : ∀ e ∈ es, ∀ stream fields, e.call ≠ .xadd stream fields) : AllSourced es := by
  intro before fields reply after heq
  have hmem : (⟨.xadd opportunitiesStream fields, reply⟩ : Event Service) ∈ es := by
    rw [heq]
    simp
  exact absurd rfl (h _ hmem opportunitiesStream fields)

theorem settleScan_adds {entries : List (Entry Fields)} {found : List Opportunity}
    {es : List (Event Service)} {r : Except PyExc Unit}
    (h : (settleScan entries found).Ends es r) {e : Event Service} (he : e ∈ es) {fields : Fields}
    (hcall : e.call = .xadd opportunitiesStream fields) : ∃ opp ∈ found, fields = opp.toRedis := by
  have hadds : ∀ {fs : List (Event Service)} {q : Except PyExc Unit},
      (awaitIf (!found.isEmpty) (publishAndStore found)).Ends fs q → e ∈ fs →
        ∃ opp ∈ found, fields = opp.toRedis := by
    intro fs q hfs hmem
    rcases (ends_awaitIf _ _ _ _).mp hfs with ⟨-, hstore⟩ | ⟨-, rfl, -⟩
    · rw [publishAndStore, Prog.bind_eq, Prog.ends_bind] at hstore
      have hpublished : ∀ {gs : List (Event Service)} {q' : Except PyExc Unit},
          (publishOpportunities found).Ends gs q' → e ∈ gs →
            ∃ opp ∈ found, fields = opp.toRedis := by
        intro gs q' hgs hmem
        obtain ⟨opp, hopp, heq⟩ := publishOpportunities_adds hgs e hmem
        rw [hcall] at heq
        cases heq
        exact ⟨opp, hopp, rfl⟩
      rcases hstore with ⟨u, es₁, es₂, rfl, h₁, h₂⟩ | ⟨x, h₁, -⟩
      · rcases List.mem_append.mp hmem with hmem | hmem
        · exact hpublished h₁ hmem
        · obtain ⟨a, es', rfl, rfl, -⟩ := h₂
          obtain rfl := List.mem_singleton.mp hmem
          cases hcall
      · exact hpublished h₁ hmem
    · cases hmem
  rw [settleScan, Prog.bind_eq, Prog.ends_bind] at h
  rcases h with ⟨u, es₁, es₂, rfl, h₁, h₂⟩ | ⟨x, h₁, -⟩
  · rcases List.mem_append.mp he with he | he
    · exact hadds h₁ he
    · rcases (ends_awaitIf _ _ _ _).mp h₂ with ⟨-, a, es', rfl, rfl, -⟩ | ⟨-, rfl, -⟩
      · obtain rfl := List.mem_singleton.mp he
        cases hcall
      · cases he
  · exact hadds h₁ he

theorem settleScan_afterTicks (entries : List (Entry Fields)) (found : List Opportunity) :
    (settleScan entries found).Uses Call.afterTicks := by
  refine (settleScan_uses entries found).mono fun c hc => ?_
  cases c <;> trivial

theorem settled_sourced {ttl now : ℚ} {updated symbols : List String} {found : List Opportunity}
    {entries : List (Entry Fields)} {es fs : List (Event Service)} {r : Except PyExc Unit}
    (h : (scanSymbols ttl (pyInt (now * 1000)) symbols).Ends es (.ok found))
    (h' : (settleScan entries found).Ends fs r) :
    AllSourced (⟨.time, .ok now⟩ :: ⟨.setOrder updated, .ok symbols⟩ :: (es ++ fs)) := by
  have hscan := (scanSymbols_scans ttl (pyInt (now * 1000)) symbols).ends h
  intro before fields reply after heq
  have hsplit : (⟨.time, .ok now⟩ :: ⟨.setOrder updated, .ok symbols⟩ :: es) ++ fs =
      before ++ ⟨.xadd opportunitiesStream fields, reply⟩ :: after := heq
  rcases append_eq_append_cons hsplit with ⟨rest, hes⟩ | ⟨c, rfl, hfs⟩
  · have hmem : (⟨.xadd opportunitiesStream fields, reply⟩ : Event Service) ∈
        ⟨.time, .ok now⟩ :: ⟨.setOrder updated, .ok symbols⟩ :: es := by
      rw [hes]
      simp
    rcases List.mem_cons.mp hmem with heq | hmem
    · cases heq
    · rcases List.mem_cons.mp hmem with heq | hmem
      · cases heq
      · exact (hscan _ hmem).elim
  · have hafter := (settleScan_afterTicks entries found).ends h'
    have hmem : (⟨.xadd opportunitiesStream fields, reply⟩ : Event Service) ∈ fs := by
      rw [hfs]
      simp
    obtain ⟨opp, hopp, hfields⟩ := settleScan_adds h' hmem rfl
    obtain ⟨r, rfl, hdet, hothers, hlater, hpriced⟩ := scanSymbols_reads h opp hopp
    refine ⟨[], ⟨now, updated, symbols, r.others, r.book, r.raws, r.chosen, r.detected,
      r.later ++ c⟩, opp, ?_, hfields, hdet, hothers, ?_, hpriced⟩
    · simp [ScanReading.events, ScanReading.symbolEvents]
    · intro e he
      rcases List.mem_append.mp he with he | he
      · exact hlater e he
      · refine hafter e ?_
        rw [hfs]
        exact List.mem_append_left _ he

theorem scanTicks_sourced {ttl : ℚ} {entries : List (Entry Fields)} {es : List (Event Service)}
    {r : Except PyExc Unit} (h : (scanTicks ttl entries).Ends es r) : AllSourced es := by
  have hticks : ∀ {fs : List (Event Service)} {q : Except PyExc (List String)},
      (readTicks entries []).Ends fs q → AllSourced fs := by
    refine fun hfs => allSourced_silent fun e he stream fields hcall => ?_
    have hsilent := (readTicks_silent entries []).ends hfs e he
    rw [hcall] at hsilent
    cases hsilent
  have hscan : ∀ {now : ℚ} {symbols : List String} {fs : List (Event Service)}
      {q : Except PyExc (List Opportunity)},
      (scanSymbols ttl (pyInt (now * 1000)) symbols).Ends fs q → AllSourced fs := by
    refine fun hfs => allSourced_silent fun e he stream fields hcall => ?_
    have hscans := (scanSymbols_scans ttl _ _).ends hfs e he
    rw [hcall] at hscans
    exact hscans
  rw [scanTicks, Prog.bind_eq, Prog.ends_bind] at h
  rcases h with ⟨found, es₁, es₂, rfl, h₁, h₂⟩ | ⟨x, h₁, -⟩
  · rw [scanBatch, Prog.bind_eq, Prog.ends_bind] at h₁
    rcases h₁ with ⟨updated, fs₁, fs₂, rfl, hread, hrest⟩ | ⟨x, -, hx⟩
    · rcases (Prog.ends_call_bind _ _ _ _).mp hrest with ⟨now, fs₃, rfl, horder⟩ | ⟨x, -, hx⟩
      · rcases (Prog.ends_call_bind _ _ _ _).mp horder with ⟨symbols, fs₄, rfl, hs⟩ | ⟨x, -, hx⟩
        · rw [List.append_assoc]
          exact (hticks hread).append (settled_sourced hs h₂)
        · cases hx
      · cases hx
    · cases hx
  · rw [scanBatch, Prog.bind_eq, Prog.ends_bind] at h₁
    rcases h₁ with ⟨updated, fs₁, fs₂, rfl, hread, hrest⟩ | ⟨y, hread, -⟩
    · refine (hticks hread).append ?_
      rcases (Prog.ends_call_bind _ _ _ _).mp hrest with ⟨now, fs₃, rfl, horder⟩ | ⟨y, rfl, -⟩
      · rcases (Prog.ends_call_bind _ _ _ _).mp horder with ⟨symbols, fs₄, rfl, hs⟩ | ⟨y, rfl, -⟩
        · have htwo : AllSourced [(⟨.time, .ok now⟩ : Event Service),
              ⟨.setOrder updated, .ok symbols⟩] := allSourced_silent (by simp)
          exact htwo.append (hscan hs)
        · exact allSourced_silent (by simp)
      · exact allSourced_silent (by simp)
    · exact hticks hread

theorem scanOnce_sourced {ttl : ℚ} {es : List (Event Service)} {r : Except PyExc Unit}
    (h : (scanOnce ttl).Ends es r) : AllSourced es := by
  rcases (Prog.ends_call_bind _ _ _ _).mp h with ⟨resp, es', rfl, hrest⟩ | ⟨x, rfl, -⟩
  · have hread : AllSourced [(⟨.xreadgroup scannerGroup [pricesStream] 300, .ok resp⟩ :
        Event Service)] := allSourced_silent (by simp)
    cases resp with
    | nil =>
      obtain ⟨rfl, -⟩ := (Prog.ends_pure _ _ _).mp hrest
      exact hread
    | cons first rest => exact hread.append (scanTicks_sourced hrest)
  · exact allSourced_silent (by simp)

theorem scanLoop_sourced {ttl : ℚ} {n : ℕ} {es : List (Event Service)} {r : Except PyExc Unit}
    (h : (scanLoop ttl n).Ends es r) : AllSourced es := by
  have hpass : ∀ {es : List (Event Service)} {r : Except PyExc Unit},
      (loopPass (scanOnce ttl)).Ends es r → AllSourced es := by
    intro es r h
    obtain ⟨es₁, es₂, q, rfl, hbody, hsleep⟩ := loopPass_ends h
    refine (scanOnce_sourced hbody).append (allSourced_silent fun e he => ?_)
    rw [hsleep e he]
    exact fun _ _ => nofun
  induction n generalizing es with
  | zero =>
    obtain ⟨rfl, -⟩ := (Prog.ends_pure _ _ _).mp h
    exact allSourced_silent (by simp)
  | succ n ih =>
    rw [scanLoop, loopFor, Prog.bind_eq, Prog.ends_bind] at h
    rcases h with ⟨u, es₁, es₂, rfl, h₁, h₂⟩ | ⟨x, h₁, -⟩
    · exact (hpass h₁).append (ih h₂)
    · exact hpass h₁

/-- Every entry that a run of the scanner adds to the stream of opportunities is that of an
opportunity of the iteration under way. Its prices are those of the two depths, no older than the
limit at the start of the scan, where both exchanges have such a depth; otherwise they are the ask
and the bid of the last tick of each exchange that was read, in this iteration or in any before. -/
def KnownSources (w : World) (log : List (Event Service)) : Prop :=
  ∀ before fields reply after,
    log = before ++ ⟨.xadd opportunitiesStream fields, reply⟩ :: after →
    ∃ (earlier : List (Event Service)) (r : ScanReading) (opp : Opportunity),
      before = earlier ++ r.events opp.symbol ∧ fields = opp.toRedis ∧
        opp.detectedAt = pyInt (r.detected * 1000) ∧
        (∀ e ∈ r.others, e.call.afterTicks) ∧ (∀ e ∈ r.later, e.call.afterTicks) ∧
        r.book = quotesAfter w.books earlier opp.symbol ∧
        PricedFrom (pyInt (r.now * 1000)) r.book r.raws r.chosen.2 opp

theorem scanLoop_sources (ttl : ℚ) (n : ℕ) (w : World) :
    KnownSources w ((scanLoop ttl n).trace World.serve w) := by
  intro before fields reply after hlog
  have hsourced := scanLoop_sourced (Prog.ends_trace World.serve (scanLoop ttl n) w)
  obtain ⟨earlier, r, opp, rfl, hfields, hdet, hothers, hlater, hpriced⟩ :=
    hsourced before fields reply after hlog
  refine ⟨earlier, r, opp, rfl, hfields, hdet, hothers, hlater, ?_, hpriced⟩
  have hfollows := Prog.follows_trace World.serve (scanLoop ttl n) w
  rw [hlog, ScanReading.events, ScanReading.symbolEvents] at hfollows
  have hsplit : earlier ++ (⟨.time, .ok r.now⟩ :: ⟨.setOrder r.updated, .ok r.symbols⟩ ::
      (r.others ++ ⟨.book opp.symbol, .ok r.book⟩ ::
        ⟨.mget (r.book.map fun quote => depthKey quote.1 opp.symbol), .ok r.raws⟩ ::
        ⟨.scanSettings, .ok r.chosen⟩ :: ⟨.time, .ok r.detected⟩ :: r.later)) ++
      ⟨.xadd opportunitiesStream fields, reply⟩ :: after =
      (earlier ++ (⟨.time, .ok r.now⟩ :: ⟨.setOrder r.updated, .ok r.symbols⟩ :: r.others)) ++
      ⟨.book opp.symbol, .ok r.book⟩ ::
        (⟨.mget (r.book.map fun quote => depthKey quote.1 opp.symbol), .ok r.raws⟩ ::
        ⟨.scanSettings, .ok r.chosen⟩ :: ⟨.time, .ok r.detected⟩ :: r.later ++
        ⟨.xadd opportunitiesStream fields, reply⟩ :: after) := by simp
  rw [hsplit] at hfollows
  obtain ⟨m, hbefore, hbook⟩ := (follows_append _ _ _ _ _).mp hfollows
  have hreply : r.book = m.books opp.symbol :=
    Except.ok.inj (hbook.1.trans (serve_local rfl m))
  rw [hreply, follows_books hbefore]
  have hstill : quotesAfter (quotesAfter w.books earlier)
      (⟨.time, .ok r.now⟩ :: ⟨.setOrder r.updated, .ok r.symbols⟩ :: r.others) =
      quotesAfter w.books earlier := by
    refine quotesAfter_still fun e he => ?_
    rcases List.mem_cons.mp he with rfl | he
    · trivial
    · rcases List.mem_cons.mp he with rfl | he
      · trivial
      · exact hothers e he
  have happend : quotesAfter w.books (earlier ++
      (⟨.time, .ok r.now⟩ :: ⟨.setOrder r.updated, .ok r.symbols⟩ :: r.others)) =
      quotesAfter (quotesAfter w.books earlier)
        (⟨.time, .ok r.now⟩ :: ⟨.setOrder r.updated, .ok r.symbols⟩ :: r.others) :=
    List.foldl_append ..
  rw [happend, hstill]

end

/-- A tick with the time the collector received it at, in milliseconds. -/
def timedTick (exchange bid ask received : String) : String × Fields :=
  (pricesStream, [("exchange", exchange), ("symbol", "BTC/USDT"), ("bid", bid), ("ask", ask),
    ("received_at", received)])

/-- kucoin ticks once, in the first second, and falls silent; no depth is under any key. binance
ticks an hour later. -/
def silentOutside (n : ℕ) : Outside :=
  { (default : Outside) with
    clock := if n < 9 then 1 else 3600
    time := if n < 9 then 1 else 3600
    scanSettings := (3 / 10, 1000)
    arrivals :=
      if n = 0 then [timedTick "kucoin" "99.0" "100.0" "1000"]
      else if n = 9 then [timedTick "binance" "102.0" "103.0" "3600000"]
      else [] }

def silentWorld : World := World.start silentOutside

/-- The opportunity detected after an hour buys at the price kucoin had in the first second. -/
theorem dead_quote_published :
    (((@scanLoop quoteText 5 2).run World.serve silentWorld).2.streams pricesStream).entries =
        [(timedTick "kucoin" "99.0" "100.0" "1000").2,
          (timedTick "binance" "102.0" "103.0" "3600000").2] ∧
      ((((@scanLoop quoteText 5 2).run World.serve silentWorld).2.streams
        opportunitiesStream).entries.map fun fields =>
          (fields.lookup "buy_exchange", fields.lookup "buy_price",
            fields.lookup "detected_at")) =
        [(some "kucoin", some "100.0", some "3600000")] := by
  decide +kernel

end CriptoParser
