import CriptoParser.AwaitTasks
import CriptoParser.ScannerHistory

set_option autoImplicit false

namespace CriptoParser

open Await Streams Expiry

namespace Opportunity

def SameRoute (a b : Opportunity) : Prop := a.symbol = b.symbol ∧ a.exchanges = b.exchanges

def Configured (opp : Opportunity) : Prop :=
  (exchangeConfig opp.buyExchange).isSome ∧ (exchangeConfig opp.sellExchange).isSome

end Opportunity

inductive Checked : List (ℚ × ScanMark) → List Opportunity → List Opportunity → Prop
  | nil : Checked [] [] []
  | new (t : ℚ) (opp : Opportunity) {h : List (ℚ × ScanMark)} {opps found : List Opportunity}
      (hrest : Checked h opps found) :
      Checked ((t, .checked opp true) :: h) (opp :: opps) (opp :: found)
  | old (t : ℚ) (opp : Opportunity) {h : List (ℚ × ScanMark)} {opps found : List Opportunity}
      (hrest : Checked h opps found) :
      Checked ((t, .checked opp false) :: h) (opp :: opps) found

namespace Checked
variable {h h' : List (ℚ × ScanMark)} {opps opps' found found' : List Opportunity}

theorem append (hc : Checked h opps found) (hc' : Checked h' opps' found') :
    Checked (h ++ h') (opps ++ opps') (found ++ found') := by
  induction hc with
  | nil => exact hc'
  | new t opp hrest ih => exact .new t opp ih
  | old t opp hrest ih => exact .old t opp ih

theorem passes_eq (hc : Checked h opps found) : (passes h).map Prod.snd = found := by
  induction hc with
  | nil => rfl
  | new t opp hrest ih => exact congrArg (List.cons opp) ih
  | old t opp hrest ih => exact ih

theorem publications_eq (hc : Checked h opps found) : publications h = [] := by
  induction hc with
  | nil => rfl
  | new t opp hrest ih => exact ih
  | old t opp hrest ih => exact ih

theorem split (hc : Checked h opps found) {before later : List (ℚ × ScanMark)} {t : ℚ}
    {opp : Opportunity} {created : Bool} (heq : h = before ++ (t, .checked opp created) :: later) :
    ∃ opps₁ opps₂, opps = opps₁ ++ opp :: opps₂ ∧ ∀ p ∈ passes before, p.2 ∈ opps₁ := by
  induction hc generalizing before with
  | nil => simp at heq
  | new t' opp' hrest ih =>
    cases before with
    | nil =>
      cases heq
      exact ⟨[], _, rfl, by simp [passes]⟩
    | cons m before =>
      obtain ⟨rfl, htail⟩ := List.cons.inj heq
      obtain ⟨opps₁, opps₂, rfl, hmem⟩ := ih htail
      refine ⟨opp' :: opps₁, opps₂, rfl, fun p hp => ?_⟩
      rcases List.mem_cons.mp hp with rfl | hp
      · exact List.mem_cons_self
      · exact List.mem_cons_of_mem _ (hmem p hp)
  | old t' opp' hrest ih =>
    cases before with
    | nil =>
      cases heq
      exact ⟨[], _, rfl, by simp [passes]⟩
    | cons m before =>
      obtain ⟨rfl, htail⟩ := List.cons.inj heq
      obtain ⟨opps₁, opps₂, rfl, hmem⟩ := ih htail
      exact ⟨opp' :: opps₁, opps₂, rfl, fun p hp => List.mem_cons_of_mem _ (hmem p hp)⟩

end Checked

def World.BooksKeyed (w : World) : Prop := ∀ symbol, ((w.books symbol).map Prod.fst).Nodup

theorem dictSet_keys {β : Type} (key : String) (value : β) (d : List (String × β)) :
    (dictSet key value d).map Prod.fst =
      if key ∈ d.map Prod.fst then d.map Prod.fst else d.map Prod.fst ++ [key] := by
  induction d with
  | nil => rfl
  | cons kv rest ih =>
    obtain ⟨k, v⟩ := kv
    unfold dictSet
    by_cases hk : k = key
    · simp [hk]
    · simp only [if_neg hk, List.map_cons, ih, List.mem_cons, Ne.symm hk, false_or]
      split <;> simp

theorem dictSet_nodup {β : Type} (key : String) (value : β) {d : List (String × β)}
    (h : (d.map Prod.fst).Nodup) : ((dictSet key value d).map Prod.fst).Nodup := by
  rw [dictSet_keys]
  split
  · exact h
  · rename_i hk
    refine List.nodup_append.mpr ⟨h, List.nodup_singleton _, fun a ha b hb hab => hk ?_⟩
    rw [← List.mem_singleton.mp hb, ← hab]
    exact ha

theorem serve_booksKeyed (c : Call) {w : World} (hw : w.BooksKeyed) :
    (World.serve c w).2.BooksKeyed := by
  rw [serve_snd]
  cases c with
  | putQuote symbol exchange quote =>
    split
    · intro s
      change ((Function.update w.books symbol (dictSet exchange quote (w.books symbol)) s).map
        Prod.fst).Nodup
      by_cases hs : s = symbol
      · subst hs
        rw [Function.update_self]
        exact dictSet_nodup _ _ (hw s)
      · rw [Function.update_of_ne hs]
        exact hw s
    · exact hw
  | _ => split <;> exact hw

theorem follows_booksKeyed {w w' : World} {es : List (Event Service)}
    (hf : Follows World.serve w es w') (hw : w.BooksKeyed) : w'.BooksKeyed :=
  follows_preserves World.serve (fun c _ => serve_booksKeyed c) hf hw

@[reducible] def keyed (ttl : ℚ) : Monitor (Event Service) where
  State := Option Opportunity
  next asked e := nextAsked asked e.call
  allows asked e :=
    match e.call with
    | .setNxEx key t => ∃ opp, asked = some opp ∧ key = dedupKey opp ∧ t = ttl
    | _ => True

theorem keyed_claim {ttl : ℚ} {asked : Option Opportunity} {e : Event Service} {key : String}
    {t : ℚ} (h : (keyed ttl).allows asked e) (hcall : e.call = .setNxEx key t) :
    ∃ opp, asked = some opp ∧ key = dedupKey opp ∧ t = ttl := by
  obtain ⟨c, a⟩ := e
  cases hcall
  exact h

theorem keyed_silent {ttl : ℚ} {asked : Option Opportunity} {es : List (Event Service)}
    (hes : ∀ e ∈ es, e.call.marksScan = false) : (keyed ttl).Accepts asked es := by
  refine ((keyed ttl).accepts_still fun e he => ⟨?_, nextAsked_silent asked (hes e he)⟩).1
  have hc := hes e he
  obtain ⟨c, a⟩ := e
  cases c <;> trivial

theorem serve_setNxEx_ok {w : World} {key : String} {ttl : ℚ} {b : Bool}
    (h : Except.ok b = (World.serve (.setNxEx key ttl) w).1) :
    b = !held w.expiring key w.now.clock := by
  unfold World.serve at h
  cases hfault : w.fault (.setNxEx key ttl) with
  | some x => simp [hfault] at h
  | none =>
    rw [hfault] at h
    cases h
    change (claim w.expiring key w.now.clock ttl).1 = _
    cases hheld : held w.expiring key w.now.clock with
    | true => rw [claim_held hheld]; rfl
    | false => rw [claim_free hheld]; rfl

structure Checks (ttl : ℚ) (w : World) (es : List (Event Service))
    (opps found : List Opportunity) : Prop where
  checked : Checked (history none w es) opps found
  asked : askedAfter none es = none
  keyed : (keyed ttl).Accepts none es

theorem Checks.append {ttl : ℚ} {w m : World} {es fs : List (Event Service)}
    {opps opps' found found' : List Opportunity} (hf : Follows World.serve w es m)
    (h : Checks ttl w es opps found) (h' : Checks ttl m fs opps' found') :
    Checks ttl w (es ++ fs) (opps ++ opps') (found ++ found') where
  checked := by
    rw [history_append hf, h.asked]
    exact h.checked.append h'.checked
  asked := by rw [askedAfter_append, h.asked, h'.asked]
  keyed := by
    refine ((CriptoParser.keyed ttl).accepts_append _ _ _).mpr ⟨h.keyed, ?_⟩
    change (CriptoParser.keyed ttl).Accepts (askedAfter none es) fs
    rw [h.asked]
    exact h'.keyed

theorem checks_silent {ttl : ℚ} {w : World} {es : List (Event Service)}
    (hes : ∀ e ∈ es, e.call.marksScan = false) : Checks ttl w es [] [] := by
  obtain ⟨hhistory, hasked⟩ := @history_silent none es hes w
  exact ⟨by rw [hhistory]; exact .nil, hasked, keyed_silent hes⟩

theorem claimNew_checks {ttl : ℚ} {opps found : List Opportunity} {es : List (Event Service)}
    {w w' : World} (h : (claimNew ttl opps).Goes es (.ok found))
    (hf : Follows World.serve w es w') : Checks ttl w es opps found := by
  induction opps generalizing es w found with
  | nil =>
    obtain ⟨rfl, hfound⟩ := (Prog.goes_pure _ _ _).mp h
    cases hfound
    exact ⟨.nil, rfl, trivial⟩
  | cons opp rest ih =>
    rw [claimNew, Prog.goes_bind] at h
    rcases h with ⟨created, es₁, es₂, rfl, h₁, h₂⟩ | ⟨x, -, hx⟩
    · -- the note that names the opportunity, then its claim
      simp only [isNew, Prog.goes_call_bind] at h₁
      obtain ⟨u, es', rfl, h₁⟩ := h₁
      obtain ⟨v, rfl, hv⟩ := (Prog.goes_call _ _ _).mp h₁
      cases hv
      obtain ⟨m, ⟨-, hset, hm⟩, hf₂⟩ := (follows_append _ _ _ _ _).mp hf
      cases hm
      rw [Prog.goes_bind] at h₂
      rcases h₂ with ⟨more, es₃, es₄, rfl, h₃, h₄⟩ | ⟨x, -, hx⟩
      · obtain ⟨rfl, hfound⟩ := (Prog.goes_pure _ _ _).mp h₄
        rw [List.append_nil] at hf₂ ⊢
        obtain ⟨hchecked, hasked, hkeyed⟩ := ih h₃ hf₂
        have hcreated := serve_setNxEx_ok hset
        refine ⟨?_, hasked, trivial, ⟨opp, rfl, rfl, rfl⟩, hkeyed⟩
        have hhead : history none w ([⟨.note (.checking opp), .ok u⟩,
            ⟨.setNxEx (dedupKey opp) ttl, .ok created⟩] ++ es₃) =
            ((World.serve (.note (.checking opp)) w).2.now.clock, .checked opp created) ::
              history none (World.serve (.setNxEx (dedupKey opp) ttl)
                (World.serve (.note (.checking opp)) w).2).2 es₃ := by
          rw [hcreated]
          rfl
        rw [hhead]
        cases created with
        | true =>
          cases hfound
          exact .new _ _ hchecked
        | false =>
          cases hfound
          exact .old _ _ hchecked
      · cases hx
    · cases hx

theorem readDepths_silent (symbol : String) (book : List (String × Quote)) :
    (readDepths symbol book).Uses (fun c => Call.marksScan c = false) := by
  unfold readDepths
  split
  · exact Prog.uses_pure _
  · exact (Prog.uses_call (S := Service) _).mpr rfl

structure RoutesOf (symbol : String) (opps : List Opportunity) : Prop where
  symbol : ∀ opp ∈ opps, opp.symbol = symbol
  configured : ∀ opp ∈ opps, opp.Configured
  routes : (opps.map Opportunity.exchanges).Nodup

section
variable [PyText]

theorem calculateSpreads_routesOf {symbol : String} {prices : List (String × Quote)}
    {minSpread notional : ℚ} {depth : List (String × Depth)} {now : ℤ}
    {opps : List Opportunity}
    (h : calculateSpreads symbol prices minSpread notional depth now = .ok opps)
    (hnd : (prices.map Prod.fst).Nodup) : RoutesOf symbol opps := by
  refine ⟨fun opp hopp => ?_, fun opp hopp => ?_, calculateSpreads_routes h hnd⟩
  · obtain ⟨-, _, _, _, _, hof, -⟩ := calculateSpreads_mem h hopp
    exact hof.symbol_eq
  · obtain ⟨-, _, _, _, _, hof, -⟩ := calculateSpreads_mem h hopp
    obtain ⟨buy, hbuy, -⟩ := hof.buyFee
    obtain ⟨sell, hsell, -⟩ := hof.sellFee
    exact ⟨by simp [hbuy], by simp [hsell]⟩

theorem scanSymbol_checks {ttl : ℚ} {nowMs : ℤ} {symbol : String} {found : List Opportunity}
    {es : List (Event Service)} {w w' : World}
    (h : (scanSymbol ttl nowMs symbol).Goes es (.ok found)) (hf : Follows World.serve w es w')
    (hw : w.BooksKeyed) : ∃ opps, Checks ttl w es opps found ∧ RoutesOf symbol opps := by
  unfold scanSymbol at h
  rw [Prog.goes_call_bind] at h
  obtain ⟨book, es₁, rfl, h⟩ := h
  obtain rfl : book = w.books symbol := Except.ok.inj (hf.1.trans (serve_local rfl w))
  rw [Prog.goes_bind] at h
  rcases h with ⟨raws, es₂, es₃, rfl, hraws, h⟩ | ⟨x, -, hx⟩
  · have hsilent := (readDepths_silent symbol _).ends hraws.1
    simp only [Prog.goes_lift_bind, Prog.goes_call_bind] at h
    rcases h with ⟨depth, -, chosen, es₄, rfl, now, es₅, rfl, h⟩ | ⟨x, -, -, hx⟩
    · rcases h with ⟨opps, hopps, h⟩ | ⟨x, -, -, hx⟩
      · refine ⟨opps, ?_, calculateSpreads_routesOf hopps (hw symbol)⟩
        have hsplit : (⟨.book symbol, .ok (w.books symbol)⟩ : Event Service) ::
            (es₂ ++ ⟨.scanSettings, .ok chosen⟩ :: ⟨.time, .ok now⟩ :: es₅) =
            (⟨.book symbol, .ok (w.books symbol)⟩ ::
              (es₂ ++ [⟨.scanSettings, .ok chosen⟩, ⟨.time, .ok now⟩])) ++ es₅ := by simp
        rw [hsplit] at hf ⊢
        obtain ⟨m, hf₁, hf₂⟩ := (follows_append _ _ _ _ _).mp hf
        refine (checks_silent fun e he => ?_).append hf₁ (claimNew_checks h hf₂)
        simp only [List.mem_cons, List.mem_append, List.not_mem_nil, or_false] at he
        rcases he with rfl | he | rfl | rfl
        · rfl
        · exact hsilent e he
        · rfl
        · rfl
      · cases hx
    · cases hx
  · cases hx

theorem scanSymbols_checks {ttl : ℚ} {nowMs : ℤ} {symbols : List String}
    {found : List Opportunity} {es : List (Event Service)} {w w' : World}
    (h : (scanSymbols ttl nowMs symbols).Goes es (.ok found)) (hf : Follows World.serve w es w')
    (hw : w.BooksKeyed) (hnd : symbols.Nodup) :
    ∃ opps, Checks ttl w es opps found ∧ (∀ opp ∈ opps, opp.symbol ∈ symbols) ∧
      (∀ opp ∈ opps, opp.Configured) ∧ opps.Pairwise fun a b => ¬a.SameRoute b := by
  induction symbols generalizing es w found with
  | nil =>
    obtain ⟨rfl, hfound⟩ := (Prog.goes_pure _ _ _).mp h
    cases hfound
    exact ⟨[], checks_silent (by simp), by simp, by simp, .nil⟩
  | cons symbol rest ih =>
    obtain ⟨hnew, hnd⟩ := List.nodup_cons.mp hnd
    rw [scanSymbols, Prog.goes_bind] at h
    rcases h with ⟨found₁, es₁, es₂, rfl, h₁, h⟩ | ⟨x, -, hx⟩
    · obtain ⟨m, hf₁, hf₂⟩ := (follows_append _ _ _ _ _).mp hf
      rw [Prog.goes_bind] at h
      rcases h with ⟨found₂, es₃, es₄, rfl, h₂, h⟩ | ⟨x, -, hx⟩
      · obtain ⟨rfl, hfound⟩ := (Prog.goes_pure _ _ _).mp h
        cases hfound
        rw [List.append_nil] at hf₂ ⊢
        obtain ⟨opps₁, hchecks₁, hroutes⟩ := scanSymbol_checks h₁ hf₁ hw
        obtain ⟨opps₂, hchecks₂, hsymbols, hconfigured, hpair⟩ :=
          ih h₂ hf₂ (follows_booksKeyed hf₁ hw) hnd
        refine ⟨opps₁ ++ opps₂, hchecks₁.append hf₁ hchecks₂, ?_, ?_, ?_⟩
        · intro opp hopp
          rcases List.mem_append.mp hopp with hopp | hopp
          · rw [hroutes.symbol opp hopp]
            exact List.mem_cons_self
          · exact List.mem_cons_of_mem _ (hsymbols opp hopp)
        · intro opp hopp
          rcases List.mem_append.mp hopp with hopp | hopp
          · exact hroutes.configured opp hopp
          · exact hconfigured opp hopp
        · refine List.pairwise_append.mpr ⟨?_, hpair, fun a ha b hb hsame => hnew ?_⟩
          · refine (List.pairwise_map.mp hroutes.routes).imp fun {a b} hne hsame => hne ?_
            exact hsame.2
          · rw [← hroutes.symbol a ha, hsame.1]
            exact hsymbols b hb
      · cases hx
    · cases hx

theorem readTicks_puts (entries : List (Entry Fields)) (updated : List String) :
    (readTicks entries updated).Uses fun c => ∃ symbol exchange quote,
      c = Call.putQuote symbol exchange quote := by
  induction entries generalizing updated with
  | nil => exact Prog.uses_pure _
  | cons entry rest ih =>
    unfold readTicks
    split
    · exact Prog.uses_bind ((Prog.uses_call (S := Service) _).mpr ⟨_, _, _, rfl⟩) fun _ => ih _
    · split
      · exact ih _
      · exact Prog.uses_lift _

theorem readTicks_silent (entries : List (Entry Fields)) (updated : List String) :
    (readTicks entries updated).Uses (fun c => Call.marksScan c = false) := by
  refine (readTicks_puts entries updated).mono fun c hc => ?_
  obtain ⟨symbol, exchange, quote, rfl⟩ := hc
  rfl

theorem readTicks_nodup {entries : List (Entry Fields)} {updated symbols : List String}
    {es : List (Event Service)} (h : (readTicks entries updated).Goes es (.ok symbols))
    (hnd : updated.Nodup) : symbols.Nodup := by
  induction entries generalizing updated es with
  | nil =>
    obtain ⟨-, hsymbols⟩ := (Prog.goes_pure _ _ _).mp h
    cases hsymbols
    exact hnd
  | cons entry rest ih =>
    unfold readTicks at h
    split at h
    · rename_i symbol exchange quote _
      rw [Prog.goes_call_bind] at h
      obtain ⟨_, es', -, h⟩ := h
      refine ih h ?_
      split
      · exact hnd
      · rename_i hnew
        refine List.nodup_append.mpr ⟨hnd, List.nodup_singleton _, fun a ha b hb hab => hnew ?_⟩
        rw [← List.mem_singleton.mp hb, ← hab]
        exact ha
    · split at h
      · exact ih h hnd
      · obtain ⟨-, hx⟩ := (Prog.goes_lift _ _ _).mp h
        cases hx

theorem scanBatch_checks {ttl : ℚ} {entries : List (Entry Fields)} {found : List Opportunity}
    {es : List (Event Service)} {w w' : World} (h : (scanBatch ttl entries).Goes es (.ok found))
    (hf : Follows World.serve w es w') (hw : w.BooksKeyed) :
    ∃ opps, Checks ttl w es opps found ∧ (∀ opp ∈ opps, opp.Configured) ∧
      opps.Pairwise fun a b => ¬a.SameRoute b := by
  unfold scanBatch at h
  rw [Prog.goes_bind] at h
  rcases h with ⟨updated, es₁, es₂, rfl, h₁, h⟩ | ⟨x, -, hx⟩
  · simp only [Prog.goes_call_bind] at h
    obtain ⟨now, es₃, rfl, symbols, es₄, rfl, h⟩ := h
    obtain ⟨m, hf₁, hf₂⟩ := (follows_append _ _ _ _ _).mp hf
    obtain ⟨htime, horder, hf₄⟩ := hf₂
    have hsymbols : symbols.Nodup := by
      have hr : symbols = (World.serve .time m).2.now.order.arrange updated :=
        Except.ok.inj (horder.trans (serve_local rfl _))
      rw [hr]
      exact (SetOrder.perm _ _).nodup_iff.mpr (readTicks_nodup h₁ List.nodup_nil)
    have hpre : Follows World.serve w (es₁ ++ [⟨.time, .ok now⟩, ⟨.setOrder updated, .ok symbols⟩])
        (World.serve (.setOrder updated) (World.serve .time m).2).2 :=
      (follows_append _ _ _ _ _).mpr ⟨m, hf₁, htime, horder, rfl⟩
    obtain ⟨opps, hchecks, -, hconfigured, hpair⟩ :=
      scanSymbols_checks h hf₄ (follows_booksKeyed hpre hw) hsymbols
    refine ⟨opps, ?_, hconfigured, hpair⟩
    have hsilent := (readTicks_silent entries []).ends h₁.1
    have hsplit : es₁ ++ ⟨.time, .ok now⟩ :: ⟨.setOrder updated, .ok symbols⟩ :: es₄ =
        (es₁ ++ [⟨.time, .ok now⟩, ⟨.setOrder updated, .ok symbols⟩]) ++ es₄ := by simp
    rw [hsplit]
    refine (checks_silent fun e he => ?_).append hpre hchecks
    simp only [List.mem_append, List.mem_cons, List.not_mem_nil, or_false] at he
    rcases he with he | rfl | rfl
    · exact hsilent e he
    · rfl
    · rfl
  · cases hx

theorem publishOpportunities_adds {found : List Opportunity} {es : List (Event Service)}
    {r : Except PyExc Unit} (h : (publishOpportunities found).Ends es r) :
    ∀ e ∈ es, ∃ opp ∈ found, e.call = .xadd opportunitiesStream opp.toRedis := by
  induction found generalizing es with
  | nil =>
    obtain ⟨rfl, -⟩ := (Prog.ends_pure _ _ _).mp h
    simp
  | cons opp rest ih =>
    rcases (Prog.ends_call_bind _ _ _ _).mp h with ⟨v, es', rfl, h'⟩ | ⟨x, rfl, -⟩
    · intro e he
      rcases List.mem_cons.mp he with rfl | he
      · exact ⟨opp, List.mem_cons_self, rfl⟩
      · obtain ⟨o, ho, hcall⟩ := ih h' e he
        exact ⟨o, List.mem_cons_of_mem _ ho, hcall⟩
    · simp

structure Publishes (h : List (ℚ × ScanMark)) (found : List Opportunity) : Prop where
  entries : publications h = found.map Opportunity.toRedis
  rows : storedRows h = found.map opportunityRecord
  unchecked : ∀ m ∈ h, ∀ opp created, m.2 ≠ .checked opp created

theorem publishOpportunities_goes {found : List Opportunity} {es : List (Event Service)}
    {w : World} (h : (publishOpportunities found).Goes es (.ok ())) :
    publications (history none w es) = found.map Opportunity.toRedis ∧
      storedRows (history none w es) = [] ∧
      (∀ m ∈ history none w es, ∀ opp created, m.2 ≠ .checked opp created) ∧
      askedAfter none es = none := by
  induction found generalizing es w with
  | nil =>
    obtain ⟨rfl, -⟩ := (Prog.goes_pure _ _ _).mp h
    exact ⟨rfl, rfl, by simp [history], rfl⟩
  | cons opp rest ih =>
    rw [publishOpportunities, Prog.goes_call_bind] at h
    obtain ⟨u, es', rfl, h⟩ := h
    obtain ⟨hentries, hrows, hno, hasked⟩ :=
      ih (w := (World.serve (.xadd opportunitiesStream opp.toRedis) w).2) h
    have hcons : history none w (⟨.xadd opportunitiesStream opp.toRedis, .ok u⟩ :: es') =
        [(w.now.clock, .published opp.toRedis)] ++
          history none (World.serve (.xadd opportunitiesStream opp.toRedis) w).2 es' := by
      simp [history, markOf, carriedOut, nextAsked]
    rw [hcons, publications_append, storedRows_append, hentries, hrows]
    refine ⟨rfl, rfl, fun m hm => ?_, hasked⟩
    rcases List.mem_append.mp hm with hm | hm
    · rw [List.mem_singleton.mp hm]
      simp
    · exact hno m hm

end

def Call.settlesScan : Call → Bool
  | .xadd _ _ | .copyOpportunities _ | .xack _ _ _ => true
  | _ => false

theorem keyed_settles {ttl : ℚ} {asked : Option Opportunity} {es : List (Event Service)}
    (hes : ∀ e ∈ es, e.call.settlesScan = true) :
    (keyed ttl).Accepts asked es ∧ askedAfter asked es = asked := by
  refine (keyed ttl).accepts_still fun e he => ?_
  have hc := hes e he
  obtain ⟨c, a⟩ := e
  cases c <;> first | exact ⟨trivial, rfl⟩ | cases hc

section
variable [PyText]

theorem publishAndStore_uses {allowed : Call → Prop} (found : List Opportunity)
    (hadd : ∀ fields, allowed (.xadd opportunitiesStream fields))
    (hcopy : ∀ rows, allowed (.copyOpportunities rows)) :
    (publishAndStore found).Uses allowed := by
  have hpublish : ∀ found : List Opportunity, (publishOpportunities found).Uses allowed := by
    intro found
    induction found with
    | nil => exact Prog.uses_pure _
    | cons opp rest ih =>
      exact Prog.uses_bind ((Prog.uses_call (S := Service) _).mpr (hadd _)) fun _ => ih
  exact Prog.uses_bind (hpublish found) fun _ => (Prog.uses_call (S := Service) _).mpr (hcopy _)

theorem settleScan_uses (entries : List (Entry Fields)) (found : List Opportunity) :
    (settleScan entries found).Uses (fun c => Call.settlesScan c = true) :=
  Prog.uses_bind (awaitIf_uses _ (publishAndStore_uses found (fun _ => rfl) fun _ => rfl))
    fun _ => awaitIf_uses _ ((Prog.uses_call (S := Service) _).mpr rfl)

structure ScanBlock (h : List (ℚ × ScanMark)) (checks ends : List (ℚ × ScanMark))
    (opps found : List Opportunity) : Prop where
  split : h = checks ++ ends
  checked : Checked checks opps found
  configured : ∀ opp ∈ opps, opp.Configured
  routes : opps.Pairwise fun a b => ¬a.SameRoute b
  publishes : Publishes ends found

structure Scans (ttl : ℚ) (w : World) (es : List (Event Service)) : Prop where
  block : ∃ checks ends opps found, ScanBlock (history none w es) checks ends opps found
  asked : askedAfter none es = none
  keyed : (keyed ttl).Accepts none es

theorem Scans.cons {ttl : ℚ} {w : World} {e : Event Service} {es : List (Event Service)}
    (he : e.call.marksScan = false) (h : Scans ttl (World.serve e.call w).2 es) :
    Scans ttl w (e :: es) := by
  have hasked := nextAsked_silent none he
  have hone : (CriptoParser.keyed ttl).Accepts none [e] := keyed_silent (by simpa using he)
  refine ⟨?_, ?_, hone.1, ?_⟩
  · rw [history, markOf_silent none w he, hasked]
    exact h.block
  · rw [askedAfter, List.foldl_cons, hasked]
    exact h.asked
  · change (CriptoParser.keyed ttl).Accepts (nextAsked none e.call) es
    rw [hasked]
    exact h.keyed

end

def Call.scans : Call → Prop
  | .xreadgroup _ _ _ | .putQuote _ _ _ | .xadd _ _ | .copyOpportunities _ | .xack _ _ _ => False
  | _ => True

theorem claimNew_scans (ttl : ℚ) (opps : List Opportunity) :
    (claimNew ttl opps).Uses Call.scans := by
  induction opps with
  | nil => exact Prog.uses_pure _
  | cons opp rest ih =>
    refine Prog.uses_bind (Prog.uses_bind ?_ fun _ => ?_) fun _ =>
      Prog.uses_bind ih fun _ => Prog.uses_pure _
    · exact (Prog.uses_call (S := Service) _).mpr trivial
    · exact (Prog.uses_call (S := Service) _).mpr trivial

theorem readDepths_scans (symbol : String) (book : List (String × Quote)) :
    (readDepths symbol book).Uses Call.scans := by
  unfold readDepths
  split
  · exact Prog.uses_pure _
  · exact (Prog.uses_call (S := Service) _).mpr trivial

section
variable [PyText]

theorem scanSymbol_scans (ttl : ℚ) (nowMs : ℤ) (symbol : String) :
    (scanSymbol ttl nowMs symbol).Uses Call.scans := by
  refine Prog.uses_bind ((Prog.uses_call (S := Service) _).mpr trivial) fun book => ?_
  refine Prog.uses_bind (readDepths_scans symbol book) fun raws => ?_
  refine Prog.uses_bind (Prog.uses_lift _) fun depth => ?_
  refine Prog.uses_bind ((Prog.uses_call (S := Service) _).mpr trivial) fun chosen => ?_
  refine Prog.uses_bind ((Prog.uses_call (S := Service) _).mpr trivial) fun now => ?_
  exact Prog.uses_bind (Prog.uses_lift _) fun opps => claimNew_scans ttl opps

theorem scanSymbols_scans (ttl : ℚ) (nowMs : ℤ) (symbols : List String) :
    (scanSymbols ttl nowMs symbols).Uses Call.scans := by
  induction symbols with
  | nil => exact Prog.uses_pure _
  | cons symbol rest ih =>
    exact Prog.uses_bind (scanSymbol_scans ttl nowMs symbol) fun _ =>
      Prog.uses_bind ih fun _ => Prog.uses_pure _

theorem scanBatch_uses {allowed : Call → Prop} (ttl : ℚ) (entries : List (Entry Fields))
    (hput : ∀ symbol exchange quote, allowed (.putQuote symbol exchange quote))
    (hscans : ∀ c : Call, c.scans → allowed c) : (scanBatch ttl entries).Uses allowed := by
  refine Prog.uses_bind ((readTicks_puts entries []).mono fun c hc => ?_) fun updated => ?_
  · obtain ⟨symbol, exchange, quote, rfl⟩ := hc
    exact hput symbol exchange quote
  refine Prog.uses_bind ((Prog.uses_call (S := Service) _).mpr (hscans _ trivial)) fun now => ?_
  refine Prog.uses_bind ((Prog.uses_call (S := Service) _).mpr (hscans _ trivial))
    fun symbols => ?_
  exact (scanSymbols_scans ttl _ symbols).mono hscans

end

theorem claimNew_straight (ttl : ℚ) (opps : List Opportunity) : (claimNew ttl opps).Straight := by
  induction opps with
  | nil => exact Prog.straight_pure _
  | cons opp rest ih =>
    refine Prog.straight_bind ?_ fun new => Prog.straight_bind ih fun more => Prog.straight_pure _
    exact Prog.straight_bind (Prog.straight_call _) fun _ => Prog.straight_call _

theorem readDepths_straight (symbol : String) (book : List (String × Quote)) :
    (readDepths symbol book).Straight := by
  unfold readDepths
  split
  · exact Prog.straight_pure _
  · exact Prog.straight_call (S := Service) _

section
variable [PyText]

theorem scanSymbols_straight (ttl : ℚ) (nowMs : ℤ) (symbols : List String) :
    (scanSymbols ttl nowMs symbols).Straight := by
  induction symbols with
  | nil => exact Prog.straight_pure _
  | cons symbol rest ih =>
    refine Prog.straight_bind ?_ fun found => Prog.straight_bind ih fun more => Prog.straight_pure _
    refine Prog.straight_bind (Prog.straight_call (S := Service) _) fun book => ?_
    refine Prog.straight_bind (readDepths_straight symbol book) fun raws => ?_
    refine Prog.straight_bind (Prog.straight_lift _) fun depth => ?_
    refine Prog.straight_bind (Prog.straight_call (S := Service) _) fun chosen => ?_
    refine Prog.straight_bind (Prog.straight_call (S := Service) _) fun now => ?_
    exact Prog.straight_bind (Prog.straight_lift _) fun opps => claimNew_straight ttl opps

theorem readTicks_straight (entries : List (Entry Fields)) (updated : List String) :
    (readTicks entries updated).Straight := by
  induction entries generalizing updated with
  | nil => exact Prog.straight_pure _
  | cons entry rest ih =>
    unfold readTicks
    split
    · exact Prog.straight_bind (Prog.straight_call (S := Service) _) fun _ => ih _
    · split
      · exact ih _
      · exact Prog.straight_lift _

theorem publishOpportunities_straight (opps : List Opportunity) :
    (publishOpportunities opps).Straight := by
  induction opps with
  | nil => exact Prog.straight_pure _
  | cons opp rest ih => exact Prog.straight_bind (Prog.straight_call (S := Service) _) fun _ => ih

theorem scanBatch_straight (ttl : ℚ) (entries : List (Entry Fields)) :
    (scanBatch ttl entries).Straight := by
  refine Prog.straight_bind (readTicks_straight entries []) fun updated => ?_
  refine Prog.straight_bind (Prog.straight_call (S := Service) _) fun now => ?_
  exact Prog.straight_bind (Prog.straight_call (S := Service) _) fun symbols =>
    scanSymbols_straight ttl _ symbols

end

end CriptoParser
