import CriptoParser.ExecutorSolvency
import CriptoParser.ExecutorSupply

set_option autoImplicit false

namespace CriptoParser

open Await Streams

def seenNext (s : String → Option ℚ) : Event Service → String → Option ℚ
  | ⟨.hget key _, .ok v⟩ => Function.update s key (some (Option.getD v 0))
  | ⟨.hincrbyfloat key _ _, .ok v⟩ => Function.update s key (some v)
  | _ => s

theorem seenNext_read (s : String → Option ℚ) (key field : String) (v : Option ℚ) :
    seenNext s ⟨.hget key field, .ok v⟩ key = some (v.getD 0) := Function.update_self _ _ _

theorem seenNext_incr (s : String → Option ℚ) (key field : String) (delta v : ℚ) :
    seenNext s ⟨.hincrbyfloat key field delta, .ok v⟩ key = some v := Function.update_self _ _ _

/-- An increment leaves what it answers non-negative, adds, or fits the balance last seen. -/
def fitsSeen (s : String → Option ℚ) : Event Service → Prop
  | ⟨.hincrbyfloat key field delta, .ok v⟩ =>
    field = "USDT" ∧ (∃ exchange, key = balanceKey exchange) ∧
      (0 ≤ (v : ℚ) ∨ 0 ≤ delta ∨ ∃ b, s key = some b ∧ (0 ≤ b → 0 ≤ b + delta))
  | ⟨.hget _ field, _⟩ => field = "USDT"
  | ⟨.hset _ _ _, _⟩ => False
  | _ => True

@[reducible] def prudent : Monitor (Event Service) where
  State := String → Option ℚ
  next := seenNext
  allows := fitsSeen

def Call.blind : Call → Bool
  | .hget _ _ | .hset _ _ _ | .hincrbyfloat _ _ _ => false
  | _ => true

theorem prudent_blind {es : List (Event Service)} (s : String → Option ℚ)
    (h : ∀ e ∈ es, e.call.blind = true) :
    prudent.Accepts s es ∧ prudent.after s es = s := by
  apply prudent.accepts_still
  intro e he
  have hc := h e he
  obtain ⟨c, v⟩ := e
  cases c <;> first | exact ⟨trivial, rfl⟩ | cases hc

theorem prudent_reads (names : List String) (v : String → Option ℚ) (s : String → Option ℚ) :
    prudent.Accepts s (readEvents names v) ∧ ∀ ex ∈ names,
      prudent.after s (readEvents names v) (balanceKey ex) = some ((v ex).getD 0) := by
  induction names generalizing s with
  | nil => exact ⟨trivial, by simp⟩
  | cons name rest ih =>
    obtain ⟨hacc, hseen⟩ := ih (seenNext s (readEvent name (v name)))
    refine ⟨⟨rfl, hacc⟩, fun ex hex => ?_⟩
    by_cases hrest : ex ∈ rest
    · exact hseen ex hrest
    · obtain rfl : ex = name := by simpa [hrest] using hex
      have hkeep : ∀ (names : List String) (s : String → Option ℚ), ex ∉ names →
          prudent.after s (readEvents names v) (balanceKey ex) = s (balanceKey ex) := by
        intro names
        induction names with
        | nil => exact fun _ _ => rfl
        | cons n ns ihn =>
          intro s hn
          simp only [List.mem_cons, not_or] at hn
          obtain ⟨hne, hns⟩ := hn
          refine (ihn _ hns).trans (Function.update_of_ne (fun h => hne ?_) _ _)
          exact balanceKey_injective h
      refine (hkeep rest _ hrest).trans ?_
      exact Function.update_self _ _ _

section
variable {engine : Engine} {opp : Opportunity}

theorem rebalanceRun_prudent {balance : ℚ} {es : List (Event Service)}
    {rb : Option RebalanceResult}
    (h : RebalanceRun opp.buyExchange balance engine.rebalanceThreshold es rb)
    (hcredit : ∀ res, rb = some res → 0 ≤ res.receiverNewBalance) (s : String → Option ℚ) :
    prudent.Accepts s es ∧ ∀ res, rb = some res →
      prudent.after s es (balanceKey opp.buyExchange) = some res.receiverNewBalance := by
  cases h with
  | enough hlt => exact ⟨trivial, fun _ hr => (by cases hr)⟩
  | exhausted v donor hle hd hno =>
    refine ⟨(prudent.accepts_append _ _ _).mpr ⟨(prudent_reads _ v s).1, ?_⟩,
      fun _ hr => (by cases hr)⟩
    exact ⟨trivial, trivial⟩
  | transferred v donor cfg donorNew receiverNew hle hd hne hgt hcfg =>
    obtain ⟨hacc, hseen⟩ := prudent_reads balanceExchanges v s
    have hdonor := hseen donor (richest_mem hd)
    have hpos : 0 ≤ receiverNew := hcredit _ rfl
    refine ⟨(prudent.accepts_append _ _ _).mpr ⟨hacc, ?_, ?_, trivial, trivial⟩, ?_⟩
    · refine ⟨rfl, ⟨donor, rfl⟩, .inr (.inr ⟨_, hdonor, fun hb => ?_⟩)⟩
      linarith
    · exact ⟨rfl, ⟨opp.buyExchange, rfl⟩, .inl hpos⟩
    · intro res hr
      cases hr
      rw [Monitor.after_append]
      exact Function.update_self _ _ _

variable [PyText]

theorem tradeRun_prudent {balance : ℚ} {rb : Option RebalanceResult}
    {es : List (Event Service)} {r : Except PyExc (Option ExecutionResult)}
    (h : TradeRun engine opp balance rb es r) (hscan : Scanned opp)
    (hpct : 0 < engine.maxPositionPct ∧ engine.maxPositionPct ≤ 10) {s : String → Option ℚ}
    (hseen : s (balanceKey opp.buyExchange) = some balance) : prudent.Accepts s es := by
  have hquote : ∀ t raws, prudent.Accepts s (quoteEvents opp t raws) ∧
      prudent.after s (quoteEvents opp t raws) = s := fun t raws =>
    prudent_blind s (by simp [quoteEvents, Call.blind])
  cases h with
  | small hn => exact trivial
  | skipped t raws hn hfill => exact (hquote t raws).1
  | raised t raws x hn hfill => exact (hquote t raws).1
  | traded t raws f newBuy newSell t₁ uuid t₂ durationMs hn hfill =>
    have hspend : f.Spends (balance * engine.maxPositionPct / 100) := fillFromDepth_spends hfill
    have hbuy := hscan.buyFee_le
    have hroom : engine.maxPositionPct * (100 + opp.buyFeePct) ≤ 10000 := by
      have h₁ := mul_le_mul hpct.2 (add_le_add_left hbuy 100) (by linarith [hscan.buyFee])
        (by norm_num)
      linarith
    rw [prudent.accepts_append, (hquote t raws).2]
    refine ⟨(hquote t raws).1, ⟨rfl, ⟨opp.buyExchange, rfl⟩, .inr (.inr ⟨balance, hseen, ?_⟩)⟩,
      ⟨rfl, ⟨opp.sellExchange, rfl⟩, .inr (.inl ?_)⟩, trivial, trivial, trivial, trivial⟩
    · exact hspend.buyChange_fits hroom
    · exact hspend.sellChange_nonneg hscan.sellFee

theorem executeRun_prudent {es : List (Event Service)}
    {r : Except PyExc (Option ExecutionResult)} {q : Supply} (h : ExecuteRun engine opp es r)
    (hq : q.Opening opp) (hs : (supplied engine).Accepts q es) (hscan : Scanned opp)
    (hpct : 0 < engine.maxPositionPct ∧ engine.maxPositionPct ≤ 10) (s : String → Option ℚ) :
    prudent.Accepts s es := by
  have hopen : ∀ (start : ℚ) (v : Option ℚ),
      prudent.Accepts s (openEvents opp start v) ∧
        prudent.after s (openEvents opp start v) =
          Function.update s (balanceKey opp.buyExchange) (some (v.getD 0)) := by
    intro start v
    exact ⟨⟨trivial, trivial, rfl, trivial⟩, rfl⟩
  cases h with
  | stopped => exact ⟨trivial, trivial⟩
  | broke start v es hr hle =>
    rw [prudent.accepts_append]
    exact ⟨(hopen start v).1, (rebalanceRun_prudent hr (fun _ h => by cases h) _).1⟩
  | funded start v es tail r hr hgt ht =>
    cases hr with
    | enough hlt =>
      rw [prudent.accepts_append, (hopen start v).2]
      exact ⟨(hopen start v).1, tradeRun_prudent ht hscan hpct (Function.update_self _ _ _)⟩
    | exhausted v' donor hle hd hno => exact absurd hgt (not_lt.mpr hle)
  | transferred start v rb es tail r hr ht =>
    have hs' := ((supplied engine).accepts_append _ _ _).mp hs
    rw [hq.after_open] at hs'
    have hs'' := ((supplied engine).accepts_append _ _ _).mp hs'.2
    obtain ⟨-, henough⟩ := rebalanceRun_supplied
      (q := { q with balance := some (v.getD 0), time := start }) hr hq.opp rfl hq.quoted hs''.1
    -- the transfer leaves enough for a trade, so its credit is no debt
    have hcredit : ∀ res, some rb = some res → 0 ≤ res.receiverNewBalance := by
      intro res hres
      have hmin := henough res hres
      by_contra hneg
      have := mul_nonpos_of_nonpos_of_nonneg (not_le.mp hneg).le hpct.1.le
      unfold minNotionalUsdt at hmin
      linarith
    obtain ⟨hacc, hseen⟩ := rebalanceRun_prudent hr hcredit
      (Function.update s (balanceKey opp.buyExchange) (some (v.getD 0)))
    rw [prudent.accepts_append, (hopen start v).2, prudent.accepts_append]
    exact ⟨(hopen start v).1, hacc, tradeRun_prudent ht hscan hpct (hseen rb rfl)⟩

def Call.scanned : Call → Prop
  | .note (.started opp) => Scanned opp
  | _ => True

instance (c : Call) : Decidable c.scanned := by
  cases c with
  | note n =>
    cases n with
    | started opp => exact inferInstanceAs (Decidable (Scanned opp))
    | _ => exact .isTrue trivial
  | _ => exact .isTrue trivial

/-- Every call of the events is for an opportunity of the scanner. -/
abbrev StartsScanned (es : List (Event Service)) : Prop := ∀ e ∈ es, e.call.scanned

theorem batchRun_prudent {entries : List (Entry Fields)} {es : List (Event Service)}
    {r : Except PyExc (List ExecutionResult)} {q : Supply} (h : BatchRun engine entries es r)
    (hclean : Clean es) (hs : (supplied engine).Accepts q es) (hscan : StartsScanned es)
    (hpct : 0 < engine.maxPositionPct ∧ engine.maxPositionPct ≤ 10) (s : String → Option ℚ) :
    prudent.Accepts s es := by
  induction h generalizing q s with
  | empty => trivial
  | unparsed entry rest x es r hparse hrest ih => exact ih hclean hs hscan s
  | failed entry rest opp es x hparse hcall =>
    obtain ⟨-, hclean'⟩ := (clean_cons _ _).mp hclean
    exact ⟨trivial, executeRun_prudent (executeOpportunity_goes ⟨hcall, hclean'⟩)
      (q.opening_started opp) hs.2 (hscan _ List.mem_cons_self) hpct s⟩
  | called entry rest opp es es' res r hparse hcall hrest ih =>
    obtain ⟨hclean₁, hclean₂⟩ := clean_called hclean
    obtain ⟨hs₁, hs₂⟩ := ((supplied engine).accepts_append _ _ _).mp hs.2
    refine ⟨trivial, (prudent.accepts_append _ _ _).mpr ⟨?_, trivial, ?_⟩⟩
    · exact executeRun_prudent (executeOpportunity_goes ⟨hcall, hclean₁⟩)
        (q.opening_started opp) hs₁ (hscan _ List.mem_cons_self) hpct s
    · exact ih hclean₂ hs₂.2 (fun e he => hscan e (by simp [he])) _

theorem handleBatch_prudent {entries : List (Entry Fields)} {es : List (Event Service)}
    {r : Except PyExc Unit} {q : Supply} (h : (handleBatch engine entries).Ends es r)
    (hclean : Clean es) (hs : (supplied engine).Accepts q es) (hscan : StartsScanned es)
    (hpct : 0 < engine.maxPositionPct ∧ engine.maxPositionPct ≤ 10) (s : String → Option ℚ) :
    prudent.Accepts s es := by
  rcases handleBatch_ends h (fun e he _ => hclean e he) with
    ⟨x, hrun, -⟩ | ⟨results, es₁, es₂, heq, hrun, hsettle⟩
  · exact batchRun_prudent hrun hclean hs hscan hpct s
  · subst heq
    obtain ⟨hclean₁, -⟩ := (clean_append _ _).mp hclean
    obtain ⟨hs₁, -⟩ := ((supplied engine).accepts_append _ _ _).mp hs
    refine (prudent.accepts_append _ _ _).mpr
      ⟨batchRun_prudent hrun hclean₁ hs₁ (fun e he => hscan e (by simp [he])) hpct s,
        (prudent_blind _ fun e he => ?_).1⟩
    have hc := (settleBatch_uses entries results).ends hsettle e he
    cases hcall : e.call <;> simp_all [Call.persists, Call.blind]

theorem loopRun_prudent {es : List (Event Service)} {q : Supply} (h : LoopRun engine es)
    (hclean : Clean es) (hs : (supplied engine).Accepts q es) (hscan : StartsScanned es)
    (hpct : 0 < engine.maxPositionPct ∧ engine.maxPositionPct ≤ 10) (s : String → Option ℚ) :
    prudent.Accepts s es := by
  induction h generalizing q s with
  | stop => trivial
  | idle e es hcall hrest ih =>
    obtain ⟨-, hclean'⟩ := (clean_cons _ _).mp hclean
    have hblind : e.call.blind = true := by
      rcases hcall with hc | hc
      · cases h : e.call <;> simp_all [Call.opensPass, Call.blind]
      · rw [hc]
        rfl
    have hone : prudent.Accepts s [e] := (prudent_blind s (by simpa using hblind)).1
    exact ⟨hone.1, ih hclean' hs.2 (fun d hd => hscan d (List.mem_cons_of_mem _ hd)) _⟩
  | batch entries es es' r hbatch hrest ih =>
    obtain ⟨hclean₁, hclean₂⟩ := (clean_append _ _).mp hclean
    obtain ⟨hs₁, hs₂⟩ := ((supplied engine).accepts_append _ _ _).mp hs
    exact (prudent.accepts_append _ _ _).mpr
      ⟨handleBatch_prudent hbatch hclean₁ hs₁ (fun e he => hscan e (by simp [he])) hpct s,
        ih hclean₂ hs₂ (fun e he => hscan e (by simp [he])) _⟩

end

end CriptoParser
