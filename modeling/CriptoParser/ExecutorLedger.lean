import CriptoParser.ExecutorForecast
import CriptoParser.ExecutorLoop

set_option autoImplicit false

namespace CriptoParser

open Await Streams

def resultChange (res : ExecutionResult) (exchange : String) : ℚ :=
  rowsChange (balanceRecords 0 res) exchange

def resultsChange (results : List ExecutionResult) (exchange : String) : ℚ :=
  (results.map fun res => resultChange res exchange).sum

@[simp] theorem rowChange_balanceRow (exchange other : String) (executed amount change : ℚ)
    (tradeId : Option String) (reason : String) :
    rowChange exchange (balanceRow executed other amount tradeId change reason) =
      if exchange = other then change else 0 := by
  simp [rowChange, balanceRow, eq_comm]

theorem rowsChange_balanceRecords (executed : ℚ) (res : ExecutionResult) (exchange : String) :
    rowsChange (balanceRecords executed res) exchange = resultChange res exchange := by
  have hlegs : ∀ (t : ℚ) (us : List (String × ℚ × ℚ)),
      rowsChange (us.map fun u => balanceRow t u.1 u.2.1 (some res.trade.id) u.2.2 "trade")
        exchange = (us.map fun u => if exchange = u.1 then u.2.2 else 0).sum := by
    intro t us
    induction us with
    | nil => rfl
    | cons u us ih => simp [ih]
  have hreb : ∀ t : ℚ, rowsChange (rebalanceRecords t res.rebalance) exchange =
      rowsChange (rebalanceRecords 0 res.rebalance) exchange := by
    intro t
    cases res.rebalance with
    | none => rfl
    | some rb => simp [rebalanceRecords]
  rw [resultChange, balanceRecords, balanceRecords, rowsChange_append, rowsChange_append,
    hlegs, hlegs, hreb]

theorem rowsChange_transfer {w : World} {receiver : String} {threshold : ℚ}
    (executed : ℚ) (exchange : String) :
    rowsChange (rebalanceRecords executed
      ((w.transferDue receiver threshold).map (w.transferRecord receiver))) exchange =
      transferChange (w.transferDue receiver threshold) receiver exchange := by
  cases h : w.transferDue receiver threshold with
  | none => rfl
  | some t =>
    obtain ⟨-, hg, -⟩ := transferDue_spec h
    simp [rebalanceRecords, World.transferRecord, transferResult, transferChange, hg]

theorem executedAt_cons {res : Option ExecutionResult} {results : List ExecutionResult}
    (h : ∀ r, res = some r → ∃ ms, r.trade.executedAt = some ms)
    (hs : ∀ r ∈ results, ∃ ms, r.trade.executedAt = some ms) :
    ∀ r ∈ res.toList ++ results, ∃ ms, r.trade.executedAt = some ms := by
  intro r hr
  rcases List.mem_append.mp hr with hr | hr
  · exact h r (Option.mem_toList.mp hr)
  · exact hs r hr

theorem persistRecords_ok {results : List ExecutionResult}
    (h : ∀ res ∈ results, ∃ ms, res.trade.executedAt = some ms) :
    ∃ trades balances, persistRecords results = .ok (trades, balances) ∧
      ∀ exchange, rowsChange balances exchange = resultsChange results exchange := by
  induction results with
  | nil => exact ⟨[], [], rfl, fun _ => rfl⟩
  | cons res rest ih =>
    obtain ⟨ms, hms⟩ := h res List.mem_cons_self
    obtain ⟨trades, balances, hrest, hsum⟩ := ih fun r hr => h r (List.mem_cons_of_mem _ hr)
    obtain ⟨row, hrow⟩ : ∃ row, tradeRecord res.trade = .ok row := by
      simp [tradeRecord, hms]
    refine ⟨row :: trades, balanceRecords row.time res ++ balances, ?_, fun exchange => ?_⟩
    · simp only [persistRecords, hrow, hrest]
      rfl
    · rw [rowsChange_append, rowsChange_balanceRecords, hsum, resultsChange, resultsChange,
        List.map_cons, List.sum_cons]

theorem persistRecords_at {results : List ExecutionResult} {trades : List TradeRow}
    {balances : List BalanceRow} (h : persistRecords results = .ok (trades, balances))
    {i : ℕ} {res : ExecutionResult} (hi : results[i]? = some res) :
    ∃ row, tradeRecord res.trade = .ok row ∧ trades[i]? = some row ∧
      ∀ r ∈ balanceRecords row.time res, r ∈ balances := by
  induction results generalizing i trades balances with
  | nil => cases hi
  | cons first rest ih =>
    cases hrow : tradeRecord first.trade with
    | error x =>
      simp only [persistRecords, hrow] at h
      cases h
    | ok row =>
      cases hrest : persistRecords rest with
      | error x =>
        simp only [persistRecords, hrow, hrest] at h
        cases h
      | ok rows =>
        obtain ⟨trades', balances'⟩ := rows
        simp only [persistRecords, hrow, hrest] at h
        cases h
        cases i with
        | zero =>
          cases hi
          exact ⟨row, hrow, rfl, fun r hr => List.mem_append_left _ hr⟩
        | succ i =>
          obtain ⟨row', hrow', hat, hmem⟩ := ih hrest hi
          exact ⟨row', hrow', hat, fun r hr => List.mem_append_right _ (hmem r hr)⟩

def callRows : Call → List BalanceRow
  | .copyBalance rows => rows
  | _ => []

theorem written_clean {es : List (Event Service)} (h : Clean es) (exchange : String) :
    written es exchange =
      ((es.map Event.call).map fun c => rowsChange (callRows c) exchange).sum := by
  induction es with
  | nil => rfl
  | cons e es ih =>
    obtain ⟨⟨v, hv⟩, hes⟩ := (clean_cons _ _).mp h
    have hdone : carriedOut e = true := by
      rw [carriedOut, hv]
    have hrows : eventRows e = callRows e.call := by
      unfold eventRows callRows
      cases e.call <;> simp [hdone]
    rw [written_cons, ih hes, hrows, List.map_cons, List.map_cons, List.sum_cons]

theorem written_eq_zero {es : List (Event Service)} (h : ∀ e ∈ es, eventRows e = [])
    (exchange : String) : written es exchange = 0 :=
  List.sum_eq_zero fun q hq => by
    obtain ⟨e, he, rfl⟩ := List.mem_map.mp hq
    rw [h e he]
    rfl

theorem World.LedgerAgrees.of_written {w w' : World} {es : List (Event Service)}
    (hl : w.LedgerAgrees) (hf : Follows World.serve w es w')
    (h : ∀ ex, w'.balanceOf ex = w.balanceOf ex + written es ex) : w'.LedgerAgrees := by
  intro ex
  rw [h ex, hl ex, follows_ledger hf]

theorem balanceOf_congr {w w' : World} (h : w'.hashes = w.hashes) (exchange : String) :
    w'.balanceOf exchange = w.balanceOf exchange := by
  rw [World.balanceOf, World.balanceOf, h]

section
variable [PyText]

theorem resultChange_fillResult (opp : Opportunity) (f : Fill) (rb : Option RebalanceResult)
    (newBuy newSell : ℚ) (now : ℤ) (uuid : String) (durationMs : ℤ) (exchange : String) :
    resultChange (fillResult opp f rb newBuy newSell now uuid durationMs) exchange =
      fillChange (.ok (some f)) opp exchange + rowsChange (rebalanceRecords 0 rb) exchange := by
  rw [resultChange, balanceRecords, rowsChange_append]
  simp [fillResult, fillChange]

def fillFound : Except PyExc (Option Fill) → Bool
  | .ok (some _) => true
  | _ => false

def fillRaises : Except PyExc (Option Fill) → Bool
  | .error _ => true
  | _ => false

/-- What must hold where a call starts for all it moves to be recorded: a transfer is
followed by a trade, and the books do not raise after an earlier trade of the iteration. -/
structure CallRecorded (engine : Engine) (opp : Opportunity) (w : World) (traded : Bool) :
    Prop where
  transfer : w.killSwitch = false →
    w.transferDue opp.buyExchange engine.rebalanceThreshold ≠ none →
    fillFound (w.fillDue engine opp) = true
  raise : w.killSwitch = false → fillRaises (w.fillDue engine opp) = true → traded = false

instance (engine : Engine) (opp : Opportunity) (w : World) (traded : Bool) :
    Decidable (CallRecorded engine opp w traded) :=
  decidable_of_iff
    ((w.killSwitch = false → w.transferDue opp.buyExchange engine.rebalanceThreshold ≠ none →
        fillFound (w.fillDue engine opp) = true) ∧
      (w.killSwitch = false → fillRaises (w.fillDue engine opp) = true → traded = false))
    ⟨fun h => ⟨h.1, h.2⟩, fun h => ⟨h.1, h.2⟩⟩

def returnsTrade (e : Event Service) : Bool :=
  match e.call with
  | .note (.returned (some _)) => true
  | _ => false

def startRecorded (engine : Engine) (w : World) (traded : Bool) : Call → Prop
  | .note (.started opp) => CallRecorded engine opp w traded
  | _ => True

instance (engine : Engine) (w : World) (traded : Bool) (c : Call) :
    Decidable (startRecorded engine w traded c) := by
  unfold startRecorded
  split <;> infer_instance

/-- Every call that the events start, from `w` on, is recorded. -/
def CallsRecorded (engine : Engine) : World → Bool → List (Event Service) → Prop
  | _, _, [] => True
  | w, traded, e :: es =>
    startRecorded engine (World.serve e.call w).2 traded e.call ∧
      CallsRecorded engine (World.serve e.call w).2 (traded || returnsTrade e) es

instance decidableCallsRecorded (engine : Engine) : (w : World) → (traded : Bool) →
    (es : List (Event Service)) → Decidable (CallsRecorded engine w traded es)
  | _, _, [] => isTrue trivial
  | w, traded, e :: es =>
    have := decidableCallsRecorded engine (World.serve e.call w).2 (traded || returnsTrade e) es
    inferInstanceAs (Decidable (_ ∧ _))

theorem callsRecorded_append {engine : Engine} {w m : World} {es fs : List (Event Service)}
    {traded : Bool} (hf : Follows World.serve w es m) :
    CallsRecorded engine w traded (es ++ fs) ↔
      CallsRecorded engine w traded es ∧
        CallsRecorded engine m (traded || es.any returnsTrade) fs := by
  induction es generalizing w traded with
  | nil =>
    cases hf
    simp [CallsRecorded]
  | cons e es ih =>
    simp only [List.cons_append, CallsRecorded, List.any_cons, ih hf.2, and_assoc, Bool.or_assoc]

theorem outcome_recorded {engine : Engine} {opp : Opportunity} {w w' : World} {traded : Bool}
    {r : Except PyExc (Option ExecutionResult)} (h : Outcome engine opp w w' r)
    (hc : CallRecorded engine opp w traded) :
    (∀ x, r = .error x → traded = false ∧ ∀ ex, w'.balanceOf ex = w.balanceOf ex) ∧
      (r = .ok none → ∀ ex, w'.balanceOf ex = w.balanceOf ex) ∧
      ∀ res, r = .ok (some res) → (∃ ms, res.trade.executedAt = some ms) ∧
        ∀ ex, w'.balanceOf ex = w.balanceOf ex + resultChange res ex := by
  cases h with
  | stopped hon hw' =>
    refine ⟨?_, fun _ => hw', ?_⟩
    · rintro _ ⟨⟩
    · rintro _ ⟨⟩
  | called m r hoff hm hw' hr =>
    have hidle : (∀ f, w.fillDue engine opp ≠ .ok (some f)) →
        ∀ ex, w'.balanceOf ex = w.balanceOf ex := by
      intro hno ex
      have hnone : w.transferDue opp.buyExchange engine.rebalanceThreshold = none := by
        by_contra hdue
        have hfound := hc.transfer hoff hdue
        cases hfill : w.fillDue engine opp with
        | error x => simp [hfill, fillFound] at hfound
        | ok fill =>
          cases fill with
          | none => simp [hfill, fillFound] at hfound
          | some f => exact hno f hfill
      have hzero : fillChange (w.fillDue engine opp) opp ex = 0 := by
        cases hfill : w.fillDue engine opp with
        | error x => rfl
        | ok fill =>
          cases fill with
          | none => rfl
          | some f => exact absurd hfill (hno f)
      rw [hw' ex, hm ex, hzero, hnone]
      simp [transferChange]
    generalize hfill : w.fillDue engine opp = fill at hr hidle hw'
    cases hr with
    | raised x =>
      refine ⟨fun y hy => ⟨hc.raise hoff (by rw [hfill]; rfl), hidle (by simp)⟩, ?_, ?_⟩
      · rintro ⟨⟩
      · rintro _ ⟨⟩
    | skipped =>
      refine ⟨?_, fun _ => hidle (by simp), ?_⟩
      · rintro _ ⟨⟩
      · rintro _ ⟨⟩
    | traded f now uuid durationMs =>
      refine ⟨?_, ?_, ?_⟩
      · rintro _ ⟨⟩
      · rintro ⟨⟩
      · rintro res ⟨⟩
        refine ⟨⟨now, rfl⟩, fun ex => ?_⟩
        rw [hw' ex, hm ex, resultChange_fillResult, rowsChange_transfer]
        ring

theorem batchRun_recorded {engine : Engine} {entries : List (Entry Fields)}
    {es : List (Event Service)} {r : Except PyExc (List ExecutionResult)} {w w' : World}
    {traded : Bool} (h : BatchRun engine entries es r) (hf : Follows World.serve w es w')
    (hclean : Clean es) (hc : CallsRecorded engine w traded es) :
    (∀ x, r = .error x → traded = false ∧ ∀ ex, w'.balanceOf ex = w.balanceOf ex) ∧
      ∀ results, r = .ok results →
        (∀ res ∈ results, ∃ ms, res.trade.executedAt = some ms) ∧
        ∀ ex, w'.balanceOf ex = w.balanceOf ex + resultsChange results ex := by
  induction h generalizing w traded with
  | empty =>
    cases hf
    refine ⟨by rintro _ ⟨⟩, ?_⟩
    rintro _ ⟨⟩
    exact ⟨by simp, fun ex => (add_zero _).symm⟩
  | unparsed entry rest x es r hparse hrest ih => exact ih hf hclean hc
  | failed entry rest opp es x hparse hcall =>
    obtain ⟨-, hf₁⟩ := follows_cons_ok hf
    obtain ⟨-, hclean⟩ := (clean_cons _ _).mp hclean
    have hrec : CallRecorded engine opp _ traded := hc.1
    have hout := executeRun_outcome (executeOpportunity_goes ⟨hcall, hclean⟩) hf₁
    obtain ⟨hno, hsame⟩ := (outcome_recorded hout hrec).1 x rfl
    refine ⟨?_, by rintro _ ⟨⟩⟩
    rintro _ ⟨⟩
    exact ⟨hno, hsame⟩
  | called entry rest opp es es' res r hparse hcall hrest ih =>
    have hrec : CallRecorded engine opp _ traded := hc.1
    have hsplit : startedEvent opp :: (es ++ returnedEvent res :: es') =
        (startedEvent opp :: es ++ [returnedEvent res]) ++ es' := by simp
    rw [hsplit] at hc hf hclean
    obtain ⟨m, hhead, hf'⟩ := (follows_append _ _ _ _ _).mp hf
    obtain ⟨hclean, hclean'⟩ := (clean_append _ _).mp hclean
    obtain ⟨hrest₁, hrest₂⟩ := ih hf' hclean' ((callsRecorded_append hhead).mp hc).2
    -- the call itself, between its two notes
    obtain ⟨m₁, hcall₁, hnote⟩ := (follows_append _ _ _ _ _).mp hhead
    obtain ⟨-, hcall₁⟩ := follows_cons_ok hcall₁
    obtain ⟨-, hnote⟩ := follows_cons_ok hnote
    cases hnote
    obtain ⟨hclean, -⟩ := (clean_append _ _).mp hclean
    obtain ⟨-, hclean⟩ := (clean_cons _ _).mp hclean
    have hout := executeRun_outcome (executeOpportunity_goes ⟨hcall, hclean⟩) hcall₁
    obtain ⟨-, hnone, hsome⟩ := outcome_recorded hout hrec
    have hmove : (∀ res', res = some res' → ∃ ms, res'.trade.executedAt = some ms) ∧
        ∀ ex, m₁.balanceOf ex = w.balanceOf ex + resultsChange res.toList ex := by
      cases res with
      | none => exact ⟨by rintro _ ⟨⟩, fun ex => by rw [hnone rfl ex]; exact (add_zero _).symm⟩
      | some res' =>
        obtain ⟨hat, hbal⟩ := hsome res' rfl
        refine ⟨by rintro _ ⟨⟩; exact hat, fun ex => ?_⟩
        rw [hbal ex]
        simp [resultsChange]
        rfl
    cases r with
    | error x =>
      obtain ⟨hno, hsame⟩ := hrest₁ x rfl
      refine ⟨?_, by rintro _ ⟨⟩⟩
      rintro _ ⟨⟩
      obtain ⟨htraded, hany⟩ := Bool.or_eq_false_iff.mp hno
      refine ⟨htraded, fun ex => ?_⟩
      cases res with
      | none =>
        rw [hsame ex]
        exact (hmove.2 ex).trans (add_zero _)
      | some res' => simp [returnedEvent, returnsTrade] at hany
    | ok results =>
      obtain ⟨hat, hbal⟩ := hrest₂ results rfl
      refine ⟨by rintro _ ⟨⟩, ?_⟩
      rintro _ ⟨⟩
      refine ⟨executedAt_cons hmove.1 hat, fun ex => ?_⟩
      rw [hbal ex]
      have h₁ := hmove.2 ex
      change m₁.balanceOf ex + _ = _
      rw [h₁, resultsChange, resultsChange, resultsChange, List.map_append, List.sum_append,
        add_assoc]

theorem settleBatch_recorded {entries : List (Entry Fields)} {results : List ExecutionResult}
    {es : List (Event Service)} {r : Except PyExc Unit}
    (h : (settleBatch entries results).Ends es r) (hclean : Clean es)
    (hat : ∀ res ∈ results, ∃ ms, res.trade.executedAt = some ms) (exchange : String) :
    (∀ e ∈ es, e.call.sparesBalances = true) ∧
      written es exchange = resultsChange results exchange := by
  obtain ⟨trades, balances, hrec, hsum⟩ := persistRecords_ok hat
  rcases settleBatch_performs hrec es r h with ⟨hcalls, -, -⟩ | ⟨fs, c, x, rfl, -, -, -⟩
  · constructor
    · intro e he
      have hmem : e.call ∈ es.map Event.call := List.mem_map_of_mem he
      rw [hcalls] at hmem
      simp only [persistCalls, ackCalls, List.mem_append, List.mem_map] at hmem
      rcases hmem with (hmem | hmem | ⟨res, -, hmem⟩) | hmem
      · split at hmem <;> simp_all [Call.sparesBalances]
      · split at hmem <;> simp_all [Call.sparesBalances]
      · rw [← hmem]
        rfl
      · split at hmem <;> simp_all [Call.sparesBalances]
    · rw [written_clean hclean, hcalls, ← hsum]
      have hpub : ((results.map fun res =>
          (Call.xadd tradesStream res.trade.toRedis)).map fun c =>
            rowsChange (callRows c) exchange).sum = 0 :=
        List.sum_eq_zero fun q hq => by
          simp only [List.mem_map] at hq
          obtain ⟨c, ⟨res, -, rfl⟩, rfl⟩ := hq
          rfl
      have hack : ((ackCalls entries).map fun c => rowsChange (callRows c) exchange).sum = 0 := by
        unfold ackCalls
        split
        · rfl
        · simp [callRows]
      simp only [persistCalls, List.map_append, List.sum_append, hpub, hack, add_zero]
      cases trades <;> cases balances <;> simp [callRows]
  · obtain ⟨-, hlast⟩ := (clean_append _ _).mp hclean
    obtain ⟨v, hv⟩ := hlast _ List.mem_cons_self
    cases hv

theorem batchRun_unwritten {engine : Engine} {entries : List (Entry Fields)}
    {es : List (Event Service)} {r : Except PyExc (List ExecutionResult)}
    (h : BatchRun engine entries es r) : ∀ e ∈ es, eventRows e = [] := by
  intro e he
  have hcall := batchRun_calls h e he
  obtain ⟨c, a⟩ := e
  cases c <;> simp_all [eventRows, Call.ofEngine, Call.marksCall]

theorem handleBatch_recorded {engine : Engine} {entries : List (Entry Fields)}
    {es : List (Event Service)} {r : Except PyExc Unit} {w w' : World}
    (h : (handleBatch engine entries).Ends es r) (hf : Follows World.serve w es w')
    (hclean : Clean es) (hc : CallsRecorded engine w false es) :
    ∀ ex, w'.balanceOf ex = w.balanceOf ex + written es ex := by
  rcases handleBatch_ends h (follows_local hf) with
    ⟨x, hbatch, -⟩ | ⟨results, es₁, es₂, rfl, hbatch, hsettle⟩
  · intro ex
    obtain ⟨-, hsame⟩ := (batchRun_recorded hbatch hf hclean hc).1 x rfl
    rw [hsame ex, written_eq_zero (batchRun_unwritten hbatch), add_zero]
  · obtain ⟨m, hf₁, hf₂⟩ := (follows_append _ _ _ _ _).mp hf
    obtain ⟨hclean₁, hclean₂⟩ := (clean_append _ _).mp hclean
    have hc₁ := ((callsRecorded_append hf₁).mp hc).1
    obtain ⟨hat, hbal⟩ := (batchRun_recorded hbatch hf₁ hclean₁ hc₁).2 results rfl
    intro ex
    obtain ⟨hspare, hwritten⟩ := settleBatch_recorded hsettle hclean₂ hat ex
    rw [balanceOf_congr (follows_hashes hf₂ hspare), hbal ex, written_append,
      written_eq_zero (batchRun_unwritten hbatch), hwritten, zero_add]

def passTrace (engine : Engine) (w : World) : List (Event Service) :=
  (loopPass (consumeOnce engine)).trace World.serve w

def passEnd (engine : Engine) (w : World) : World :=
  ((loopPass (consumeOnce engine)).run World.serve w).2

theorem pass_ledgerAgrees {engine : Engine} {w : World} (hw : w.Calm) (hl : w.LedgerAgrees)
    (hc : CallsRecorded engine w false (passTrace engine w)) :
    (passEnd engine w).LedgerAgrees := by
  have hf : Follows World.serve w (passTrace engine w) (passEnd engine w) :=
    Prog.follows_trace _ _ _
  have hends := Prog.ends_trace World.serve (loopPass (consumeOnce engine)) w
  have hclean := clean_of_calm hw hf
  refine hl.of_written hf ?_
  obtain ⟨es₁, es₂, q, heq, hbody, hsleep⟩ := loopPass_ends hends
  change passTrace engine w = es₁ ++ es₂ at heq
  rw [heq] at hf hclean hc ⊢
  obtain ⟨m, hf₁, hf₂⟩ := (follows_append _ _ _ _ _).mp hf
  obtain ⟨hclean₁, -⟩ := (clean_append _ _).mp hclean
  have hsame : ∀ ex, (passEnd engine w).balanceOf ex = m.balanceOf ex := fun ex =>
    balanceOf_congr (follows_hashes hf₂ fun e he => by rw [hsleep e he]; rfl) ex
  have hzero : ∀ ex, written es₂ ex = 0 := written_eq_zero fun e he => by
    rw [eventRows, hsleep e he]
  intro ex
  rw [hsame ex, written_append, hzero ex, add_zero]
  rcases consumeOnce_ends hbody (follows_local hf₁) with
    hopen | ⟨value, stream, entries, more, tail, rfl, hbatch⟩
  · rw [balanceOf_congr (follows_hashes hf₁ fun e he => ?_), written_eq_zero, add_zero]
    · intro e he
      have := hopen e he
      obtain ⟨c, a⟩ := e
      cases c <;> first | rfl | cases this
    · have := hopen e he
      obtain ⟨c, a⟩ := e
      cases c <;> first | rfl | cases this
  · obtain ⟨m₁, hhead, htail⟩ := (follows_append _ _ _ _ _).mp hf₁
    obtain ⟨-, hcleant⟩ := (clean_append _ _).mp hclean₁
    have hct := ((callsRecorded_append hhead).mp ((callsRecorded_append hf₁).mp hc).1).2
    have hhead' : m₁.hashes = w.hashes := follows_hashes hhead fun e he => by
      simp only [passEvents, List.mem_cons, List.not_mem_nil, or_false] at he
      rcases he with rfl | rfl | rfl <;> rfl
    have hunw : written (passEvents value stream entries more) ex = 0 :=
      written_eq_zero (fun e he => by
        simp only [passEvents, List.mem_cons, List.not_mem_nil, or_false] at he
        rcases he with rfl | rfl | rfl <;> rfl) ex
    rw [handleBatch_recorded hbatch htail hcleant hct ex, balanceOf_congr hhead',
      written_append, hunw, zero_add]

def loopEnd (engine : Engine) (n : ℕ) (w : World) : World :=
  ((consumeLoop engine n).run World.serve w).2

theorem loopEnd_succ (engine : Engine) (n : ℕ) (w : World) :
    loopEnd engine (n + 1) w =
      match ((loopPass (consumeOnce engine)).run World.serve w).1 with
      | .ok _ => loopEnd engine n (passEnd engine w)
      | .error _ => passEnd engine w := by
  rw [loopEnd, consumeLoop, loopFor, Prog.run_bind]
  cases h : ((loopPass (consumeOnce engine)).run World.serve w).1 with
  | ok a => rfl
  | error x => rfl

/-- Balances and history agree after every iteration of every run in which each call
records what it moves: a transfer is followed by a trade, and no book raises once a call
of the same iteration has returned a trade. -/
theorem loopEnd_ledgerAgrees (engine : Engine) (w : World) (hw : w.Calm)
    (hl : w.LedgerAgrees) (n : ℕ)
    (hc : ∀ k < n, CallsRecorded engine (loopEnd engine k w) false
      (passTrace engine (loopEnd engine k w))) : (loopEnd engine n w).LedgerAgrees := by
  induction n generalizing w with
  | zero => exact hl
  | succ n ih =>
    have hpass : (passEnd engine w).LedgerAgrees :=
      pass_ledgerAgrees hw hl (hc 0 (Nat.succ_pos n))
    have hcalm : (passEnd engine w).Calm :=
      (Prog.follows_trace World.serve (loopPass (consumeOnce engine)) w).calm hw
    by_cases hok : ∃ a, ((loopPass (consumeOnce engine)).run World.serve w).1 = .ok a
    · obtain ⟨a, ha⟩ := hok
      have hshift : ∀ k, loopEnd engine (k + 1) w = loopEnd engine k (passEnd engine w) :=
        fun k => by rw [loopEnd_succ, ha]
      rw [hshift]
      refine ih (passEnd engine w) hcalm hpass fun k hk => ?_
      rw [← hshift]
      exact hc (k + 1) (by omega)
    · rw [loopEnd_succ]
      cases ha : ((loopPass (consumeOnce engine)).run World.serve w).1 with
      | ok a => exact absurd ⟨a, ha⟩ hok
      | error x => exact hpass

end

/-- 50 on one exchange, 10000 on the others, and one opportunity to buy where the 50 is. -/
def lowWorld (outside : ℕ → Outside) : World :=
  sampleWorld outside
    (balanceExchanges.map fun ex => (ex, if ex = "gateio" then 50 else 10000))
    [sampleOpportunity "gateio" "binance" (3 / 10) (1 / 10)]

/-- With books to trade on, the transfer and the trade are both recorded. -/
theorem loopEnd_ledgerAgrees_traded :
    (@loopEnd sampleText ⟨10, 100⟩ 1 (lowWorld sampleOutside)).LedgerAgrees := by
  refine @loopEnd_ledgerAgrees sampleText ⟨10, 100⟩ (lowWorld sampleOutside) (fun _ => rfl)
    (sampleWorld_seeded _ _ _).agrees 1 fun k hk => ?_
  obtain rfl : k = 0 := by omega
  decide +kernel

/-- With no books the trade is skipped after the transfer: gateio holds 5050, its history
says 50. -/
theorem loopEnd_transfer_unrecorded :
    (lowWorld fun _ => default).Calm ∧ (lowWorld fun _ => default).Seeded ∧
      (@loopEnd sampleText ⟨10, 100⟩ 1 (lowWorld fun _ => default)).balanceOf "gateio" = 5050 ∧
      (@loopEnd sampleText ⟨10, 100⟩ 1 (lowWorld fun _ => default)).ledger "gateio" = 50 :=
  ⟨fun _ => rfl, sampleWorld_seeded _ _ _, by decide +kernel, by decide +kernel⟩

end CriptoParser
