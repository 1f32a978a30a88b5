import CriptoParser.ExecutorPaperTrading
import CriptoParser.ServiceLoop

set_option autoImplicit false

namespace CriptoParser

open Await Streams

def executorGroup : String := "executor-cg"

/-- `_trade_record`; the row time is `executed_at` in seconds. -/
def tradeRecord (t : Trade) : Except PyExc TradeRow :=
  match t.executedAt with
  | none => .error .typeError
  | some ms => .ok {
      time := ms / 1000
      id := t.id
      opportunityId := t.opportunityId
      symbol := t.symbol
      buyExchange := t.buyExchange
      sellExchange := t.sellExchange
      buyPrice := t.buyPrice
      sellPrice := t.sellPrice
      amount := t.amount
      buyFee := t.buyFee
      sellFee := t.sellFee
      withdrawalFee := t.withdrawalFee
      slippageCost := t.slippageCost
      grossPnl := t.grossPnl
      netPnl := t.netPnl
      status := t.status
      executedAt := ms / 1000
      durationMs := t.durationMs }

def balanceRow (executed : ℚ) (exchange : String) (amount : ℚ) (tradeId : Option String)
    (change : ℚ) (reason : String) : BalanceRow where
  time := executed
  exchange := exchange
  asset := "USDT"
  amount := amount
  tradeId := tradeId
  changeAmount := some change
  reason := reason

def rebalanceRecords (executed : ℚ) : Option RebalanceResult → List BalanceRow
  | none => []
  | some rb => [
      balanceRow executed rb.donor rb.donorNewBalance none (-rb.grossAmount) "rebalance",
      balanceRow executed rb.receiver rb.receiverNewBalance none rb.netAmount "rebalance"]

def balanceRecords (executed : ℚ) (res : ExecutionResult) : List BalanceRow :=
  (res.balanceUpdates.map fun u =>
    balanceRow executed u.1 u.2.1 (some res.trade.id) u.2.2 "trade") ++
  rebalanceRecords executed res.rebalance

/-- The rows of both tables for the results, in the order of the results. -/
def persistRecords : List ExecutionResult → Except PyExc (List TradeRow × List BalanceRow)
  | [] => .ok ([], [])
  | res :: rest => do
    let row ← tradeRecord res.trade
    let (trades, balances) ← persistRecords rest
    .ok (row :: trades, balanceRecords row.time res ++ balances)

section
variable [PyText]

def publishTrades : List ExecutionResult → Task Unit
  | [] => pure ()
  | res :: rest => do
    Prog.call (S := Service) (.xadd tradesStream res.trade.toRedis)
    publishTrades rest

def persist (results : List ExecutionResult) : Task Unit := do
  let (trades, balances) ← Prog.lift (persistRecords results)
  awaitIf (!trades.isEmpty) (Prog.call (S := Service) (.copyTrades trades))
  awaitIf (!balances.isEmpty) (Prog.call (S := Service) (.copyBalance balances))
  publishTrades results

/-- The entries of a batch executed one by one; an entry that does not parse is skipped. -/
def executeAll (engine : Engine) : List (Entry Fields) → Task (List ExecutionResult)
  | [] => pure []
  | entry :: rest =>
    match Opportunity.fromRedis entry.payload with
    | .error _ => executeAll engine rest
    | .ok opp => do
      Prog.call (S := Service) (.note (.started opp))
      let res ← executeOpportunity engine opp
      Prog.call (S := Service) (.note (.returned res))
      let results ← executeAll engine rest
      return res.toList ++ results

def settleBatch (entries : List (Entry Fields)) (results : List ExecutionResult) :
    Task Unit := do
  awaitIf (!results.isEmpty) (persist results)
  awaitIf (!entries.isEmpty) (Prog.call (S := Service)
    (.xack opportunitiesStream executorGroup (entries.map Entry.id)))

def handleBatch (engine : Engine) (entries : List (Entry Fields)) : Task Unit := do
  let results ← executeAll engine entries
  settleBatch entries results

def consumeOnce (engine : Engine) : Task Unit := do
  let value ← Prog.call (S := Service) (.get killSwitchKey)
  Prog.call (S := Service) (.setKillSwitch (value = some "1"))
  let resp ← Prog.call (S := Service) (.xreadgroup executorGroup [opportunitiesStream] 100)
  match resp with
  | [] => return ()
  | (_, entries) :: _ => handleBatch engine entries

end

def consumeLoop [PyText] (engine : Engine) (n : ℕ) : Task Unit :=
  loopFor (consumeOnce engine) n

def Call.marksCall : Call → Bool
  | .note (.started _) | .note (.returned _) => true
  | _ => false

def startedEvent (opp : Opportunity) : Event Service := ⟨.note (.started opp), .ok ()⟩

def returnedEvent (res : Option ExecutionResult) : Event Service :=
  ⟨.note (.returned res), .ok ()⟩

theorem clean_called {opp : Opportunity} {res : Option ExecutionResult}
    {es es' : List (Event Service)}
    (h : Clean (startedEvent opp :: (es ++ returnedEvent res :: es'))) : Clean es ∧ Clean es' := by
  obtain ⟨-, hrest⟩ := (clean_cons _ _).mp h
  obtain ⟨hes, htail⟩ := (clean_append _ _).mp hrest
  exact ⟨hes, ((clean_cons _ _).mp htail).2⟩

section
variable [PyText]

inductive BatchRun (engine : Engine) : List (Entry Fields) → List (Event Service) →
    Except PyExc (List ExecutionResult) → Prop
  | empty : BatchRun engine [] [] (.ok [])
  | unparsed (entry : Entry Fields) (rest : List (Entry Fields)) (x : PyExc)
      (es : List (Event Service)) (r : Except PyExc (List ExecutionResult))
      (hparse : Opportunity.fromRedis entry.payload = .error x)
      (hrest : BatchRun engine rest es r) : BatchRun engine (entry :: rest) es r
  | failed (entry : Entry Fields) (rest : List (Entry Fields)) (opp : Opportunity)
      (es : List (Event Service)) (x : PyExc)
      (hparse : Opportunity.fromRedis entry.payload = .ok opp)
      (hcall : (executeOpportunity engine opp).Ends es (.error x)) :
      BatchRun engine (entry :: rest) (startedEvent opp :: es) (.error x)
  | called (entry : Entry Fields) (rest : List (Entry Fields)) (opp : Opportunity)
      (es es' : List (Event Service)) (res : Option ExecutionResult)
      (r : Except PyExc (List ExecutionResult))
      (hparse : Opportunity.fromRedis entry.payload = .ok opp)
      (hcall : (executeOpportunity engine opp).Ends es (.ok res))
      (hrest : BatchRun engine rest es' r) :
      BatchRun engine (entry :: rest) (startedEvent opp :: (es ++ returnedEvent res :: es'))
        (r.map fun results => res.toList ++ results)

theorem executeAll_ends {engine : Engine} {entries : List (Entry Fields)}
    {es : List (Event Service)} {r : Except PyExc (List ExecutionResult)}
    (h : (executeAll engine entries).Ends es r) (hl : Prog.Answered Call.isLocal es) :
    BatchRun engine entries es r := by
  induction entries generalizing es r with
  | nil =>
    obtain ⟨rfl, rfl⟩ := (Prog.ends_pure _ _ _).mp h
    exact .empty
  | cons entry rest ih =>
    cases hparse : Opportunity.fromRedis entry.payload with
    | error x =>
      simp only [executeAll, hparse] at h
      exact .unparsed entry rest x es r hparse (ih h hl)
    | ok opp =>
      simp only [executeAll, hparse] at h
      obtain ⟨-, es₁, rfl, h₁, hl₁⟩ := hl.call_bind h rfl
      rw [Prog.bind_eq, Prog.ends_bind] at h₁
      rcases h₁ with ⟨res, es₂, es₃, rfl, hcall, h₂⟩ | ⟨x, hcall, rfl⟩
      · obtain ⟨-, hl₂⟩ := (Prog.answered_append _ _ _).mp hl₁
        obtain ⟨-, es₄, rfl, h₃, hl₃⟩ := hl₂.call_bind h₂ rfl
        rw [Prog.bind_eq, Prog.ends_bind] at h₃
        rcases h₃ with ⟨results, es₅, es₆, rfl, hrest, h₄⟩ | ⟨x, hrest, rfl⟩
        · obtain ⟨rfl, rfl⟩ := (Prog.ends_pure _ _ _).mp h₄
          obtain ⟨hl₄, -⟩ := (Prog.answered_append _ _ _).mp hl₃
          rw [List.append_nil]
          exact .called entry rest opp es₂ es₅ res (.ok results) hparse hcall (ih hrest hl₄)
        · exact .called entry rest opp es₂ es₄ res (.error x) hparse hcall (ih hrest hl₃)
      · exact .failed entry rest opp es₁ x hparse hcall

theorem batchRun_calls {engine : Engine} {entries : List (Entry Fields)}
    {es : List (Event Service)} {r : Except PyExc (List ExecutionResult)}
    (h : BatchRun engine entries es r) :
    ∀ e ∈ es, e.call.ofEngine = true ∨ e.call.marksCall = true := by
  induction h with
  | empty => simp
  | unparsed _ _ _ _ _ _ _ ih => exact ih
  | failed _ _ opp es x _ hcall =>
    intro e he
    rcases List.mem_cons.mp he with rfl | he
    · exact .inr rfl
    · exact .inl ((executeOpportunity_uses engine opp).ends hcall e he)
  | called _ _ opp es es' res r _ hcall _ ih =>
    intro e he
    simp only [List.mem_cons, List.mem_append] at he
    rcases he with rfl | he | rfl | he
    · exact .inr rfl
    · exact .inl ((executeOpportunity_uses engine opp).ends hcall e he)
    · exact .inr rfl
    · exact ih e he

def persistCalls (trades : List TradeRow) (balances : List BalanceRow)
    (results : List ExecutionResult) : List Call :=
  (if trades.isEmpty then [] else [.copyTrades trades]) ++
  ((if balances.isEmpty then [] else [.copyBalance balances]) ++
  results.map fun res => .xadd tradesStream res.trade.toRedis)

theorem publishTrades_performs (results : List ExecutionResult) :
    (publishTrades results).Performs
      (results.map fun res => .xadd tradesStream res.trade.toRedis) := by
  induction results with
  | nil => exact Prog.performs_pure ()
  | cons res rest ih =>
    exact Prog.performs_bind (Prog.performs_call (S := Service) _) fun _ => ih

theorem persist_eq {results : List ExecutionResult} {trades : List TradeRow}
    {balances : List BalanceRow} (h : persistRecords results = .ok (trades, balances)) :
    persist results = (do
      awaitIf (!trades.isEmpty) (Prog.call (S := Service) (.copyTrades trades))
      awaitIf (!balances.isEmpty) (Prog.call (S := Service) (.copyBalance balances))
      publishTrades results) := by
  unfold persist
  rw [h]
  rfl

theorem persist_performs {results : List ExecutionResult} {trades : List TradeRow}
    {balances : List BalanceRow} (h : persistRecords results = .ok (trades, balances)) :
    (persist results).Performs (persistCalls trades balances results) := by
  rw [persist_eq h]
  exact Prog.performs_bind (performs_awaitIf _ _ _ (Prog.performs_call (S := Service) _))
    fun _ => Prog.performs_bind
      (performs_awaitIf _ _ _ (Prog.performs_call (S := Service) _))
      fun _ => publishTrades_performs results

def Call.persists : Call → Bool
  | .copyTrades _ | .copyBalance _ | .xadd _ _ | .xack _ _ _ => true
  | _ => false

theorem persist_allowed {allowed : Call → Prop} (results : List ExecutionResult)
    (htrades : ∀ rows, allowed (.copyTrades rows)) (hbalance : ∀ rows, allowed (.copyBalance rows))
    (hadd : ∀ fields, allowed (.xadd tradesStream fields)) : (persist results).Uses allowed := by
  have hpublish : ∀ results : List ExecutionResult, (publishTrades results).Uses allowed := by
    intro results
    induction results with
    | nil => exact Prog.uses_pure _
    | cons res rest ih =>
      exact Prog.uses_bind ((Prog.uses_call (S := Service) _).mpr (hadd _)) fun _ => ih
  refine Prog.uses_bind (Prog.uses_lift _) fun rows => ?_
  refine Prog.uses_bind (awaitIf_uses _ ((Prog.uses_call (S := Service) _).mpr (htrades _)))
    fun _ => ?_
  exact Prog.uses_bind (awaitIf_uses _ ((Prog.uses_call (S := Service) _).mpr (hbalance _)))
    fun _ => hpublish results

theorem settleBatch_uses (entries : List (Entry Fields)) (results : List ExecutionResult) :
    (settleBatch entries results).Uses (fun c => Call.persists c = true) :=
  Prog.uses_bind
    (awaitIf_uses _ (persist_allowed results (fun _ => rfl) (fun _ => rfl) fun _ => rfl))
    fun _ => awaitIf_uses _ ((Prog.uses_call (S := Service) _).mpr rfl)

def ackCalls (entries : List (Entry Fields)) : List Call :=
  if entries.isEmpty then []
  else [.xack opportunitiesStream executorGroup (entries.map Entry.id)]

theorem settleBatch_performs {entries : List (Entry Fields)} {results : List ExecutionResult}
    {trades : List TradeRow} {balances : List BalanceRow}
    (h : persistRecords results = .ok (trades, balances)) :
    (settleBatch entries results).Performs
      (persistCalls trades balances results ++ ackCalls entries) := by
  refine Prog.performs_bind ?_ fun _ =>
    performs_awaitIf _ _ _ (Prog.performs_call (S := Service) _)
  cases results with
  | nil =>
    cases h
    exact Prog.performs_pure ()
  | cons res rest => exact persist_performs h

theorem handleBatch_ends {engine : Engine} {entries : List (Entry Fields)}
    {es : List (Event Service)} {r : Except PyExc Unit}
    (h : (handleBatch engine entries).Ends es r) (hl : Prog.Answered Call.isLocal es) :
    (∃ x, BatchRun engine entries es (.error x) ∧ r = .error x) ∨
      ∃ results es₁ es₂, es = es₁ ++ es₂ ∧ BatchRun engine entries es₁ (.ok results) ∧
        (settleBatch entries results).Ends es₂ r := by
  unfold handleBatch at h
  rw [Prog.bind_eq, Prog.ends_bind] at h
  rcases h with ⟨results, es₁, es₂, rfl, h₁, h₂⟩ | ⟨x, h₁, rfl⟩
  · exact .inr ⟨results, es₁, es₂, rfl,
      executeAll_ends h₁ ((Prog.answered_append _ _ _).mp hl).1, h₂⟩
  · exact .inl ⟨x, executeAll_ends h₁ hl, rfl⟩

def Call.opensPass : Call → Bool
  | .get _ | .setKillSwitch _ | .xreadgroup _ _ _ => true
  | _ => false

def passEvents (value : Option String) (stream : String) (entries : List (Entry Fields))
    (more : List (String × List (Entry Fields))) : List (Event Service) := [
  ⟨.get killSwitchKey, .ok value⟩,
  ⟨.setKillSwitch (value = some "1"), .ok ()⟩,
  ⟨.xreadgroup executorGroup [opportunitiesStream] 100, .ok ((stream, entries) :: more)⟩]

theorem consumeOnce_ends {engine : Engine} {es : List (Event Service)} {r : Except PyExc Unit}
    (h : (consumeOnce engine).Ends es r) (hl : Prog.Answered Call.isLocal es) :
    (∀ e ∈ es, e.call.opensPass = true) ∨
      ∃ value stream entries more tail, es = passEvents value stream entries more ++ tail ∧
        (handleBatch engine entries).Ends tail r := by
  unfold consumeOnce at h
  rcases (Prog.ends_call_bind _ _ _ _).mp h with ⟨value, es₁, rfl, h₁⟩ | ⟨x, rfl, rfl⟩
  · obtain ⟨-, hl₁⟩ := (Prog.answered_cons _ _ _).mp hl
    obtain ⟨-, es₂, rfl, h₂, hl₂⟩ := hl₁.call_bind h₁ rfl
    rcases (Prog.ends_call_bind _ _ _ _).mp h₂ with ⟨resp, es₃, rfl, h₃⟩ | ⟨x, rfl, rfl⟩
    · cases resp with
      | nil =>
        obtain ⟨rfl, rfl⟩ := (Prog.ends_pure _ _ _).mp h₃
        exact .inl (by simp [Call.opensPass])
      | cons first more =>
        obtain ⟨stream, entries⟩ := first
        exact .inr ⟨value, stream, entries, more, es₃, rfl, h₃⟩
    · exact .inl (by simp [Call.opensPass])
  · exact .inl (by simp [Call.opensPass])

/-- Everything the loop can do: calls between batches, and the batches it handles. -/
inductive LoopRun (engine : Engine) : List (Event Service) → Prop
  | stop : LoopRun engine []
  | idle (e : Event Service) (es : List (Event Service))
      (hcall : e.call.opensPass = true ∨ e.call = .sleep 1) (hrest : LoopRun engine es) :
      LoopRun engine (e :: es)
  | batch (entries : List (Entry Fields)) (es es' : List (Event Service))
      (r : Except PyExc Unit) (hbatch : (handleBatch engine entries).Ends es r)
      (hrest : LoopRun engine es') : LoopRun engine (es ++ es')

theorem LoopRun.idles {engine : Engine} {es es' : List (Event Service)}
    (h : ∀ e ∈ es, e.call.opensPass = true ∨ e.call = .sleep 1) (h' : LoopRun engine es') :
    LoopRun engine (es ++ es') := by
  induction es with
  | nil => exact h'
  | cons e es ih =>
    exact .idle e _ (h e List.mem_cons_self) (ih fun d hd => h d (List.mem_cons_of_mem _ hd))

theorem consumeLoop_run {engine : Engine} {n : ℕ} {es : List (Event Service)}
    {r : Except PyExc Unit} (h : (consumeLoop engine n).Ends es r)
    (hl : Prog.Answered Call.isLocal es) : LoopRun engine es := by
  unfold consumeLoop at h
  have hpass : ∀ {es es' r}, (loopPass (consumeOnce engine)).Ends es r →
      Prog.Answered Call.isLocal es → LoopRun engine es' → LoopRun engine (es ++ es') := by
    intro es es' r h hl hrest
    obtain ⟨es₁, es₂, q, heq, hbody, hsleep⟩ := loopPass_ends h
    subst heq
    obtain ⟨hl₁, -⟩ := (Prog.answered_append _ _ _).mp hl
    have hrest' : LoopRun engine (es₂ ++ es') := .idles (fun e he => .inr (hsleep e he)) hrest
    rw [List.append_assoc]
    rcases consumeOnce_ends hbody hl₁ with
      hopen | ⟨value, stream, entries, more, tail, heq, hbatch⟩
    · exact .idles (fun e he => .inl (hopen e he)) hrest'
    · subst heq
      rw [List.append_assoc]
      refine .idles (fun e he => ?_) (.batch entries tail _ q hbatch hrest')
      simp only [passEvents, List.mem_cons, List.not_mem_nil, or_false] at he
      rcases he with rfl | rfl | rfl <;> exact .inl rfl
  induction n generalizing es with
  | zero =>
    obtain ⟨heq, -⟩ := (Prog.ends_pure _ _ _).mp h
    subst heq
    exact .stop
  | succ n ih =>
    rw [loopFor, Prog.bind_eq, Prog.ends_bind] at h
    rcases h with ⟨u, es₁, es₂, heq, h₁, h₂⟩ | ⟨x, h₁, -⟩
    · subst heq
      obtain ⟨hl₁, hl₂⟩ := (Prog.answered_append _ _ _).mp hl
      exact hpass h₁ hl₁ (ih h₂ hl₂)
    · have := hpass h₁ hl .stop
      rwa [List.append_nil] at this

def Call.ofLoop (c : Call) : Bool :=
  c.ofEngine || c.persists || c.opensPass ||
    match c with
    | .note _ | .sleep _ => true
    | _ => false

theorem executeAll_allowed {allowed : Call → Prop} (engine : Engine)
    (entries : List (Entry Fields)) (hnote : ∀ n, allowed (.note n))
    (hengine : ∀ c : Call, c.ofEngine = true → allowed c) :
    (executeAll engine entries).Uses allowed := by
  induction entries with
  | nil => exact Prog.uses_pure _
  | cons entry rest ih =>
    unfold executeAll
    split
    · exact ih
    · refine Prog.uses_bind ((Prog.uses_call (S := Service) _).mpr (hnote _)) fun _ => ?_
      refine Prog.uses_bind ((executeOpportunity_uses engine _).mono hengine) fun _ => ?_
      exact Prog.uses_bind ((Prog.uses_call (S := Service) _).mpr (hnote _)) fun _ =>
        Prog.uses_bind ih fun _ => Prog.uses_pure _

theorem executeAll_uses (engine : Engine) (entries : List (Entry Fields)) :
    (executeAll engine entries).Uses (fun c => Call.ofLoop c = true) :=
  executeAll_allowed engine entries (fun _ => by simp [Call.ofLoop])
    fun c hc => by simp [Call.ofLoop, hc]

theorem consumeLoop_uses (engine : Engine) (n : ℕ) :
    (consumeLoop engine n).Uses (fun c => Call.ofLoop c = true) := by
  have hsleep : (Call.sleep 1).ofLoop = true := rfl
  refine loopFor_uses ?_ hsleep n
  unfold consumeOnce
  refine Prog.uses_bind ((Prog.uses_call (S := Service) _).mpr rfl) fun _ =>
    Prog.uses_bind ((Prog.uses_call (S := Service) _).mpr rfl) fun _ =>
    Prog.uses_bind ((Prog.uses_call (S := Service) _).mpr rfl) fun resp => ?_
  split
  · exact Prog.uses_pure _
  · exact Prog.uses_bind (executeAll_uses engine _) fun _ =>
      (settleBatch_uses _ _).mono fun c hc => by simp [Call.ofLoop, hc]

end

end CriptoParser
