import CriptoParser.AwaitTasks
import CriptoParser.ExecutorLedger

set_option autoImplicit false

namespace CriptoParser

open Await Streams

structure Supply where
  opp : Option Opportunity
  balance : Option ℚ
  time : ℚ
  transferred : Bool
  quoted : Bool
  traded : Bool

def Supply.idle : Supply := ⟨none, none, 0, false, false, false⟩

/-- A change of the buyer's balance before the books are read is the credit of a transfer. -/
def Supply.credits (q : Supply) (key : String) : Bool :=
  !q.quoted && q.opp.any fun opp => key = balanceKey opp.buyExchange

def Supply.next (q : Supply) : Event Service → Supply
  | ⟨.note (.started opp), _⟩ => ⟨some opp, none, q.time, false, false, q.traded⟩
  | ⟨.note (.returned t), _⟩ => { q with opp := none, traded := q.traded || t.isSome }
  | ⟨.xreadgroup _ _ _, _⟩ => { q with traded := false }
  | ⟨.time, .ok t⟩ => { q with time := t }
  | ⟨.hget _ _, .ok v⟩ => { q with balance := q.balance.or (some (Option.getD v 0)) }
  | ⟨.hincrbyfloat key _ _, .ok v⟩ =>
    if q.credits key then { q with balance := some v, transferred := true } else q
  | ⟨.mget _, _⟩ => { q with quoted := true }
  | _ => q

structure Supply.Opening (q : Supply) (opp : Opportunity) : Prop where
  opp : q.opp = some opp
  balance : q.balance = none
  transferred : q.transferred = false
  quoted : q.quoted = false

theorem Supply.opening_started (q : Supply) (opp : Opportunity) :
    (q.next (startedEvent opp)).Opening opp := ⟨rfl, rfl, rfl, rfl⟩

theorem moved_quoteEvents (opp : Opportunity) (t : ℚ) (raws : String → Option String)
    (ex : String) : moved (quoteEvents opp t raws) ex = 0 :=
  moved_spare (by simp [quoteEvents, Call.sparesBalances]) ex

/-- A transfer needs a fill after it, and a book must not raise once a trade is held. -/
def fillServes (fill : Except PyExc (Option Fill)) (transferred traded : Bool) : Prop :=
  match fill with
  | .ok (some _) => True
  | .ok none => transferred = false
  | .error _ => transferred = false ∧ traded = false

instance (fill : Except PyExc (Option Fill)) (transferred traded : Bool) :
    Decidable (fillServes fill transferred traded) := by
  unfold fillServes
  split <;> infer_instance

section
variable [PyText]

def Supply.allows (engine : Engine) (q : Supply) : Event Service → Prop
  | ⟨.hincrbyfloat key _ _, .ok v⟩ =>
    q.credits key = true → minNotionalUsdt ≤ v * engine.maxPositionPct / 100
  | ⟨.mget _, .ok raws⟩ => ∀ opp ∈ q.opp, ∀ balance ∈ q.balance,
    fillServes (fillAt opp q.time raws (balance * engine.maxPositionPct / 100))
      q.transferred q.traded
  | _ => True

/-- Every transfer leaves enough for a trade and finds books for it, and no book raises
while the batch holds a trade or a transfer. -/
@[reducible] def supplied (engine : Engine) : Monitor (Event Service) where
  State := Supply
  next := Supply.next
  allows := Supply.allows engine

instance (engine : Engine) (q : (supplied engine).State) (e : Event Service) :
    Decidable ((supplied engine).allows q e) := by
  change Decidable (Supply.allows engine q e)
  unfold Supply.allows
  split <;> infer_instance

theorem supplied_reads (engine : Engine) {q : Supply} {balance : ℚ} (hb : q.balance = some balance)
    (names : List String) (v : String → Option ℚ) :
    (supplied engine).Accepts q (readEvents names v) ∧
      (supplied engine).after q (readEvents names v) = q := by
  apply Monitor.accepts_still
  intro e he
  obtain ⟨ex, -, rfl⟩ := List.mem_map.mp he
  refine ⟨trivial, ?_⟩
  obtain ⟨opp, b, t, tr, qu, td⟩ := q
  simp only at hb
  subst hb
  rfl

theorem supplied_donor (engine : Engine) {q : Supply} {opp : Opportunity} {donor : String}
    (hopp : q.opp = some opp) (hq : q.quoted = false) (hne : donor ≠ opp.buyExchange)
    (delta new : ℚ) :
    q.credits (balanceKey opp.buyExchange) = true ∧
      (supplied engine).next q (moveEvent donor delta new) = q := by
  have hdonor : q.credits (balanceKey donor) = false := by
    simp [Supply.credits, hopp, hne]
  constructor
  · simp [Supply.credits, hopp, hq]
  · change (if q.credits (balanceKey donor) then _ else q) = q
    rw [hdonor]
    rfl

theorem rebalanceRun_after {engine : Engine} {opp : Opportunity} {balance : ℚ}
    {es : List (Event Service)} {rb : Option RebalanceResult} {q : Supply}
    (h : RebalanceRun opp.buyExchange balance engine.rebalanceThreshold es rb)
    (hopp : q.opp = some opp) (hb : q.balance = some balance) (hq : q.quoted = false) :
    (rb = none → (supplied engine).after q es = q) ∧
      ∀ res, rb = some res → (supplied engine).after q es =
        { q with balance := some res.receiverNewBalance, transferred := true } := by
  cases h with
  | enough hlt => exact ⟨fun _ => rfl, nofun⟩
  | exhausted v donor hle hd hno =>
    obtain ⟨-, hafter⟩ := supplied_reads engine hb balanceExchanges v
    refine ⟨fun _ => ?_, nofun⟩
    rw [Monitor.after_append, hafter]
    rfl
  | transferred v donor cfg donorNew receiverNew hle hd hne hgt hcfg =>
    obtain ⟨-, hafter⟩ := supplied_reads engine hb balanceExchanges v
    obtain ⟨hcredit, hstep⟩ := supplied_donor engine hopp hq hne (-((v donor).getD 0 / 2)) donorNew
    refine ⟨nofun, fun res hres => ?_⟩
    cases hres
    rw [Monitor.after_append, hafter]
    change (supplied engine).next ((supplied engine).next ((supplied engine).next q _) _) _ = _
    rw [hstep]
    change (if q.credits (balanceKey opp.buyExchange) then _ else q) = _
    rw [hcredit]
    rfl

theorem rebalanceRun_supplied {engine : Engine} {opp : Opportunity} {balance : ℚ}
    {es : List (Event Service)} {rb : Option RebalanceResult} {q : Supply}
    (h : RebalanceRun opp.buyExchange balance engine.rebalanceThreshold es rb)
    (hopp : q.opp = some opp) (hb : q.balance = some balance) (hq : q.quoted = false)
    (hs : (supplied engine).Accepts q es) :
    (∀ ex, moved es ex = rowsChange (rebalanceRecords 0 rb) ex) ∧
      ∀ res, rb = some res →
        minNotionalUsdt ≤ res.receiverNewBalance * engine.maxPositionPct / 100 := by
  cases h with
  | enough hlt => exact ⟨fun ex => rfl, nofun⟩
  | exhausted v donor hle hd hno =>
    refine ⟨fun ex => ?_, nofun⟩
    rw [moved_append, moved_spare (readEvents_spare _ _)]
    simp [eventChange, rebalanceRecords]
  | transferred v donor cfg donorNew receiverNew hle hd hne hgt hcfg =>
    refine ⟨fun ex => ?_, fun res hres => ?_⟩
    · rw [moved_append, moved_spare (readEvents_spare _ _)]
      simp [transferEvents, transferResult, rebalanceRecords]
    · cases hres
      obtain ⟨-, hafter⟩ := supplied_reads engine hb balanceExchanges v
      have hs' := ((supplied engine).accepts_append _ _ _).mp hs
      rw [hafter] at hs'
      obtain ⟨hcredit, hstep⟩ :=
        supplied_donor engine hopp hq hne (-((v donor).getD 0 / 2)) donorNew
      obtain ⟨-, hmin, -⟩ := hs'.2
      rw [hstep] at hmin
      exact hmin hcredit

structure Accounted (traded : Bool) (es : List (Event Service))
    (r : Except PyExc (Option ExecutionResult)) : Prop where
  raised : ∀ x, r = .error x → traded = false ∧ ∀ ex, moved es ex = 0
  skipped : r = .ok none → ∀ ex, moved es ex = 0
  returned : ∀ res, r = .ok (some res) → (∃ ms, res.trade.executedAt = some ms) ∧
    ∀ ex, moved es ex = resultChange res ex

theorem quoteEvents_supplied {engine : Engine} {opp : Opportunity} {balance t : ℚ}
    {raws : String → Option String} {q : Supply} (hopp : q.opp = some opp)
    (hb : q.balance = some balance)
    (hs : (supplied engine).Accepts q (quoteEvents opp t raws)) :
    fillServes (fillAt opp t raws (balance * engine.maxPositionPct / 100))
      q.transferred q.traded :=
  hs.2.1 opp hopp balance hb

theorem tradeRun_supplied {engine : Engine} {opp : Opportunity} {balance : ℚ}
    {rb : Option RebalanceResult} {es : List (Event Service)}
    {r : Except PyExc (Option ExecutionResult)} {q : Supply}
    (h : TradeRun engine opp balance rb es r) (hopp : q.opp = some opp)
    (hb : q.balance = some balance)
    (htr : q.transferred = true → minNotionalUsdt ≤ balance * engine.maxPositionPct / 100)
    (hs : (supplied engine).Accepts q es) :
    ((supplied engine).after q es).traded = q.traded ∧
      (∀ x, r = .error x → q.transferred = false ∧ q.traded = false ∧ ∀ ex, moved es ex = 0) ∧
      (r = .ok none → q.transferred = false ∧ ∀ ex, moved es ex = 0) ∧
      ∀ res, r = .ok (some res) → (∃ ms, res.trade.executedAt = some ms) ∧
        ∀ ex, moved es ex + rowsChange (rebalanceRecords 0 rb) ex = resultChange res ex := by
  cases h with
  | small hn =>
    refine ⟨rfl, fun _ hr => (by cases hr), fun _ => ⟨?_, moved_nil⟩, fun _ hr => (by cases hr)⟩
    cases htq : q.transferred with
    | false => rfl
    | true => exact absurd (htr htq) (not_le.mpr hn)
  | skipped t raws hn hfill =>
    have hserves := quoteEvents_supplied hopp hb hs
    rw [hfill] at hserves
    exact ⟨rfl, fun _ hr => (by cases hr), fun _ => ⟨hserves, moved_quoteEvents opp t raws⟩,
      fun _ hr => (by cases hr)⟩
  | raised t raws x hn hfill =>
    have hserves := quoteEvents_supplied hopp hb hs
    rw [hfill] at hserves
    exact ⟨rfl, fun _ _ => ⟨hserves.1, hserves.2, moved_quoteEvents opp t raws⟩,
      fun hr => (by cases hr), fun _ hr => (by cases hr)⟩
  | traded t raws f newBuy newSell t₁ uuid t₂ durationMs hn hfill =>
    refine ⟨rfl, fun _ hr => (by cases hr), fun hr => (by cases hr), fun res hres => ?_⟩
    cases hres
    refine ⟨⟨_, rfl⟩, fun ex => ?_⟩
    rw [resultChange_fillResult, moved_append, moved_legEvents, moved_quoteEvents, zero_add]
    rfl

theorem Supply.Opening.after_open {engine : Engine} {opp : Opportunity} {q : Supply}
    (hq : q.Opening opp) (start : ℚ) (v : Option ℚ) :
    (supplied engine).after q (openEvents opp start v) =
      { q with balance := some (v.getD 0), time := start } := by
  change Supply.mk q.opp (q.balance.or (some (v.getD 0))) start _ _ _ = _
  rw [hq.balance]
  rfl

theorem executeRun_supplied {engine : Engine} {opp : Opportunity} {es : List (Event Service)}
    {r : Except PyExc (Option ExecutionResult)} {q : Supply} (h : ExecuteRun engine opp es r)
    (hq : q.Opening opp) (hs : (supplied engine).Accepts q es) :
    Accounted q.traded es r ∧ ((supplied engine).after q es).traded = q.traded := by
  have hopen : ∀ start v, (supplied engine).after q (openEvents opp start v) = _ :=
    hq.after_open
  obtain ⟨hopp, -, htr, hquoted⟩ := hq
  have hzero : ∀ (start : ℚ) (v : Option ℚ) (ex : String),
      moved (openEvents opp start v) ex = 0 := by
    intro start v ex
    exact moved_spare (by simp [openEvents, readEvent, Call.sparesBalances]) ex
  cases h with
  | stopped =>
    have hsame : ∀ ex, moved [(⟨.killSwitch, .ok true⟩ : Event Service)] ex = 0 :=
      moved_spare (by simp [Call.sparesBalances])
    exact ⟨⟨fun _ hr => (by cases hr), fun _ => hsame, fun _ hr => (by cases hr)⟩, rfl⟩
  | broke start v es hr hle =>
    have hs' := ((supplied engine).accepts_append _ _ _).mp hs
    rw [hopen] at hs'
    obtain ⟨hmove, -⟩ := rebalanceRun_supplied
      (q := { q with balance := some (v.getD 0), time := start }) hr hopp rfl hquoted hs'.2
    obtain ⟨hafter, -⟩ := rebalanceRun_after
      (q := { q with balance := some (v.getD 0), time := start }) hr hopp rfl hquoted
    refine ⟨⟨fun _ hr => (by cases hr), fun _ ex => ?_, fun _ hr => (by cases hr)⟩, ?_⟩
    · rw [moved_append, hzero, hmove ex]
      simp [rebalanceRecords]
    · rw [Monitor.after_append, hopen, hafter rfl]
  | funded start v es tail r hr hgt ht =>
    have hs' := ((supplied engine).accepts_append _ _ _).mp hs
    rw [hopen] at hs'
    have hs'' := ((supplied engine).accepts_append _ _ _).mp hs'.2
    obtain ⟨hmove, -⟩ := rebalanceRun_supplied
      (q := { q with balance := some (v.getD 0), time := start }) hr hopp rfl hquoted hs''.1
    obtain ⟨hafter, -⟩ := rebalanceRun_after
      (q := { q with balance := some (v.getD 0), time := start }) hr hopp rfl hquoted
    rw [hafter rfl] at hs''
    obtain ⟨htraded, hraised, hskipped, hreturned⟩ := tradeRun_supplied
      (q := { q with balance := some (v.getD 0), time := start }) ht hopp rfl (by simp [htr]) hs''.2
    have hall : ∀ ex, moved (openEvents opp start v ++ (es ++ tail)) ex = moved tail ex := by
      intro ex
      rw [moved_append, moved_append, hzero, hmove ex]
      simp [rebalanceRecords]
    refine ⟨⟨fun x hx => ?_, fun hx ex => ?_, fun res hx => ?_⟩, ?_⟩
    · obtain ⟨-, hno, hsame⟩ := hraised x hx
      exact ⟨hno, fun ex => (hall ex).trans (hsame ex)⟩
    · exact (hall ex).trans ((hskipped hx).2 ex)
    · obtain ⟨hat, hrow⟩ := hreturned res hx
      refine ⟨hat, fun ex => ?_⟩
      rw [hall ex, ← hrow ex]
      simp [rebalanceRecords]
    · rw [Monitor.after_append, Monitor.after_append, hopen, hafter rfl]
      exact htraded
  | transferred start v rb es tail r hr ht =>
    have hs' := ((supplied engine).accepts_append _ _ _).mp hs
    rw [hopen] at hs'
    have hs'' := ((supplied engine).accepts_append _ _ _).mp hs'.2
    obtain ⟨hmove, hmin⟩ := rebalanceRun_supplied
      (q := { q with balance := some (v.getD 0), time := start }) hr hopp rfl hquoted hs''.1
    have hstate := (rebalanceRun_after
      (q := { q with balance := some (v.getD 0), time := start }) hr hopp rfl hquoted).2 rb rfl
    rw [hstate] at hs''
    obtain ⟨htraded, hraised, hskipped, hreturned⟩ := tradeRun_supplied
      (q := ⟨q.opp, some rb.receiverNewBalance, start, true, q.quoted, q.traded⟩) ht hopp rfl
      (fun _ => hmin rb rfl) hs''.2
    refine ⟨⟨fun x hx => ?_, fun hx ex => ?_, fun res hx => ?_⟩, ?_⟩
    · exact absurd (hraised x hx).1 (by simp)
    · exact absurd (hskipped hx).1 (by simp)
    · obtain ⟨hat, hrow⟩ := hreturned res hx
      refine ⟨hat, fun ex => ?_⟩
      rw [moved_append, moved_append, hzero, hmove ex, ← hrow ex]
      ring
    · rw [Monitor.after_append, Monitor.after_append, hopen, hstate]
      exact htraded

theorem batchRun_supplied {engine : Engine} {entries : List (Entry Fields)}
    {es : List (Event Service)} {r : Except PyExc (List ExecutionResult)} {q : Supply}
    (h : BatchRun engine entries es r) (hclean : Clean es)
    (hs : (supplied engine).Accepts q es) :
    (∀ x, r = .error x → q.traded = false ∧ ∀ ex, moved es ex = 0) ∧
      ∀ results, r = .ok results →
        (∀ res ∈ results, ∃ ms, res.trade.executedAt = some ms) ∧
        ∀ ex, moved es ex = resultsChange results ex := by
  have hstart : ∀ (opp : Opportunity) (es : List (Event Service)) (ex : String),
      moved (startedEvent opp :: es) ex = moved es ex := by
    intro opp es ex
    rw [moved_cons, startedEvent, eventChange_note, zero_add]
  induction h generalizing q with
  | empty =>
    refine ⟨fun _ hr => (by cases hr), fun results hr => ?_⟩
    cases hr
    exact ⟨by simp, fun ex => rfl⟩
  | unparsed entry rest x es r hparse hrest ih => exact ih hclean hs
  | failed entry rest opp es x hparse hcall =>
    obtain ⟨-, hclean'⟩ := (clean_cons _ _).mp hclean
    obtain ⟨hacc, -⟩ := executeRun_supplied (executeOpportunity_goes ⟨hcall, hclean'⟩)
      (q.opening_started opp) hs.2
    refine ⟨fun y hr => ?_, fun _ hr => (by cases hr)⟩
    obtain ⟨hno, hsame⟩ := hacc.raised x rfl
    exact ⟨hno, fun ex => (hstart opp es ex).trans (hsame ex)⟩
  | called entry rest opp es es' res r hparse hcall hrest ih =>
    obtain ⟨hclean₁, hclean₂⟩ := clean_called hclean
    obtain ⟨hs₁, hs₂⟩ := ((supplied engine).accepts_append _ _ _).mp hs.2
    obtain ⟨hacc, htraded⟩ := executeRun_supplied (executeOpportunity_goes ⟨hcall, hclean₁⟩)
      (q.opening_started opp) hs₁
    obtain ⟨hraised, hok⟩ := ih hclean₂ hs₂.2
    have hnext : ((supplied engine).next ((supplied engine).after
        ((supplied engine).next q (startedEvent opp)) es) (returnedEvent res)).traded =
        (q.traded || res.isSome) := by
      change (Supply.traded _ || res.isSome) = _
      rw [htraded]
      rfl
    have hall : ∀ ex, moved (startedEvent opp :: (es ++ returnedEvent res :: es')) ex =
        moved es ex + moved es' ex := by
      intro ex
      rw [hstart, moved_append, moved_cons, returnedEvent, eventChange_note, zero_add]
    have hone : ∀ ex, moved es ex = resultsChange res.toList ex := by
      intro ex
      cases res with
      | none => exact (hacc.skipped rfl ex).trans rfl
      | some res' =>
        rw [(hacc.returned res' rfl).2 ex]
        simp [resultsChange]
    refine ⟨fun x hr => ?_, fun results hr => ?_⟩
    · cases r with
      | ok results => cases hr
      | error y =>
        obtain ⟨hno, hsame⟩ := hraised y rfl
        rw [hnext, Bool.or_eq_false_iff] at hno
        refine ⟨hno.1, fun ex => ?_⟩
        cases res with
        | none => rw [hall, hsame ex, add_zero, hacc.skipped rfl ex]
        | some res' => simp at hno
    · cases r with
      | error y => cases hr
      | ok results' =>
        cases hr
        obtain ⟨hat, hsum⟩ := hok results' rfl
        refine ⟨executedAt_cons (fun res' hres => ?_) hat, fun ex => ?_⟩
        · subst hres
          exact (hacc.returned res' rfl).1
        · rw [hall ex, hone ex, hsum ex, resultsChange, resultsChange, resultsChange,
            List.map_append, List.sum_append]

theorem handleBatch_supplied {engine : Engine} {entries : List (Entry Fields)}
    {es : List (Event Service)} {r : Except PyExc Unit} {q : Supply}
    (h : (handleBatch engine entries).Ends es r) (hclean : Clean es)
    (hl : Prog.Answered Call.isLocal es) (hs : (supplied engine).Accepts q es) :
    ∀ ex, moved es ex = written es ex := by
  intro ex
  rcases handleBatch_ends h hl with ⟨x, hbatch, -⟩ | ⟨results, es₁, es₂, heq, hbatch, hsettle⟩
  · obtain ⟨-, hsame⟩ := (batchRun_supplied hbatch hclean hs).1 x rfl
    rw [hsame ex, written_eq_zero (batchRun_unwritten hbatch)]
  · subst heq
    obtain ⟨hclean₁, hclean₂⟩ := (clean_append _ _).mp hclean
    obtain ⟨hs₁, -⟩ := ((supplied engine).accepts_append _ _ _).mp hs
    obtain ⟨hat, hsum⟩ := (batchRun_supplied hbatch hclean₁ hs₁).2 results rfl
    obtain ⟨hspare, hwritten⟩ := settleBatch_recorded hsettle hclean₂ hat ex
    rw [moved_append, hsum ex, moved_spare hspare, written_append,
      written_eq_zero (batchRun_unwritten hbatch), hwritten, add_comm]

theorem loopRun_supplied {engine : Engine} {es : List (Event Service)} {q : Supply}
    (h : LoopRun engine es) (hclean : Clean es) (hs : (supplied engine).Accepts q es)
    (ex : String) : moved es ex = written es ex := by
  induction h generalizing q with
  | stop => rfl
  | idle e es hcall hrest ih =>
    obtain ⟨-, hclean'⟩ := (clean_cons _ _).mp hclean
    have hidle : eventChange ex e = 0 ∧ eventRows e = [] := by
      unfold eventChange eventRows
      rcases hcall with hc | hc
      · cases h : e.call <;> simp_all [Call.opensPass]
      · rw [hc]
        exact ⟨rfl, rfl⟩
    rw [moved_cons, written_cons, hidle.1, hidle.2, rowsChange_nil, ih hclean' hs.2]
  | batch entries es es' r hbatch hrest ih =>
    obtain ⟨hclean₁, hclean₂⟩ := (clean_append _ _).mp hclean
    obtain ⟨hs₁, hs₂⟩ := ((supplied engine).accepts_append _ _ _).mp hs
    rw [moved_append, written_append,
      handleBatch_supplied hbatch hclean₁ (fun e he _ => hclean₁ e he) hs₁ ex, ih hclean₂ hs₂]

end

end CriptoParser
