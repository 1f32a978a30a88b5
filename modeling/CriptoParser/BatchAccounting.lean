import CriptoParser.ExecutorSupply

/-!
What one iteration of the consume loop leaves of each opportunity of its batch when any
await of it may raise: nothing, a trade that is recorded everywhere, or a part of one.
-/

set_option autoImplicit false

namespace CriptoParser

open Await Streams

def callOf : List (Event Service) → List (Event Service) × Option (Option ExecutionResult)
  | [] => ([], none)
  | e :: es =>
    match e.call with
    | .note (.returned res) => ([], some res)
    | _ => (e :: (callOf es).1, (callOf es).2)

/-- `P k es res` for every call that is started, where `k` trades have been returned
before it. -/
def EachCall (P : ℕ → List (Event Service) → Option (Option ExecutionResult) → Prop) :
    ℕ → List (Event Service) → Prop
  | _, [] => True
  | k, e :: es =>
    match e.call with
    | .note (.started _) => P k (callOf es).1 (callOf es).2 ∧ EachCall P k es
    | .note (.returned res) => EachCall P (k + res.toList.length) es
    | _ => EachCall P k es

instance decidableEachCall
    (P : ℕ → List (Event Service) → Option (Option ExecutionResult) → Prop)
    [∀ k es res, Decidable (P k es res)] :
    (k : ℕ) → (es : List (Event Service)) → Decidable (EachCall P k es)
  | _, [] => isTrue trivial
  | k, e :: es => by
    have := decidableEachCall P k es
    have := fun j => decidableEachCall P j es
    unfold EachCall
    split <;> infer_instance

theorem ofEngine_marks {c : Call} (h : c.ofEngine = true) : c.marksCall = false := by
  cases c with
  | note n => cases n <;> simp_all [Call.ofEngine, Call.marksCall]
  | _ => rfl

theorem callOf_append {es : List (Event Service)} (hes : ∀ e ∈ es, e.call.marksCall = false)
    (fs : List (Event Service)) : callOf (es ++ fs) = (es ++ (callOf fs).1, (callOf fs).2) := by
  induction es with
  | nil => rfl
  | cons e es ih =>
    have he := hes e List.mem_cons_self
    have hrest := ih fun d hd => hes d (List.mem_cons_of_mem _ hd)
    obtain ⟨c, a⟩ := e
    cases c with
    | note n => cases n <;> simp_all [callOf, Call.marksCall]
    | _ => simp [callOf, hrest]

theorem callOf_returned {es : List (Event Service)} (hes : ∀ e ∈ es, e.call.marksCall = false)
    (res : Option ExecutionResult) (fs : List (Event Service)) :
    callOf (es ++ returnedEvent res :: fs) = (es, some res) := by
  rw [callOf_append hes]
  simp [callOf, returnedEvent]

theorem callOf_open {es : List (Event Service)} (hes : ∀ e ∈ es, e.call.marksCall = false) :
    callOf es = (es, none) := by
  have h := callOf_append hes []
  simpa [callOf] using h

theorem eachCall_skip {P : ℕ → List (Event Service) → Option (Option ExecutionResult) → Prop}
    {k : ℕ} {es : List (Event Service)} (hes : ∀ e ∈ es, e.call.marksCall = false)
    (fs : List (Event Service)) : EachCall P k (es ++ fs) ↔ EachCall P k fs := by
  induction es with
  | nil => rfl
  | cons e es ih =>
    have he := hes e List.mem_cons_self
    have hrest := ih fun d hd => hes d (List.mem_cons_of_mem _ hd)
    obtain ⟨c, a⟩ := e
    cases c with
    | note n => cases n <;> simp_all [EachCall, Call.marksCall]
    | _ => simp [EachCall, hrest]

theorem eachCall_called {P : ℕ → List (Event Service) → Option (Option ExecutionResult) → Prop}
    {k : ℕ} {opp : Opportunity} {es : List (Event Service)}
    (hes : ∀ e ∈ es, e.call.marksCall = false) (res : Option ExecutionResult)
    (fs : List (Event Service)) :
    EachCall P k (startedEvent opp :: (es ++ returnedEvent res :: fs)) ↔
      P k es (some res) ∧ EachCall P (k + res.toList.length) fs := by
  simp only [startedEvent, EachCall, callOf_returned hes, eachCall_skip hes]
  rfl

def changesBalance (e : Event Service) : Bool :=
  match e.call with
  | .hincrbyfloat _ _ _ => carriedOut e
  | _ => false

def appliesLeg (exchange : String) (change : ℚ) (e : Event Service) : Bool :=
  match e.call with
  | .hincrbyfloat key field delta =>
    carriedOut e && key = balanceKey exchange && field = "USDT" && delta = change
  | _ => false

def eventTrades (e : Event Service) : List TradeRow :=
  match e.call with
  | .copyTrades rows => if carriedOut e then rows else []
  | _ => []

def eventEntries (e : Event Service) : List Fields :=
  match e.call with
  | .xadd stream fields => if carriedOut e ∧ stream = tradesStream then [fields] else []
  | _ => []

/-- The rows added to `trades`, the rows added to `balance`, the entries added to the
trades stream. -/
def tradesWritten (es : List (Event Service)) : List TradeRow := es.flatMap eventTrades

def balancesWritten (es : List (Event Service)) : List BalanceRow := es.flatMap eventRows

def published (es : List (Event Service)) : List Fields := es.flatMap eventEntries

section Append
variable (es fs : List (Event Service))

@[simp] theorem tradesWritten_append :
    tradesWritten (es ++ fs) = tradesWritten es ++ tradesWritten fs := List.flatMap_append

@[simp] theorem balancesWritten_append :
    balancesWritten (es ++ fs) = balancesWritten es ++ balancesWritten fs := List.flatMap_append

@[simp] theorem published_append :
    published (es ++ fs) = published es ++ published fs := List.flatMap_append

end Append

theorem copyTrades_ends {rows : List TradeRow} {es : List (Event Service)}
    {r : Except PyExc Unit}
    (h : (awaitIf (!rows.isEmpty) (Prog.call (S := Service) (.copyTrades rows))).Ends es r) :
    published es = [] ∧ balancesWritten es = [] ∧ ∀ u, r = .ok u → tradesWritten es = rows := by
  rcases (ends_awaitIf _ _ _ _).mp h with ⟨-, a, es', rfl, rfl, rfl⟩ | ⟨hempty, rfl, -⟩
  · refine ⟨rfl, rfl, fun u hu => ?_⟩
    cases hu
    simp [tradesWritten, eventTrades, carriedOut]
  · refine ⟨rfl, rfl, fun _ _ => ?_⟩
    cases rows with
    | nil => rfl
    | cons row rows => cases hempty

theorem copyBalance_ends {rows : List BalanceRow} {es : List (Event Service)}
    {r : Except PyExc Unit}
    (h : (awaitIf (!rows.isEmpty) (Prog.call (S := Service) (.copyBalance rows))).Ends es r) :
    published es = [] ∧ tradesWritten es = [] ∧ ∀ u, r = .ok u → balancesWritten es = rows := by
  rcases (ends_awaitIf _ _ _ _).mp h with ⟨-, a, es', rfl, rfl, rfl⟩ | ⟨hempty, rfl, -⟩
  · refine ⟨rfl, rfl, fun u hu => ?_⟩
    cases hu
    simp [balancesWritten, eventRows, carriedOut]
  · refine ⟨rfl, rfl, fun _ _ => ?_⟩
    cases rows with
    | nil => rfl
    | cons row rows => cases hempty

theorem unrecorded {es : List (Event Service)} (hes : ∀ e ∈ es, e.call.persists = false) :
    published es = [] ∧ tradesWritten es = [] ∧ balancesWritten es = [] := by
  have hnone : ∀ e ∈ es, eventEntries e = [] ∧ eventTrades e = [] ∧ eventRows e = [] := by
    intro e he
    have hcall := hes e he
    obtain ⟨c, a⟩ := e
    cases c <;> first | exact ⟨rfl, rfl, rfl⟩ | cases hcall
  simp only [published, tradesWritten, balancesWritten, List.flatMap_eq_nil_iff]
  exact ⟨fun e he => (hnone e he).1, fun e he => (hnone e he).2.1, fun e he => (hnone e he).2.2⟩

/-- Nothing has been changed on behalf of the call; without a trade nothing is recorded. -/
def NoEffect (es : List (Event Service)) (res : Option (Option ExecutionResult)) : Prop :=
  (∀ e ∈ es, changesBalance e = false) ∧ res.join = none

section
variable [PyText]

/-- The `k`-th trade of an iteration has its row, its balance rows and its entry. -/
def Recorded (all : List (Event Service)) (k : ℕ) (res : ExecutionResult) : Prop :=
  match tradeRecord res.trade with
  | .error _ => False
  | .ok row =>
    (tradesWritten all)[k]? = some row ∧
      (∀ r ∈ balanceRecords row.time res, r ∈ balancesWritten all) ∧
      (published all)[k]? = some res.trade.toRedis

def Complete (all : List (Event Service)) (k : ℕ) (es : List (Event Service))
    (res : Option (Option ExecutionResult)) : Prop :=
  match res.join with
  | none => False
  | some res =>
    (∀ u ∈ res.balanceUpdates, es.any (appliesLeg u.1 u.2.2) = true) ∧ Recorded all k res

def CallClosed (all : List (Event Service)) (k : ℕ) (es : List (Event Service))
    (res : Option (Option ExecutionResult)) : Prop :=
  NoEffect es res ∨ Complete all k es res

/-- Each call of an iteration has no effect or its complete effect. -/
def AllOrNothing (all : List (Event Service)) : Prop := EachCall (CallClosed all) 0 all

instance (es : List (Event Service)) (res : Option (Option ExecutionResult)) :
    Decidable (NoEffect es res) := inferInstanceAs (Decidable (_ ∧ _))

instance (all : List (Event Service)) (k : ℕ) (res : ExecutionResult) :
    Decidable (Recorded all k res) := by
  unfold Recorded
  split <;> infer_instance

instance (all : List (Event Service)) (k : ℕ) (es : List (Event Service))
    (res : Option (Option ExecutionResult)) : Decidable (Complete all k es res) := by
  unfold Complete
  split <;> infer_instance

instance (all : List (Event Service)) (k : ℕ) (es : List (Event Service))
    (res : Option (Option ExecutionResult)) : Decidable (CallClosed all k es res) :=
  inferInstanceAs (Decidable (_ ∨ _))

instance (all : List (Event Service)) : Decidable (AllOrNothing all) :=
  inferInstanceAs (Decidable (EachCall _ 0 all))

end

structure Account where
  supply : Supply
  /-- The call in progress has changed a balance. -/
  changed : Bool
  /-- The trades that are returned and not published. -/
  owed : ℕ

def Account.idle : Account := ⟨.idle, false, 0⟩

def raised (e : Event Service) : Bool :=
  match e.reply with
  | .ok _ => false
  | .error _ => true

def Account.next (q : Account) (e : Event Service) : Account where
  supply := q.supply.next e
  changed :=
    match e.call with
    | .note (.started _) | .note (.returned _) => false
    | _ => q.changed || changesBalance e
  owed :=
    match e.call with
    | .note (.returned res) => q.owed + res.toList.length
    | _ => q.owed - (eventEntries e).length

/-- The call in progress has moved nothing and no trade waits to be published. -/
def Account.Even (q : Account) : Prop := q.changed = false ∧ q.owed = 0

instance (q : Account) : Decidable q.Even := inferInstanceAs (Decidable (_ ∧ _))

theorem next_engine (q : Account) {e : Event Service} (he : e.call.ofEngine = true) :
    q.next e = ⟨q.supply.next e, q.changed || changesBalance e, q.owed⟩ := by
  obtain ⟨c, a⟩ := e
  cases c with
  | note n => cases n <;> first | rfl | cases he
  | _ => first | rfl | cases he

theorem Supply.move_quoted {q : Supply} (h : q.quoted = true) (exchange : String) (delta v : ℚ) :
    q.credits (balanceKey exchange) = false ∧ q.next (moveEvent exchange delta v) = q := by
  have hno : q.credits (balanceKey exchange) = false := by simp [Supply.credits, h]
  refine ⟨hno, ?_⟩
  change (if q.credits (balanceKey exchange) then _ else q) = q
  rw [hno]
  rfl

theorem openEvents_still (opp : Opportunity) (start : ℚ) (v : Option ℚ) :
    ∀ e ∈ openEvents opp start v, changesBalance e = false := by
  simp [openEvents, readEvent, changesBalance]

def Account.demand (q : Account) : Supply :=
  { q.supply with transferred := q.changed, traded := decide (0 < q.owed) }

section
variable [PyText]

/-- An await raises only where nothing is left open, and what a call has moved the
answers let it bring to a trade. -/
@[reducible] def atomic (engine : Engine) : Monitor (Event Service) where
  State := Account
  next := Account.next
  allows q e := (raised e = true → (q.next e).Even) ∧ (supplied engine).allows q.demand e

theorem after_engine (engine : Engine) (q : Account) {es : List (Event Service)}
    (hes : ∀ e ∈ es, e.call.ofEngine = true) :
    (atomic engine).after q es =
      ⟨(supplied engine).after q.supply es, q.changed || es.any changesBalance, q.owed⟩ := by
  induction es generalizing q with
  | nil => simp [Monitor.after]
  | cons e es ih =>
    have hrest := ih (q.next e) fun d hd => hes d (List.mem_cons_of_mem _ hd)
    have hnext := next_engine q (hes e List.mem_cons_self)
    simp only [Monitor.after, List.foldl_cons, List.any_cons] at hrest ⊢
    rw [hrest, hnext, Bool.or_assoc]

theorem accepts_unchanged (engine : Engine) {q : Account} {es : List (Event Service)}
    (hq : q.Even) (hes : ∀ e ∈ es, e.call.ofEngine = true)
    (hno : ∀ e ∈ es, changesBalance e = false) : (atomic engine).Accepts q es := by
  induction es generalizing q with
  | nil => trivial
  | cons e es ih =>
    have he := hno e List.mem_cons_self
    have heven : (q.next e).Even := by
      rw [next_engine q (hes e List.mem_cons_self), he]
      exact ⟨by simp [hq.1], hq.2⟩
    refine ⟨⟨fun _ => heven, ?_⟩, ih heven (fun d hd => hes d (List.mem_cons_of_mem _ hd))
      fun d hd => hno d (List.mem_cons_of_mem _ hd)⟩
    obtain ⟨c, a⟩ := e
    cases c with
    | hincrbyfloat key field delta =>
      cases a with
      | ok v => simp [changesBalance, carriedOut] at he
      | error x => trivial
    | mget keys =>
      cases a with
      | error x => trivial
      | ok raws =>
        intro opp _ balance _
        simp only [Account.demand, hq.1, hq.2]
        unfold fillServes
        split <;> simp
    | _ => trivial

theorem accepts_stopped (engine : Engine) {q : Account} {fs : List (Event Service)}
    {c : Call} {x : PyExc} (hq : q.changed = false)
    (hes : ∀ e ∈ fs ++ [⟨c, .error x⟩], Call.ofEngine e.call = true) :
    (atomic engine).Accepts q (fs ++ [⟨c, .error x⟩]) ↔
      q.owed = 0 ∧ ∀ e ∈ fs ++ [(⟨c, .error x⟩ : Event Service)], changesBalance e = false := by
  constructor
  · intro h
    have hlast := (((atomic engine).accepts_append _ _ _).mp h).2.1.1 rfl
    have hafter := after_engine engine q hes
    rw [Monitor.after_append] at hafter
    change Account.next ((atomic engine).after q fs) _ = _ at hafter
    rw [hafter] at hlast
    obtain ⟨hchanged, howed⟩ := hlast
    simp only [hq, Bool.false_or, List.any_eq_false] at hchanged
    exact ⟨howed, fun e he => by simpa using hchanged e he⟩
  · intro h
    exact accepts_unchanged engine ⟨hq, h.1⟩ hes h.2

theorem accepts_answered (engine : Engine) {q : Account} {es : List (Event Service)}
    (h : ∀ e ∈ es, raised e = false ∧ ∀ p, (supplied engine).allows p e) :
    (atomic engine).Accepts q es := by
  induction es generalizing q with
  | nil => trivial
  | cons e es ih =>
    obtain ⟨hr, hs⟩ := h e List.mem_cons_self
    exact ⟨⟨fun hx => (by simp [hr] at hx), hs _⟩, ih fun d hd => h d (List.mem_cons_of_mem _ hd)⟩

structure Account.Ready (q : Account) (opp : Opportunity) (balance : ℚ) : Prop where
  opp : q.supply.opp = some opp
  balance : q.supply.balance = some balance
  quoted : q.supply.quoted = false

theorem readEvents_engine (names : List String) (v : String → Option ℚ) :
    ∀ e ∈ readEvents names v,
      (e.call.ofEngine = true ∧ changesBalance e = false) ∧
        raised e = false ∧ ∀ engine p, (supplied engine).allows p e := by
  intro e he
  obtain ⟨ex, -, rfl⟩ := List.mem_map.mp he
  exact ⟨⟨rfl, rfl⟩, rfl, fun _ _ => trivial⟩

theorem rebalanceRun_none (engine : Engine) {exchange : String} {balance threshold : ℚ}
    {es : List (Event Service)} (h : RebalanceRun exchange balance threshold es none)
    (q : Account) :
    (atomic engine).Accepts q es ∧ ∀ e ∈ es, changesBalance e = false := by
  cases h with
  | enough hlt => exact ⟨trivial, by simp⟩
  | exhausted v donor hle hd hno =>
    have hreads := readEvents_engine balanceExchanges v
    constructor
    · refine accepts_answered engine fun e he => ?_
      rcases List.mem_append.mp he with he | he
      · exact ⟨(hreads e he).2.1, (hreads e he).2.2 engine⟩
      · obtain rfl := List.mem_singleton.mp he
        exact ⟨rfl, fun _ => trivial⟩
    · intro e he
      rcases List.mem_append.mp he with he | he
      · exact (hreads e he).1.2
      · obtain rfl := List.mem_singleton.mp he
        rfl

theorem rebalanceRun_some {engine : Engine} {opp : Opportunity} {balance : ℚ}
    {es : List (Event Service)} {rb : RebalanceResult} {q : Account}
    (h : RebalanceRun opp.buyExchange balance engine.rebalanceThreshold es (some rb))
    (hq : q.Ready opp balance) :
    ((atomic engine).Accepts q es ↔
        minNotionalUsdt ≤ rb.receiverNewBalance * engine.maxPositionPct / 100) ∧
      es.any changesBalance = true := by
  cases h with
  | transferred v donor cfg donorNew receiverNew hle hd hne hgt hcfg =>
    have hreads := readEvents_engine balanceExchanges v
    have hsupply := (supplied_reads engine hq.balance balanceExchanges v).2
    have hafter := after_engine engine q fun e he => ((hreads e he).1.1)
    rw [hsupply] at hafter
    have haccepts : (atomic engine).Accepts q (readEvents balanceExchanges v) :=
      accepts_answered engine fun e he => ⟨(hreads e he).2.1, (hreads e he).2.2 engine⟩
    -- the debit of the donor is no credit, the change after it is one
    have hdonor : ∀ p : Account, p.supply = q.supply →
        Supply.credits p.supply (balanceKey donor) = false := by
      intro p hp
      simp [Supply.credits, hp, hq.opp, hne]
    have hstay : Supply.next q.supply (moveEvent donor (-((v donor).getD 0 / 2)) donorNew) =
        q.supply := by
      change (if Supply.credits q.supply (balanceKey donor) then _ else q.supply) = q.supply
      rw [hdonor q rfl]
      rfl
    have hcredit : ∀ p : Account, p.supply = q.supply →
        Supply.credits p.demand (balanceKey opp.buyExchange) = true := by
      intro p hp
      simp [Supply.credits, Account.demand, hp, hq.opp, hq.quoted]
    constructor
    · rw [(atomic engine).accepts_append, hafter]
      constructor
      · intro hacc
        exact hacc.2.2.1.2 (hcredit _ hstay)
      · intro hmin
        refine ⟨haccepts, ⟨fun hx => (by cases hx), fun hc => ?_⟩,
          ⟨fun hx => (by cases hx), fun _ => hmin⟩, ⟨fun hx => (by cases hx), trivial⟩, trivial⟩
        have hdebit : Supply.credits q.supply (balanceKey donor) = true := hc
        rw [hdonor q rfl] at hdebit
        cases hdebit
    · simp [transferEvents, moveEvent, changesBalance, carriedOut]

theorem tradeRun_funded {engine : Engine} {opp : Opportunity} {balance : ℚ}
    {rb : Option RebalanceResult} {es : List (Event Service)}
    {r : Except PyExc (Option ExecutionResult)} {res : ExecutionResult}
    (h : TradeRun engine opp balance rb es r) (hr : r = .ok (some res)) :
    minNotionalUsdt ≤ balance * engine.maxPositionPct / 100 := by
  cases h with
  | small hn => cases hr
  | skipped t raws hn hfill => cases hr
  | raised t raws x hn hfill => cases hr
  | traded t raws f newBuy newSell t₁ uuid t₂ durationMs hn hfill => exact hn

theorem tradeRun_accepts {engine : Engine} {opp : Opportunity} {balance : ℚ}
    {rb : Option RebalanceResult} {es : List (Event Service)}
    {r : Except PyExc (Option ExecutionResult)} {q : Account}
    (h : TradeRun engine opp balance rb es r) (hq : q.Ready opp balance)
    (hmin : q.changed = true → minNotionalUsdt ≤ balance * engine.maxPositionPct / 100) :
    (∀ res, r = .ok (some res) → (atomic engine).Accepts q es) ∧
      (r = .ok none → ((atomic engine).Accepts q es ↔ q.changed = false) ∧
        ∀ e ∈ es, changesBalance e = false) ∧
      ∀ x, r = .error x → ((atomic engine).Accepts q es ↔ q.Even) ∧
        ∀ e ∈ es, changesBalance e = false := by
  have hquote : ∀ t raws, (atomic engine).Accepts q (quoteEvents opp t raws) ↔
      fillServes (fillAt opp t raws (balance * engine.maxPositionPct / 100)) q.changed
        (decide (0 < q.owed)) := by
    intro t raws
    have hnext : q.next ⟨.time, .ok t⟩ = ⟨{ q.supply with time := t }, q.changed, q.owed⟩ := by
      rw [next_engine q rfl]
      simp only [changesBalance, Bool.or_false]
      rfl
    simp only [quoteEvents, Monitor.Accepts, hnext]
    constructor
    · intro hacc
      exact hacc.2.1.2 opp hq.opp balance hq.balance
    · intro hserves
      refine ⟨⟨fun hx => (by cases hx), trivial⟩, ⟨fun hx => (by cases hx), ?_⟩, trivial⟩
      intro opp' hopp' balance' hbalance'
      cases hq.opp.symm.trans hopp'
      cases hq.balance.symm.trans hbalance'
      exact hserves
  have hstill : ∀ t raws, ∀ e ∈ quoteEvents opp t raws, changesBalance e = false := by
    simp [quoteEvents, changesBalance]
  cases h with
  | small hn =>
    refine ⟨fun _ hr => (by cases hr), fun _ => ⟨⟨fun _ => ?_, fun _ => trivial⟩, by simp⟩,
      fun _ hr => (by cases hr)⟩
    cases hc : q.changed with
    | false => rfl
    | true => exact absurd (hmin hc) (not_le.mpr hn)
  | skipped t raws hn hfill =>
    refine ⟨fun _ hr => (by cases hr), fun _ => ⟨?_, hstill t raws⟩, fun _ hr => (by cases hr)⟩
    rw [hquote, hfill]
    rfl
  | raised t raws x hn hfill =>
    refine ⟨fun _ hr => (by cases hr), fun hr => (by cases hr), fun _ _ => ⟨?_, hstill t raws⟩⟩
    rw [hquote, hfill]
    simp [fillServes, Account.Even]
  | traded t raws f newBuy newSell t₁ uuid t₂ durationMs hn hfill =>
    refine ⟨fun _ _ => ?_, fun hr => (by cases hr), fun _ hr => (by cases hr)⟩
    rw [(atomic engine).accepts_append, hquote, hfill]
    obtain ⟨hbuy, hbuy'⟩ := Supply.move_quoted (q := ((atomic engine).after q
      (quoteEvents opp t raws)).supply) rfl opp.buyExchange (f.buyChange opp) newBuy
    obtain ⟨hsell, -⟩ := Supply.move_quoted (q := Supply.next ((atomic engine).after q
      (quoteEvents opp t raws)).supply (moveEvent opp.buyExchange (f.buyChange opp) newBuy))
      (congrArg Supply.quoted hbuy') opp.sellExchange (f.sellChange opp) newSell
    exact ⟨trivial,
      ⟨fun hx => (by cases hx), fun hc => absurd (hbuy.symm.trans hc) Bool.false_ne_true⟩,
      ⟨fun hx => (by cases hx), fun hc => absurd (hsell.symm.trans hc) Bool.false_ne_true⟩,
      ⟨fun hx => (by cases hx), trivial⟩, ⟨fun hx => (by cases hx), trivial⟩,
      ⟨fun hx => (by cases hx), trivial⟩, trivial⟩

theorem rebalanceRun_engine {exchange : String} {balance threshold : ℚ}
    {es : List (Event Service)} {rb : Option RebalanceResult}
    (h : RebalanceRun exchange balance threshold es rb) : ∀ e ∈ es, e.call.ofEngine = true := by
  have hreads : ∀ v, ∀ e ∈ readEvents balanceExchanges v, e.call.ofEngine = true :=
    fun v e he => (readEvents_engine balanceExchanges v e he).1.1
  intro e he
  cases h with
  | enough hlt => cases he
  | exhausted v donor hle hd hno =>
    rcases List.mem_append.mp he with he | he
    · exact hreads v e he
    · obtain rfl := List.mem_singleton.mp he
      rfl
  | transferred v donor cfg donorNew receiverNew hle hd hne hgt hcfg =>
    rcases List.mem_append.mp he with he | he
    · exact hreads v e he
    · simp only [transferEvents, List.mem_cons, List.not_mem_nil, or_false] at he
      rcases he with rfl | rfl | rfl <;> rfl

/-- The account when a call has read the balance it buys with. -/
def Account.opened (q : Account) (start : ℚ) (v : Option ℚ) : Account :=
  ⟨{ q.supply with balance := some (v.getD 0), time := start }, false, q.owed⟩

theorem accepts_open (engine : Engine) {opp : Opportunity} {q : Account}
    (hq : q.supply.Opening opp) (hchanged : q.changed = false) (start : ℚ) (v : Option ℚ)
    (es : List (Event Service)) :
    (atomic engine).Accepts q (openEvents opp start v ++ es) ↔
      (atomic engine).Accepts (q.opened start v) es := by
  have hengine : ∀ e ∈ openEvents opp start v, e.call.ofEngine = true := by
    simp [openEvents, readEvent, Call.ofEngine]
  have hstill : (openEvents opp start v).any changesBalance = false := by
    simpa using openEvents_still opp start v
  have hafter := after_engine engine q hengine
  rw [hq.after_open, hstill, hchanged] at hafter
  have hacc : (atomic engine).Accepts q (openEvents opp start v) := by
    refine accepts_answered engine fun e he => ?_
    simp only [openEvents, List.mem_cons, List.not_mem_nil, or_false] at he
    rcases he with rfl | rfl | rfl <;> exact ⟨rfl, fun _ => trivial⟩
  rw [(atomic engine).accepts_append, hafter]
  exact ⟨And.right, And.intro hacc⟩

/-- A call with a trade is let through; one without a trade where it has changed nothing;
one that the books stop where nothing is owed either. -/
theorem executeRun_accepts {engine : Engine} {opp : Opportunity} {es : List (Event Service)}
    {r : Except PyExc (Option ExecutionResult)} {q : Account} (h : ExecuteRun engine opp es r)
    (hq : q.supply.Opening opp) (hchanged : q.changed = false) :
    (∀ res, r = .ok (some res) → (atomic engine).Accepts q es) ∧
      (r = .ok none → ((atomic engine).Accepts q es ↔ ∀ e ∈ es, changesBalance e = false)) ∧
      ∀ x, r = .error x →
        ((atomic engine).Accepts q es ↔ q.owed = 0 ∧ ∀ e ∈ es, changesBalance e = false) := by
  have hopen := accepts_open engine hq hchanged
  have hready : ∀ start v, (q.opened start v).Ready opp (v.getD 0) :=
    fun start v => ⟨hq.opp, rfl, hq.quoted⟩
  cases h with
  | stopped =>
    refine ⟨fun _ hr => (by cases hr), fun _ => ?_, fun _ hr => (by cases hr)⟩
    refine ⟨fun _ => by simp [changesBalance], fun _ => accepts_answered engine fun e he => ?_⟩
    obtain rfl := List.mem_singleton.mp he
    exact ⟨rfl, fun _ => trivial⟩
  | broke start v es hr hle =>
    obtain ⟨hacc, hno⟩ := rebalanceRun_none engine hr (q.opened start v)
    refine ⟨fun _ hr => (by cases hr), fun _ => ?_, fun _ hr => (by cases hr)⟩
    refine ⟨fun _ e he => ?_, fun _ => (hopen start v es).mpr hacc⟩
    rcases List.mem_append.mp he with he | he
    · exact openEvents_still opp start v e he
    · exact hno e he
  | funded start v es tail r hr hgt ht =>
    obtain ⟨hacc, hno⟩ := rebalanceRun_none engine hr (q.opened start v)
    have hafter := after_engine engine (q.opened start v) (rebalanceRun_engine hr)
    rw [(rebalanceRun_after hr (hready start v).opp (hready start v).balance
      (hready start v).quoted).1 rfl, List.any_eq_false.mpr (by simpa using hno)] at hafter
    have hall : (atomic engine).Accepts q (openEvents opp start v ++ (es ++ tail)) ↔
        (atomic engine).Accepts (q.opened start v) tail := by
      rw [hopen, (atomic engine).accepts_append, hafter]
      exact ⟨And.right, And.intro hacc⟩
    have hstill : (∀ e ∈ openEvents opp start v ++ (es ++ tail), changesBalance e = false) ↔
        ∀ e ∈ tail, changesBalance e = false := by
      refine ⟨fun h e he => h e (by simp [he]), fun h e he => ?_⟩
      simp only [List.mem_append] at he
      rcases he with he | he | he
      · exact openEvents_still opp start v e he
      · exact hno e he
      · exact h e he
    obtain ⟨hsome, hnone, hraise⟩ := tradeRun_accepts ht (hready start v)
      (fun h => (by cases h))
    rw [hall, hstill]
    refine ⟨hsome, fun hres => ?_, fun x hx => ?_⟩
    · obtain ⟨hiff, hno⟩ := hnone hres
      rw [hiff]
      exact ⟨fun _ => hno, fun _ => rfl⟩
    · obtain ⟨hiff, hno⟩ := hraise x hx
      rw [hiff]
      exact ⟨fun h => ⟨h.2, hno⟩, fun h => ⟨rfl, h.1⟩⟩
  | transferred start v rb es tail r hr ht =>
    obtain ⟨hacc, hchange⟩ := rebalanceRun_some hr (hready start v)
    have hafter := after_engine engine (q.opened start v) (rebalanceRun_engine hr)
    rw [(rebalanceRun_after hr (hready start v).opp (hready start v).balance
      (hready start v).quoted).2 rb rfl, hchange, Bool.or_true] at hafter
    -- the transfer has moved money, so only a trade closes the call
    have hmoved : ¬∀ e ∈ openEvents opp start v ++ (es ++ tail), changesBalance e = false := by
      intro h
      obtain ⟨e, he, hc⟩ := List.any_eq_true.mp hchange
      rw [h e (by simp [he])] at hc
      cases hc
    rw [hopen, (atomic engine).accepts_append, hafter, hacc]
    generalize hp : (⟨_, true, _⟩ : Account) = p
    have hp' : p.Ready opp rb.receiverNewBalance := by
      subst hp
      exact ⟨hq.opp, rfl, hq.quoted⟩
    have hpchanged : p.changed = true := by rw [← hp]
    refine ⟨fun res hres => ?_, fun hres => ?_, fun x hx => ?_⟩
    · have hmin := tradeRun_funded ht hres
      exact ⟨hmin, (tradeRun_accepts ht hp' fun _ => hmin).1 res hres⟩
    · refine ⟨fun h => ?_, fun h => absurd h hmoved⟩
      have hno := (((tradeRun_accepts ht hp' fun _ => h.1).2.1 hres).1).mp h.2
      rw [hpchanged] at hno
      cases hno
    · refine ⟨fun h => ?_, fun h => absurd h.2 hmoved⟩
      have hno := ((((tradeRun_accepts ht hp' fun _ => h.1).2.2 x hx).1).mp h.2).1
      rw [hpchanged] at hno
      cases hno

theorem executeCall_accepts {engine : Engine} {opp : Opportunity} {es : List (Event Service)}
    {r : Except PyExc (Option ExecutionResult)} {q : Account}
    (h : (executeOpportunity engine opp).Ends es r) (hq : q.supply.Opening opp)
    (hchanged : q.changed = false) :
    (∀ res, r = .ok (some res) → (atomic engine).Accepts q es) ∧
      (r = .ok none → ((atomic engine).Accepts q es ↔ ∀ e ∈ es, changesBalance e = false)) ∧
      ∀ x, r = .error x →
        ((atomic engine).Accepts q es ↔ q.owed = 0 ∧ ∀ e ∈ es, changesBalance e = false) := by
  have hengine := (executeOpportunity_uses engine opp).ends h
  rcases (executeOpportunity_straight engine opp).ends h with hgoes | ⟨fs, c, x, rfl, -, rfl⟩
  · exact executeRun_accepts (executeOpportunity_goes hgoes) hq hchanged
  · refine ⟨fun _ hr => (by cases hr), fun hr => (by cases hr), fun _ _ => ?_⟩
    exact accepts_stopped engine hchanged hengine

theorem executeRun_legs {engine : Engine} {opp : Opportunity} {es : List (Event Service)}
    {r : Except PyExc (Option ExecutionResult)} {res : ExecutionResult}
    (h : ExecuteRun engine opp es r) (hr : r = .ok (some res)) :
    (∀ u ∈ res.balanceUpdates, es.any (appliesLeg u.1 u.2.2) = true) ∧
      es.any changesBalance = true ∧ ∃ ms, res.trade.executedAt = some ms := by
  have htrade : ∀ {balance rb es}, TradeRun engine opp balance rb es r →
      (∀ u ∈ res.balanceUpdates, es.any (appliesLeg u.1 u.2.2) = true) ∧
        es.any changesBalance = true ∧ ∃ ms, res.trade.executedAt = some ms := by
    intro balance rb es ht
    cases ht with
    | small hn => cases hr
    | skipped t raws hn hfill => cases hr
    | raised t raws x hn hfill => cases hr
    | traded t raws f newBuy newSell t₁ uuid t₂ durationMs hn hfill =>
      cases hr
      refine ⟨?_, ?_, _, rfl⟩
      · simp [fillResult, quoteEvents, legEvents, moveEvent, appliesLeg, carriedOut]
      · simp [quoteEvents, legEvents, moveEvent, changesBalance, carriedOut]
  cases h with
  | stopped => cases hr
  | broke start v es hreb hle => cases hr
  | funded start v es tail r hreb hgt ht =>
    obtain ⟨hlegs, hchange, hat⟩ := htrade ht
    exact ⟨fun u hu => by simp [hlegs u hu], by simp [hchange], hat⟩
  | transferred start v rb es tail r hreb ht =>
    obtain ⟨hlegs, hchange, hat⟩ := htrade ht
    exact ⟨fun u hu => by simp [hlegs u hu], by simp [hchange], hat⟩

theorem executeCall_legs {engine : Engine} {opp : Opportunity} {es : List (Event Service)}
    {res : ExecutionResult} (h : (executeOpportunity engine opp).Ends es (.ok (some res))) :
    (∀ u ∈ res.balanceUpdates, es.any (appliesLeg u.1 u.2.2) = true) ∧
      es.any changesBalance = true ∧ ∃ ms, res.trade.executedAt = some ms :=
  executeRun_legs (executeOpportunity_goes ((executeOpportunity_straight engine opp).goes_ok h)) rfl

theorem after_called (engine : Engine) (q : Account) (opp : Opportunity)
    {es : List (Event Service)} (hes : ∀ e ∈ es, e.call.ofEngine = true)
    (res : Option ExecutionResult) :
    ∃ q', q'.changed = false ∧ q'.owed = q.owed + res.toList.length ∧
      ∀ fs, ((atomic engine).Accepts q (startedEvent opp :: (es ++ returnedEvent res :: fs)) ↔
          (atomic engine).Accepts (q.next (startedEvent opp)) es ∧
            (atomic engine).Accepts q' fs) ∧
        (atomic engine).after q (startedEvent opp :: (es ++ returnedEvent res :: fs)) =
          (atomic engine).after q' fs := by
  have howed : ((atomic engine).after (q.next (startedEvent opp)) es).owed = q.owed := by
    rw [after_engine engine _ hes]
    rfl
  refine ⟨Account.next ((atomic engine).after (q.next (startedEvent opp)) es)
    (returnedEvent res), rfl, congrArg (· + res.toList.length) howed, fun fs => ⟨?_, ?_⟩⟩
  · have hstart : (atomic engine).allows q (startedEvent opp) :=
      ⟨fun hx => (by cases hx), trivial⟩
    have hreturn : ∀ p, (atomic engine).allows p (returnedEvent res) :=
      fun p => ⟨fun hx => (by cases hx), trivial⟩
    simp only [Monitor.Accepts, (atomic engine).accepts_append]
    exact ⟨fun h => ⟨h.2.1, h.2.2.2⟩, fun h => ⟨hstart, h.1, hreturn _, h.2⟩⟩
  · change (atomic engine).after (q.next (startedEvent opp)) (es ++ returnedEvent res :: fs) = _
    rw [Monitor.after_append]
    rfl

theorem accepts_called {engine : Engine} (q : Account) {opp : Opportunity}
    {es : List (Event Service)} {res : Option ExecutionResult}
    (h : (executeOpportunity engine opp).Ends es (.ok res)) :
    ∃ q', q'.changed = false ∧ q'.owed = q.owed + res.toList.length ∧
      ∀ fs, ((atomic engine).Accepts q (startedEvent opp :: (es ++ returnedEvent res :: fs)) ↔
          (res = none → ∀ e ∈ es, changesBalance e = false) ∧ (atomic engine).Accepts q' fs) ∧
        (atomic engine).after q (startedEvent opp :: (es ++ returnedEvent res :: fs)) =
          (atomic engine).after q' fs := by
  obtain ⟨hsome, hnone, -⟩ := executeCall_accepts (q := q.next (startedEvent opp)) h
    (q.supply.opening_started opp) rfl
  have hcall : (atomic engine).Accepts (q.next (startedEvent opp)) es ↔
      (res = none → ∀ e ∈ es, changesBalance e = false) := by
    cases res with
    | none => simpa using hnone rfl
    | some res => simpa using hsome res rfl
  obtain ⟨q', hq', howed, hafter⟩ :=
    after_called engine q opp ((executeOpportunity_uses engine opp).ends h) res
  exact ⟨q', hq', howed, fun fs => ⟨by rw [(hafter fs).1, hcall], (hafter fs).2⟩⟩

theorem eachCall_executed {engine : Engine} {opp : Opportunity} {es : List (Event Service)}
    {res : Option ExecutionResult} (h : (executeOpportunity engine opp).Ends es (.ok res))
    {P : ℕ → List (Event Service) → Option (Option ExecutionResult) → Prop} {k : ℕ}
    (fs : List (Event Service)) :
    EachCall P k (startedEvent opp :: (es ++ returnedEvent res :: fs)) ↔
      P k es (some res) ∧ EachCall P (k + res.toList.length) fs := by
  have hengine := (executeOpportunity_uses engine opp).ends h
  exact eachCall_called (fun e he => ofEngine_marks (hengine e he)) res fs

theorem callClosed_unreturned (all : List (Event Service)) (k : ℕ) (es : List (Event Service))
    {res : Option (Option ExecutionResult)} (hres : res.join = none) :
    CallClosed all k es res ↔ ∀ e ∈ es, changesBalance e = false := by
  simp [CallClosed, NoEffect, Complete, hres]

theorem callClosed_traded {engine : Engine} {opp : Opportunity} (all : List (Event Service))
    (k : ℕ) {es : List (Event Service)} {res : ExecutionResult}
    (h : (executeOpportunity engine opp).Ends es (.ok (some res))) :
    CallClosed all k es (some (some res)) ↔ Recorded all k res := by
  obtain ⟨hlegs, -, -⟩ := executeCall_legs h
  simp only [CallClosed, NoEffect, Complete, Option.join_some, reduceCtorEq, and_false, false_or]
  exact ⟨And.right, And.intro hlegs⟩

theorem recorded_published {all : List (Event Service)} {k : ℕ} {res : ExecutionResult}
    (h : Recorded all k res) : k < (published all).length := by
  unfold Recorded at h
  split at h
  · cases h
  · obtain ⟨-, -, hentry⟩ := h
    exact (List.getElem?_eq_some_iff.mp hentry).1

theorem accepts_idle (engine : Engine) {q : Account} {es : List (Event Service)} (hq : q.Even)
    (hes : ∀ e ∈ es, e.call.opensPass = true ∨ e.call = .sleep 1) :
    (atomic engine).Accepts q es ∧ ((atomic engine).after q es).Even := by
  induction es generalizing q with
  | nil => exact ⟨trivial, hq⟩
  | cons e es ih =>
    have hstep : ((q.next e).changed = q.changed ∧ (q.next e).owed = q.owed) ∧
        ∀ p, (supplied engine).allows p e := by
      have he := hes e List.mem_cons_self
      obtain ⟨c, a⟩ := e
      cases c <;> first
        | exact ⟨⟨Bool.or_false _, rfl⟩, fun _ => trivial⟩
        | simp [Call.opensPass] at he
    obtain ⟨⟨hchanged, howed⟩, hallows⟩ := hstep
    have heven : (q.next e).Even := ⟨hchanged.trans hq.1, howed.trans hq.2⟩
    obtain ⟨hacc, hafter⟩ := ih heven fun d hd => hes d (List.mem_cons_of_mem _ hd)
    exact ⟨⟨⟨fun _ => heven, hallows _⟩, hacc⟩, hafter⟩

theorem batchRun_raises {engine : Engine} {entries : List (Entry Fields)}
    {es : List (Event Service)} {r : Except PyExc (List ExecutionResult)} {x : PyExc}
    {q : Account} {k : ℕ} {all tail : List (Event Service)}
    (h : BatchRun engine entries es r) (hr : r = .error x)
    (hall : published all = []) (htail : ∀ e ∈ tail, e.call = .sleep 1) :
    (atomic engine).Accepts q (es ++ tail) ↔
      q.owed = 0 ∧ EachCall (CallClosed all) k (es ++ tail) := by
  induction h generalizing q k with
  | empty => cases hr
  | unparsed entry rest y es r hparse hrest ih => exact ih hr
  | failed entry rest opp es y hparse hcall =>
    have hengine := (executeOpportunity_uses engine opp).ends hcall
    have hacc := (executeCall_accepts (q := q.next (startedEvent opp)) hcall
      (q.supply.opening_started opp) rfl).2.2 y rfl
    have hafter := after_engine engine (q.next (startedEvent opp)) hengine
    have hmarks : ∀ e ∈ es ++ tail, e.call.marksCall = false := by
      intro e he
      rcases List.mem_append.mp he with he | he
      · exact ofEngine_marks (hengine e he)
      · rw [htail e he]
        rfl
    have hstill : (∀ e ∈ es ++ tail, changesBalance e = false) ↔
        ∀ e ∈ es, changesBalance e = false := by
      refine ⟨fun h e he => h e (List.mem_append_left _ he), fun h e he => ?_⟩
      rcases List.mem_append.mp he with he | he
      · exact h e he
      · rw [changesBalance, htail e he]
    have hright : EachCall (CallClosed all) k (startedEvent opp :: (es ++ tail)) ↔
        ∀ e ∈ es, changesBalance e = false := by
      have hrest : EachCall (CallClosed all) k (es ++ tail) := by
        have := (eachCall_skip (P := CallClosed all) (k := k) hmarks []).mpr trivial
        rwa [List.append_nil] at this
      simp only [startedEvent, EachCall, callOf_open hmarks, hrest, and_true,
        callClosed_unreturned all k _ Option.join_none, hstill]
    rw [List.cons_append, hright]
    constructor
    · intro h
      exact hacc.mp (((atomic engine).accepts_append _ _ _).mp h.2).1
    · intro h
      refine ⟨⟨fun hx => (by cases hx), trivial⟩, ((atomic engine).accepts_append _ _ _).mpr
        ⟨hacc.mpr h, ?_⟩⟩
      have heven : ((atomic engine).after (q.next (startedEvent opp)) es).Even := by
        rw [hafter]
        refine ⟨?_, h.1⟩
        simpa [Account.next, startedEvent] using h.2
      exact (accepts_idle engine heven fun e he => .inr (htail e he)).1
  | called entry rest opp es es' res r hparse hcall hrest ih =>
    obtain ⟨q', -, howed, hafter⟩ := accepts_called q hcall
    cases r with
    | ok results => cases hr
    | error y =>
      cases hr
      rw [List.cons_append, List.append_assoc, List.cons_append, (hafter _).1,
        eachCall_executed hcall, ih (k := k + res.toList.length) rfl, howed]
      cases res with
      | none =>
        rw [callClosed_unreturned all k es rfl]
        simp only [Option.toList_none, List.length_nil, add_zero, true_imp_iff]
        tauto
      | some res =>
        have hno : ¬CallClosed all k es (some (some res)) := by
          rw [callClosed_traded all k hcall]
          intro hrec
          have := recorded_published hrec
          simp [hall] at this
        simp [hno]

/-- A batch that ends is let through where the calls without a trade have changed nothing;
then each of its calls is closed by its records. -/
theorem batchRun_ends {engine : Engine} {entries : List (Entry Fields)}
    {es : List (Event Service)} {r : Except PyExc (List ExecutionResult)}
    {results : List ExecutionResult} {q : Account} {k : ℕ} {tail : List (Event Service)}
    (all : List (Event Service)) (h : BatchRun engine entries es r) (hr : r = .ok results)
    (hq : q.changed = false)
    (htail : ∀ e ∈ tail, e.call.marksCall = false) :
    (EachCall (CallClosed all) k (es ++ tail) ↔ (atomic engine).Accepts q es ∧
        ∀ i res, results[i]? = some res → Recorded all (k + i) res) ∧
      ((atomic engine).after q es).changed = false ∧
      ((atomic engine).after q es).owed = q.owed + results.length ∧
      ∀ res ∈ results, ∃ ms, res.trade.executedAt = some ms := by
  induction h generalizing q k results with
  | empty =>
    cases hr
    have hrest := (eachCall_skip (P := CallClosed all) (k := k) htail []).mpr trivial
    rw [List.append_nil] at hrest
    exact ⟨by simp [hrest, Monitor.Accepts], hq, rfl, by simp⟩
  | unparsed entry rest x es r hparse hrest ih => exact ih hr hq
  | failed entry rest opp es x hparse hcall => cases hr
  | called entry rest opp es es' res r hparse hcall hrest ih =>
    obtain ⟨q', hq', howed, hafter⟩ := accepts_called q hcall
    cases r with
    | error x => cases hr
    | ok results' =>
      cases hr
      obtain ⟨hiff, hchanged, hsum, hat⟩ := ih (k := k + res.toList.length) rfl hq'
      refine ⟨?_, by rw [(hafter es').2, hchanged], ?_, ?_⟩
      · rw [List.cons_append, List.append_assoc, List.cons_append, (hafter _).1,
          eachCall_executed hcall, hiff]
        cases res with
        | none =>
          rw [callClosed_unreturned all k es rfl]
          simp [and_assoc]
        | some res =>
          rw [callClosed_traded all k hcall]
          constructor
          · intro h
            refine ⟨⟨fun hres => (by cases hres), h.2.1⟩, fun i r hi => ?_⟩
            cases i with
            | zero =>
              cases hi
              exact h.1
            | succ i =>
              have := h.2.2 i r hi
              rwa [Nat.add_assoc, Nat.add_comm _ i] at this
          · intro h
            refine ⟨h.2 0 res rfl, h.1.2, fun i r hi => ?_⟩
            have := h.2 (i + 1) r hi
            rwa [Nat.add_comm i, ← Nat.add_assoc] at this
      · rw [(hafter es').2, hsum, howed, List.length_append, add_assoc]
      · refine executedAt_cons (fun res' hres => ?_) hat
        subst hres
        exact (executeCall_legs hcall).2.2

theorem publishTrades_published {results : List ExecutionResult} {es : List (Event Service)}
    {r : Except PyExc Unit} (h : (publishTrades results).Ends es r) :
    published es <+: results.map (fun res => res.trade.toRedis) ∧
      (∀ u, r = .ok u → published es = results.map fun res => res.trade.toRedis) ∧
      tradesWritten es = [] ∧ balancesWritten es = [] := by
  induction results generalizing es with
  | nil =>
    obtain ⟨rfl, rfl⟩ := (Prog.ends_pure _ _ _).mp h
    exact ⟨List.prefix_refl _, fun _ _ => rfl, rfl, rfl⟩
  | cons res rest ih =>
    rcases (Prog.ends_call_bind _ _ _ _).mp h with ⟨v, es', rfl, h'⟩ | ⟨x, rfl, rfl⟩
    · obtain ⟨hpre, hall, htrades, hbalances⟩ := ih h'
      have hone : published (⟨.xadd tradesStream res.trade.toRedis, .ok v⟩ :: es') =
          res.trade.toRedis :: published es' := by
        simp [published, eventEntries, carriedOut]
      refine ⟨?_, fun u hu => ?_, htrades, hbalances⟩
      · rw [hone, List.map_cons]
        exact (List.prefix_cons_inj _).mpr hpre
      · rw [hone, hall u hu, List.map_cons]
    · refine ⟨?_, fun u hu => (by cases hu), rfl, rfl⟩
      cases hx : x.served <;>
        simp [published, eventEntries, carriedOut, hx]

structure Persisted (es : List (Event Service)) (trades : List TradeRow)
    (balances : List BalanceRow) (results : List ExecutionResult) : Prop where
  trades : tradesWritten es = trades
  balances : balancesWritten es = balances
  entries : published es = results.map fun res => res.trade.toRedis

theorem persist_writes {results : List ExecutionResult} {trades : List TradeRow}
    {balances : List BalanceRow} {es : List (Event Service)} {r : Except PyExc Unit}
    (hrec : persistRecords results = .ok (trades, balances)) (h : (persist results).Ends es r) :
    (published es = [] ∧ ∀ u, r ≠ .ok u) ∨
      (∀ u, r = .ok u → Persisted es trades balances results) ∧
        (results.length ≤ (published es).length → Persisted es trades balances results) := by
  rw [persist_eq hrec, Prog.bind_eq, Prog.ends_bind] at h
  rcases h with ⟨u, es₁, es₂, rfl, h₁, h₂⟩ | ⟨x, h, rfl⟩
  · obtain ⟨hpub₁, hbal₁, htrades₁⟩ := copyTrades_ends h₁
    rw [Prog.bind_eq, Prog.ends_bind] at h₂
    rcases h₂ with ⟨v, es₃, es₄, rfl, h₃, h₄⟩ | ⟨x, h₃, rfl⟩
    · obtain ⟨hpub₃, htrades₃, hbal₃⟩ := copyBalance_ends h₃
      obtain ⟨hpre, hall, htrades₄, hbal₄⟩ := publishTrades_published h₄
      have hwritten : published es₄ = results.map (fun res => res.trade.toRedis) →
          Persisted (es₁ ++ (es₃ ++ es₄)) trades balances results := fun heq =>
        ⟨by simp [htrades₁ u rfl, htrades₃, htrades₄], by simp [hbal₁, hbal₃ v rfl, hbal₄],
          by simp [hpub₁, hpub₃, heq]⟩
      refine .inr ⟨fun w hw => hwritten (hall w hw), fun hlen => hwritten ?_⟩
      refine hpre.eq_of_length_le ?_
      simpa [hpub₁, hpub₃] using hlen
    · obtain ⟨hpub₃, -, -⟩ := copyBalance_ends h₃
      exact .inl ⟨by simp [hpub₁, hpub₃], fun u hu => (by cases hu)⟩
  · exact .inl ⟨(copyTrades_ends h).1, fun u hu => (by cases hu)⟩

theorem settleBatch_writes {entries : List (Entry Fields)} {results : List ExecutionResult}
    {trades : List TradeRow} {balances : List BalanceRow} {es : List (Event Service)}
    {r : Except PyExc Unit} (hrec : persistRecords results = .ok (trades, balances))
    (h : (settleBatch entries results).Ends es r) (hne : results ≠ []) :
    (∀ u, r = .ok u → Persisted es trades balances results) ∧
      (results.length ≤ (published es).length → Persisted es trades balances results) := by
  have hnot : (!results.isEmpty) = true := by
    cases results with
    | nil => exact absurd rfl hne
    | cons res rest => rfl
  have hpos : 0 < results.length := List.length_pos_iff.mpr hne
  rw [settleBatch, hnot, Prog.bind_eq, Prog.ends_bind] at h
  rcases h with ⟨u, es₁, es₂, rfl, h₁, h₂⟩ | ⟨x, h, rfl⟩
  · have hack : published es₂ = [] ∧ tradesWritten es₂ = [] ∧ balancesWritten es₂ = [] := by
      rcases (ends_awaitIf _ _ _ _).mp h₂ with ⟨-, a, es', rfl, rfl, -⟩ | ⟨-, rfl, -⟩
      · exact ⟨rfl, rfl, rfl⟩
      · exact ⟨rfl, rfl, rfl⟩
    obtain ⟨hpub, htrades, hbal⟩ := hack
    rcases persist_writes hrec h₁ with ⟨-, hno⟩ | ⟨hok, -⟩
    · exact absurd rfl (hno u)
    · obtain ⟨ht, hb, he⟩ := hok u rfl
      have hall : Persisted (es₁ ++ es₂) trades balances results :=
        ⟨by simp [ht, htrades], by simp [hb, hbal], by simp [he, hpub]⟩
      exact ⟨fun _ _ => hall, fun _ => hall⟩
  · refine ⟨fun u hu => (by cases hu), fun hlen => ?_⟩
    rcases persist_writes hrec h with ⟨hnone, -⟩ | ⟨-, hall⟩
    · rw [hnone] at hlen
      exact absurd hlen (not_le.mpr hpos)
    · exact hall hlen

theorem after_persists (engine : Engine) (q : Account) {es : List (Event Service)}
    (hes : ∀ e ∈ es, e.call.persists = true) :
    ((atomic engine).after q es).changed = q.changed ∧
      ((atomic engine).after q es).owed = q.owed - (published es).length := by
  induction es generalizing q with
  | nil => exact ⟨rfl, rfl⟩
  | cons e es ih =>
    obtain ⟨hchanged, howed⟩ := ih (q.next e) fun d hd => hes d (List.mem_cons_of_mem _ hd)
    have he := hes e List.mem_cons_self
    have hnext : (q.next e).changed = q.changed ∧
        (q.next e).owed = q.owed - (eventEntries e).length := by
      obtain ⟨c, a⟩ := e
      cases c <;> first
        | exact ⟨Bool.or_false _, rfl⟩
        | cases he
    have hlen : (published (e :: es)).length = (eventEntries e).length + (published es).length := by
      simp [published]
    change ((atomic engine).after (q.next e) es).changed = _ ∧
      ((atomic engine).after (q.next e) es).owed = _
    rw [hchanged, howed, hnext.1, hnext.2, hlen]
    exact ⟨rfl, by omega⟩

theorem settle_accepts {engine : Engine} {es tail : List (Event Service)} {q : Account}
    (hes : ∀ e ∈ es, e.call.persists = true)
    (hraise : Clean es ∧ q.owed ≤ (published es).length ∨
      ∃ fs c x, es = fs ++ [⟨c, .error x⟩] ∧ Clean fs)
    (hq : q.changed = false) (htail : ∀ e ∈ tail, e.call = .sleep 1) :
    (atomic engine).Accepts q (es ++ tail) ↔ q.owed ≤ (published es).length := by
  have hallows : ∀ e : Event Service, e.call.persists = true →
      ∀ p, (supplied engine).allows p e := by
    intro e he p
    obtain ⟨c, a⟩ := e
    cases c <;> trivial
  have hclean : ∀ gs : List (Event Service), Clean gs → (∀ e ∈ gs, e.call.persists = true) →
      (atomic engine).Accepts q gs := by
    intro gs hgs hcalls
    refine accepts_answered engine fun e he => ⟨?_, hallows e (hcalls e he)⟩
    obtain ⟨v, hv⟩ := hgs e he
    rw [raised, hv]
  obtain ⟨hchanged, howed⟩ := after_persists engine q hes
  have heven : ((atomic engine).after q es).Even ↔ q.owed ≤ (published es).length := by
    rw [Account.Even, hchanged, howed, hq, Nat.sub_eq_zero_iff_le]
    exact ⟨And.right, And.intro rfl⟩
  have hsleep : ∀ {p : Account}, p.Even → (atomic engine).Accepts p tail :=
    fun hp => (accepts_idle engine hp fun e he => .inr (htail e he)).1
  rw [(atomic engine).accepts_append]
  rcases hraise with ⟨hgs, hle⟩ | ⟨fs, c, x, rfl, hfs⟩
  · exact ⟨fun _ => hle, fun h => ⟨hclean es hgs hes, hsleep (heven.mpr h)⟩⟩
  · rw [← heven, (atomic engine).accepts_append, Monitor.after_append]
    constructor
    · intro h
      exact h.1.2.1.1 rfl
    · intro h
      refine ⟨⟨hclean fs hfs fun e he => hes e (List.mem_append_left _ he),
        ⟨fun _ => h, ?_⟩, trivial⟩, hsleep h⟩
      exact hallows _ (hes _ (List.mem_append_right _ List.mem_cons_self)) _

theorem settleBatch_recorded_iff {entries : List (Entry Fields)} {results : List ExecutionResult}
    {es : List (Event Service)} {r : Except PyExc Unit} (all : List (Event Service))
    (h : (settleBatch entries results).Ends es r)
    (hat : ∀ res ∈ results, ∃ ms, res.trade.executedAt = some ms)
    (htrades : tradesWritten all = tradesWritten es)
    (hbalances : balancesWritten all = balancesWritten es)
    (hentries : published all = published es) :
    (results.length ≤ (published es).length ↔
        ∀ i res, results[i]? = some res → Recorded all i res) ∧
      ∀ u, r = .ok u → results.length ≤ (published es).length := by
  obtain ⟨trades, balances, hrec, -⟩ := persistRecords_ok hat
  by_cases hne : results = []
  · subst hne
    simp
  obtain ⟨hok, hall⟩ := settleBatch_writes hrec h hne
  refine ⟨⟨fun hlen i res hi => ?_, fun hrecorded => ?_⟩, fun u hu => ?_⟩
  · obtain ⟨ht, hb, he⟩ := hall hlen
    obtain ⟨row, hrow, hat, hmem⟩ := persistRecords_at hrec hi
    rw [Recorded, hrow]
    refine ⟨by rw [htrades, ht, hat], fun r hr => ?_, ?_⟩
    · rw [hbalances, hb]
      exact hmem r hr
    · rw [hentries, he, List.getElem?_map, hi]
      rfl
  · have hpos : 0 < results.length := List.length_pos_iff.mpr hne
    have hlast := recorded_published (hrecorded (results.length - 1) _
      (List.getElem?_eq_getElem (Nat.sub_lt hpos Nat.one_pos)))
    rw [hentries] at hlast
    omega
  · rw [(hok u hu).entries, List.length_map]

theorem batchRun_unrecorded {engine : Engine} {entries : List (Entry Fields)}
    {es : List (Event Service)} {r : Except PyExc (List ExecutionResult)}
    (h : BatchRun engine entries es r) :
    published es = [] ∧ tradesWritten es = [] ∧ balancesWritten es = [] := by
  refine unrecorded fun e he => ?_
  have hcall := batchRun_calls h e he
  obtain ⟨c, a⟩ := e
  cases c <;> simp_all [Call.persists, Call.ofEngine, Call.marksCall]

theorem handleBatch_closed {engine : Engine} {entries : List (Entry Fields)}
    {es tail : List (Event Service)} {r : Except PyExc Unit} {q : Account}
    (all : List (Event Service)) (h : (handleBatch engine entries).Ends es r)
    (hl : Prog.Answered Call.isLocal es) (hq : q.Even) (htail : ∀ e ∈ tail, e.call = .sleep 1)
    (hpub : published all = published es) (htrades : tradesWritten all = tradesWritten es)
    (hbalances : balancesWritten all = balancesWritten es) :
    EachCall (CallClosed all) 0 (es ++ tail) ↔ (atomic engine).Accepts q (es ++ tail) := by
  rcases handleBatch_ends h hl with ⟨x, hrun, -⟩ | ⟨results, es₁, es₂, rfl, hrun, hsettle⟩
  · rw [batchRun_raises (k := 0) hrun rfl (hpub.trans (batchRun_unrecorded hrun).1) htail]
    exact ⟨And.intro hq.2, And.right⟩
  · obtain ⟨hrun₁, hrun₂, hrun₃⟩ := batchRun_unrecorded hrun
    have hpersist := (settleBatch_uses entries results).ends hsettle
    have hmarks : ∀ e ∈ es₂ ++ tail, e.call.marksCall = false := by
      intro e he
      rcases List.mem_append.mp he with he | he
      · have := hpersist e he
        obtain ⟨c, a⟩ := e
        cases c <;> first | rfl | cases this
      · rw [htail e he]
        rfl
    obtain ⟨hiff, hchanged, howed, hat⟩ := batchRun_ends (k := 0) all hrun rfl hq.1 hmarks
    obtain ⟨hrecorded, hok⟩ := settleBatch_recorded_iff all hsettle hat
      (by simp [htrades, hrun₂]) (by simp [hbalances, hrun₃]) (by simp [hpub, hrun₁])
    obtain ⟨trades, balances, hrec, -⟩ := persistRecords_ok hat
    rw [hq.2, zero_add] at howed
    have hraise : Clean es₂ ∧ ((atomic engine).after q es₁).owed ≤ (published es₂).length ∨
        ∃ fs c x, es₂ = fs ++ [⟨c, .error x⟩] ∧ Clean fs := by
      rcases settleBatch_performs hrec es₂ r hsettle with
        ⟨-, hclean, u, hu⟩ | ⟨fs, c, x, hfs, hclean, -, -⟩
      · exact .inl ⟨hclean, howed ▸ hok u hu⟩
      · exact .inr ⟨fs, c, x, hfs, hclean⟩
    rw [List.append_assoc, hiff, (atomic engine).accepts_append,
      settle_accepts hpersist hraise hchanged htail, howed, hrecorded]
    simp only [zero_add]

/-- Every call of an iteration has no effect or its complete effect, whichever awaits
raise, exactly where an await raises only while the call in progress has changed no balance
and no trade waits to be published, and where what a call has moved it can bring to a trade. -/
theorem passTrace_allOrNothing (engine : Engine) (w : World) :
    AllOrNothing (passTrace engine w) ↔
      (atomic engine).Accepts Account.idle (passTrace engine w) := by
  have hl : Prog.Answered Call.isLocal (passTrace engine w) :=
    follows_local (Prog.follows_trace World.serve (loopPass (consumeOnce engine)) w)
  obtain ⟨es, tail, r, heq, hbody, htail⟩ :=
    loopPass_ends (Prog.ends_trace World.serve (loopPass (consumeOnce engine)) w)
  change passTrace engine w = es ++ tail at heq
  rw [heq] at hl ⊢
  obtain ⟨hl, -⟩ := (Prog.answered_append _ _ _).mp hl
  have heven : Account.idle.Even := ⟨rfl, rfl⟩
  have hopenPass : ∀ e : Event Service, e.call.opensPass = true →
      e.call.marksCall = false ∧ e.call.persists = false := by
    intro e he
    obtain ⟨c, a⟩ := e
    cases c <;> first | exact ⟨rfl, rfl⟩ | cases he
  rcases consumeOnce_ends hbody hl with hopen | ⟨value, stream, entries, more, fs, rfl, hbatch⟩
  · -- no batch: there is no call
    have hidle : ∀ e ∈ es ++ tail, e.call.opensPass = true ∨ e.call = .sleep 1 := by
      intro e he
      rcases List.mem_append.mp he with he | he
      · exact .inl (hopen e he)
      · exact .inr (htail e he)
    have hmarks : ∀ e ∈ es ++ tail, e.call.marksCall = false := by
      intro e he
      rcases hidle e he with hc | hc
      · exact (hopenPass e hc).1
      · rw [hc]
        rfl
    have hnone := (eachCall_skip (P := CallClosed (es ++ tail)) (k := 0) hmarks []).mpr trivial
    rw [List.append_nil] at hnone
    exact ⟨fun _ => (accepts_idle engine heven hidle).1, fun _ => hnone⟩
  · have hhead : ∀ e ∈ passEvents value stream entries more, e.call.opensPass = true := by
      simp [passEvents, Call.opensPass]
    obtain ⟨hopen, hq⟩ := accepts_idle engine heven fun e he => .inl (hhead e he)
    obtain ⟨-, hlfs⟩ := (Prog.answered_append _ _ _).mp hl
    obtain ⟨hhead₁, hhead₂, hhead₃⟩ := unrecorded fun e he => (hopenPass e (hhead e he)).2
    have htailNo : ∀ e ∈ tail, e.call.persists = false := fun e he => by
      rw [htail e he]
      rfl
    obtain ⟨htail₁, htail₂, htail₃⟩ := unrecorded htailNo
    rw [AllOrNothing, List.append_assoc, eachCall_skip fun e he => (hopenPass e (hhead e he)).1,
      handleBatch_closed _ hbatch hlfs hq htail (by simp [hhead₁, htail₁])
        (by simp [hhead₂, htail₂]) (by simp [hhead₃, htail₃])]
    exact ⟨fun h => ((atomic engine).accepts_append _ _ _).mpr ⟨hopen, h⟩,
      fun h => (((atomic engine).accepts_append _ _ _).mp h).2⟩

end

def cancelledOutside (n : ℕ) : Outside :=
  { sampleOutside n with fault := if n = 15 then some (.cancelled false) else none }

def cancelledWorld : World :=
  sampleWorld cancelledOutside (balanceExchanges.map fun ex => (ex, 10000))
    [sampleOpportunity "binance" "bybit" (1 / 10) (1 / 10)]

/-- Both legs of the trade stay in Redis and nothing is recorded. -/
theorem passTrace_cancelled :
    ¬@AllOrNothing sampleText (@passTrace sampleText ⟨10, 100⟩ cancelledWorld) ∧
      (@passEnd sampleText ⟨10, 100⟩ cancelledWorld).balanceOf "binance" = 8999 ∧
      (@passEnd sampleText ⟨10, 100⟩ cancelledWorld).trades = [] := by
  decide +kernel

end CriptoParser
