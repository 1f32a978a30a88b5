import CriptoParser.TradeDeletes

/-!
The store of the trades page. A fetch takes page, page size and filters when it is issued, and its
response overwrites what is shown whenever it arrives: what stays is what arrives last.
-/

set_option autoImplicit false

namespace CriptoParser

/-- `{ ...s.filters, [key]: value }`. -/
def TradeFilters.set (f : TradeFilters) (key : TradeFilter) (value : String) : TradeFilters :=
  match key with
  | .status => { f with status := value }
  | .symbol => { f with symbol := value }
  | .exchange => { f with exchange := value }
  | .start => { f with start := value }
  | .end_ => { f with end_ := value }

structure TradeParams where
  page : Page
  pageSize : PageSize
  filters : TradeFilters
  deriving DecidableEq, Repr

structure TradeStore where
  items : List TradeItem
  total : ℕ
  page : Page
  pageSize : PageSize
  totalPages : ℕ
  loading : Bool
  filters : TradeFilters
  deriving DecidableEq, Repr

def TradeStore.params (s : TradeStore) : TradeParams := ⟨s.page, s.pageSize, s.filters⟩

def firstPage : Page := ⟨1, Nat.le_refl 1⟩

def emptyStore : TradeStore where
  items := []
  total := 0
  page := firstPage
  pageSize := ⟨25, by decide⟩
  totalPages := 0
  loading := false
  filters := emptyFilters

def TradeStore.show (s : TradeStore) (a : TradePage) : TradeStore :=
  { s with items := a.items, total := a.total, totalPages := a.totalPages, loading := false }

/-- A `GET /trades` on its way; `reply` is there once the server has answered. -/
structure ListRequest where
  id : ℕ
  params : TradeParams
  reply : Option TradePage
  deriving DecidableEq, Repr

structure DeleteRequest where
  id : ℕ
  filters : TradeFilters
  reply : Option Deleted
  deriving DecidableEq, Repr

/-- The page, the requests on their way and the table they are for. -/
structure TradeSession where
  store : TradeStore
  table : TradeTable
  scheduled : Bool
  requests : List ListRequest
  issued : ℕ
  deletes : List DeleteRequest
  deletesIssued : ℕ

inductive StoreStep where
  | setFilter (key : TradeFilter) (value : String)
  | resetFilters
  | setPage (page : Page)
  | setPageSize (size : PageSize)
  | effect
  | serve (id : ℕ) (order : TradeOrder)
  | arrive (id : ℕ)
  | confirmDelete
  | serveDelete (id : ℕ)
  | arriveDelete (id : ℕ)

namespace TradeSession

def fetch (s : TradeSession) : TradeSession :=
  { s with
    store := { s.store with loading := true }
    requests := s.requests ++ [⟨s.issued, s.store.params, none⟩]
    issued := s.issued + 1 }

def change (s : TradeSession) (store : TradeStore) : TradeSession :=
  { s with store := store, scheduled := s.scheduled || decide (store.params ≠ s.store.params) }

section
variable [Postgres]

/-- The step, where it can be taken; all the responses are successful. -/
def step (s : TradeSession) : StoreStep → Option TradeSession
  | .setFilter key value =>
    -- the filters are another object also when they say the same
    some { s with
      store := { s.store with filters := s.store.filters.set key value, page := firstPage }
      scheduled := true }
  | .resetFilters =>
    some { s with
      store := { s.store with filters := emptyFilters, page := firstPage }, scheduled := true }
  | .setPage page => some (s.change { s.store with page := page })
  | .setPageSize size => some (s.change { s.store with pageSize := size, page := firstPage })
  | .effect => if s.scheduled then some { s.fetch with scheduled := false } else none
  | .serve id order => do
    let r ← s.requests.find? fun r => r.id = id ∧ r.reply = none
    match getTrades order (filtersToParams r.params.filters) r.params.page r.params.pageSize
        s.table with
    | .ok a => some { s with
        requests := s.requests.map fun r' => if r' = r then { r with reply := some a } else r' }
    | .error _ => none
  | .arrive id => do
    let r ← s.requests.find? fun r => r.id = id
    let a ← r.reply
    some { s with
      store := s.store.show a
      requests := s.requests.filter fun r' => r'.id ≠ id }
  | .confirmDelete =>
    some { s with
      deletes := s.deletes ++ [⟨s.deletesIssued, s.store.filters, none⟩]
      deletesIssued := s.deletesIssued + 1 }
  | .serveDelete id => do
    let d ← s.deletes.find? fun d => d.id = id ∧ d.reply = none
    match deleteTrades (filtersToParams d.filters) s.table with
    | .ok (deleted, table) => some { s with
        table := table
        deletes := s.deletes.map fun d' =>
          if d' = d then { d with reply := some deleted } else d' }
    | .error _ => none
  | .arriveDelete id => do
    let d ← s.deletes.find? fun d => d.id = id
    let _ ← d.reply
    some (({ s with deletes := s.deletes.filter fun d' => d'.id ≠ id }.change
      { s.store with page := firstPage }).fetch)

def run : TradeSession → List StoreStep → Option TradeSession
  | s, [] => some s
  | s, a :: rest => do
    let s ← s.step a
    s.run rest

/-- A response that leaves nothing outstanding is that of the fetch issued last. -/
def inTurn (s : TradeSession) : StoreStep → Bool
  | .arrive id =>
    s.scheduled || !s.deletes.isEmpty || (s.requests.any fun r => r.id ≠ id) ||
      decide (id + 1 = s.issued)
  | _ => true

def allInTurn : TradeSession → List StoreStep → Bool
  | _, [] => true
  | s, a :: rest =>
    s.inTurn a &&
      match s.step a with
      | some s => s.allInTurn rest
      | none => true

end

def opened (t : TradeTable) : TradeSession where
  store := emptyStore
  table := t
  scheduled := true
  requests := []
  issued := 0
  deletes := []
  deletesIssued := 0

/-- No request is pending, and none is about to be made. -/
def Quiet (s : TradeSession) : Prop := s.scheduled = false ∧ s.requests = [] ∧ s.deletes = []

end TradeSession

section
variable [Postgres]

def Answers (t : TradeTable) (p : TradeParams) (a : TradePage) : Prop :=
  ∃ order, getTrades order (filtersToParams p.filters) p.page p.pageSize t = .ok a

/-- The store shows the server's answer for its parameters, and its total is the number of trades
that the delete removes. -/
structure Shown (s : TradeSession) : Prop where
  answer : ∃ a, Answers s.table s.store.params a ∧ s.store.items = a.items ∧
    s.store.total = a.total ∧ s.store.totalPages = a.totalPages
  confirmed : ∃ d t', deleteTrades (filtersToParams s.store.filters) s.table = .ok (d, t') ∧
    d.deleted = s.store.total

theorem Answers.shown {s : TradeSession} {a : TradePage}
    (h : Answers s.table s.store.params a) (hitems : s.store.items = a.items)
    (htotal : s.store.total = a.total) (hpages : s.store.totalPages = a.totalPages) : Shown s := by
  refine ⟨⟨a, h, hitems, htotal, hpages⟩, ?_⟩
  obtain ⟨order, hanswer⟩ := h
  rw [getTrades_eq] at hanswer
  split at hanswer
  · rename_i hreadable
    obtain rfl := Except.ok.inj hanswer
    refine ⟨_, _, by rw [deleteTrades_eq]; exact if_pos hreadable, ?_⟩
    rw [htotal]
    rfl
  · cases hanswer

/-- The fetch issued last is for what the store holds, unless another will follow; with nothing
left to arrive, its answer is shown. -/
structure Fresh (s : TradeSession) : Prop where
  ids : ∀ r ∈ s.requests, r.id < s.issued
  newest : s.scheduled = false → s.deletes = [] → ∀ r ∈ s.requests, r.id + 1 = s.issued →
    r.params = s.store.params ∧ ∀ a ∈ r.reply, Answers s.table r.params a
  shown : s.scheduled = false → s.deletes = [] → s.requests = [] → Shown s

theorem Fresh.of_pending {s : TradeSession} (hids : ∀ r ∈ s.requests, r.id < s.issued)
    (h : s.scheduled = true ∨ s.deletes ≠ []) : Fresh s := by
  refine ⟨hids, fun hs hd => ?_, fun hs hd => ?_⟩ <;>
  · rcases h with h | h
    · rw [h] at hs
      cases hs
    · exact absurd hd h

theorem fresh_opened (t : TradeTable) : Fresh (TradeSession.opened t) :=
  .of_pending (by simp [TradeSession.opened]) (.inl rfl)

theorem Fresh.fetch {s : TradeSession} (hids : ∀ r ∈ s.requests, r.id < s.issued)
    (scheduled : Bool) : Fresh { s.fetch with scheduled := scheduled } := by
  refine ⟨fun r hr => ?_, fun _ _ r hr hlast => ?_, fun _ _ hnone => ?_⟩
  · rcases List.mem_append.mp hr with hr | hr
    · exact (hids r hr).trans (Nat.lt_succ_self _)
    · rw [List.mem_singleton.mp hr]
      exact Nat.lt_succ_self _
  · rcases List.mem_append.mp hr with hr | hr
    · have hid := hids r hr
      have hlast : r.id + 1 = s.issued + 1 := hlast
      omega
    · rw [List.mem_singleton.mp hr]
      exact ⟨rfl, by simp⟩
  · exact absurd hnone (List.append_ne_nil_of_right_ne_nil _ (List.cons_ne_nil _ _))

theorem Fresh.change {s : TradeSession} (h : Fresh s) {store : TradeStore}
    (hitems : store.items = s.store.items) (htotal : store.total = s.store.total)
    (hpages : store.totalPages = s.store.totalPages) : Fresh (s.change store) := by
  by_cases hsame : store.params = s.store.params
  · have hscheduled : (s.change store).scheduled = s.scheduled := by
      simp [TradeSession.change, hsame]
    refine ⟨h.ids, fun hs hd r hr hlast => ?_, fun hs hd hr => ?_⟩
    · rw [hscheduled] at hs
      obtain ⟨hparams, hreply⟩ := h.newest hs hd r hr hlast
      exact ⟨hparams.trans hsame.symm, hreply⟩
    · rw [hscheduled] at hs
      obtain ⟨⟨a, ha, h₁, h₂, h₃⟩, -⟩ := h.shown hs hd hr
      refine Answers.shown ?_ (hitems.trans h₁) (htotal.trans h₂) (hpages.trans h₃)
      exact hsame ▸ ha
  · exact .of_pending h.ids (.inl (by simp [TradeSession.change, hsame]))

theorem Fresh.arrive {s s' : TradeSession} (h : Fresh s) {id : ℕ}
    (hturn : s.inTurn (.arrive id) = true) (hstep : s.step (.arrive id) = some s') : Fresh s' := by
  simp only [TradeSession.step, Option.bind_eq_bind, Option.bind_eq_some_iff] at hstep
  obtain ⟨r, hfind, a, hreply, hs'⟩ := hstep
  obtain rfl := Option.some.inj hs'
  have hr := List.mem_of_find?_eq_some hfind
  have hid : r.id = id := by simpa using List.find?_some hfind
  refine ⟨fun r' hr' => h.ids r' (List.mem_of_mem_filter hr'),
    fun hs hd r' hr' hlast => h.newest hs hd r' (List.mem_of_mem_filter hr') hlast,
    fun hs hd hnone => ?_⟩
  have hothers : (s.requests.any fun r' => r'.id ≠ id) = false :=
    List.any_eq_false.mpr (List.filter_eq_nil_iff.mp hnone)
  have hs : s.scheduled = false := hs
  have hd : s.deletes = [] := hd
  have hlast : id + 1 = s.issued := by
    rw [TradeSession.inTurn, hs, hd, hothers] at hturn
    simpa using hturn
  obtain ⟨hparams, hanswers⟩ := h.newest hs hd r hr (hid ▸ hlast)
  have hanswer := hanswers a hreply
  rw [hparams] at hanswer
  refine Answers.shown (a := a) ?_ rfl rfl rfl
  exact hanswer

theorem Fresh.serve {s s' : TradeSession} (h : Fresh s) {id : ℕ} {order : TradeOrder}
    (hstep : s.step (.serve id order) = some s') : Fresh s' := by
  simp only [TradeSession.step, Option.bind_eq_bind, Option.bind_eq_some_iff] at hstep
  obtain ⟨r, hfind, hserve⟩ := hstep
  have hr := List.mem_of_find?_eq_some hfind
  split at hserve
  · rename_i a hanswer
    obtain rfl := Option.some.inj hserve
    have hold : ∀ r' ∈ s.requests.map (fun r' => if r' = r then { r with reply := some a } else r'),
        r' = { r with reply := some a } ∨ r' ∈ s.requests := by
      intro r' hr'
      obtain ⟨r'', hr'', rfl⟩ := List.mem_map.mp hr'
      split
      · exact .inl rfl
      · exact .inr hr''
    refine ⟨fun r' hr' => ?_, fun hs hd r' hr' hlast => ?_, fun _ _ hnone => ?_⟩
    · rcases hold r' hr' with rfl | hr'
      · exact h.ids r hr
      · exact h.ids r' hr'
    · rcases hold r' hr' with rfl | hr'
      · refine ⟨(h.newest hs hd r hr hlast).1, fun b hb => ?_⟩
        obtain rfl := Option.some.inj hb
        exact ⟨order, hanswer⟩
      · exact h.newest hs hd r' hr' hlast
    · rw [List.map_eq_nil_iff.mp hnone] at hr
      cases hr
  · cases hserve

theorem Fresh.step {s s' : TradeSession} (h : Fresh s) {a : StoreStep}
    (hturn : s.inTurn a = true) (hstep : s.step a = some s') : Fresh s' := by
  cases a with
  | setFilter key value =>
    obtain rfl := Option.some.inj hstep
    exact .of_pending h.ids (.inl rfl)
  | resetFilters =>
    obtain rfl := Option.some.inj hstep
    exact .of_pending h.ids (.inl rfl)
  | setPage page =>
    obtain rfl := Option.some.inj hstep
    exact h.change rfl rfl rfl
  | setPageSize size =>
    obtain rfl := Option.some.inj hstep
    exact h.change rfl rfl rfl
  | effect =>
    rw [TradeSession.step] at hstep
    split at hstep
    · obtain rfl := Option.some.inj hstep
      exact .fetch h.ids false
    · cases hstep
  | serve id order => exact h.serve hstep
  | arrive id => exact h.arrive hturn hstep
  | confirmDelete =>
    obtain rfl := Option.some.inj hstep
    exact .of_pending h.ids (.inr (by simp))
  | serveDelete id =>
    -- the delete is still to arrive
    simp only [TradeSession.step, Option.bind_eq_bind, Option.bind_eq_some_iff] at hstep
    obtain ⟨d, hfind, hserve⟩ := hstep
    have hd := List.mem_of_find?_eq_some hfind
    split at hserve
    · obtain rfl := Option.some.inj hserve
      refine .of_pending h.ids (.inr fun hnone => ?_)
      rw [List.map_eq_nil_iff.mp hnone] at hd
      cases hd
    · cases hserve
  | arriveDelete id =>
    simp only [TradeSession.step, Option.bind_eq_bind, Option.bind_eq_some_iff] at hstep
    obtain ⟨d, -, _, -, hs'⟩ := hstep
    obtain rfl := Option.some.inj hs'
    let s₁ : TradeSession := { s with deletes := s.deletes.filter fun d' => d'.id ≠ id }.change
      { s.store with page := firstPage }
    have hids : ∀ r ∈ s₁.requests, r.id < s₁.issued := h.ids
    exact Fresh.fetch hids s₁.fetch.scheduled

theorem Fresh.run {s s' : TradeSession} (h : Fresh s) {steps : List StoreStep}
    (hturn : s.allInTurn steps = true) (hrun : s.run steps = some s') : Fresh s' := by
  induction steps generalizing s with
  | nil =>
    obtain rfl := Option.some.inj hrun
    exact h
  | cons a rest ih =>
    simp only [TradeSession.run, Option.bind_eq_bind, Option.bind_eq_some_iff] at hrun
    obtain ⟨s₁, hstep, hrest⟩ := hrun
    rw [TradeSession.allInTurn, Bool.and_eq_true, hstep] at hturn
    exact ih (h.step hturn.1 hstep) hturn.2 hrest

/-- Where the last response is that of the last fetch, the page shows what was asked for whenever
nothing is outstanding. -/
theorem fetch_shown (t : TradeTable) (steps : List StoreStep) (s : TradeSession)
    (hrun : (TradeSession.opened t).run steps = some s)
    (hturn : (TradeSession.opened t).allInTurn steps = true) (hquiet : s.Quiet) : Shown s :=
  ((fresh_opened t).run hturn hrun).shown hquiet.1 hquiet.2.2 hquiet.2.1

end

/-- The page is opened, a filter is set, and the responses to both fetches arrive. -/
def twoFetches (first second : ℕ) : List StoreStep :=
  [.effect, .setFilter .symbol "ETH/USDT", .effect, .serve 0 (.stable _), .serve 1 (.stable _),
    .arrive first, .arrive second]

def afterFetches (first second : ℕ) : Option TradeSession :=
  @TradeSession.run noCasts (.opened tiedTrades) (twoFetches first second)

theorem afterFetches_quiet {first second : ℕ}
    (h : ((afterFetches first second).map fun s => (s.scheduled, s.requests, s.deletes)) =
      some (false, [], [])) : ∃ s, afterFetches first second = some s ∧ s.Quiet := by
  obtain ⟨s, hs, hfields⟩ := Option.map_eq_some_iff.mp h
  simp only [Prod.mk.injEq] at hfields
  exact ⟨s, hs, hfields⟩

/-- In the order of their issue. -/
theorem fetch_shown_inOrder : ∃ s, afterFetches 0 1 = some s ∧ s.Quiet ∧ @Shown noCasts s := by
  obtain ⟨s, hs, hquiet⟩ := @afterFetches_quiet 0 1 (by decide +kernel)
  exact ⟨s, hs, hquiet, @fetch_shown noCasts tiedTrades _ s hs (by decide +kernel) hquiet⟩

/-- The other way round the page shows, for a filter that keeps nothing, the two trades there are
without it. -/
theorem fetch_overtaken :
    ¬∀ steps s, @TradeSession.run noCasts (.opened tiedTrades) steps = some s → s.Quiet →
      @Shown noCasts s := by
  intro h
  obtain ⟨s, hs, hquiet⟩ := @afterFetches_quiet 1 0 (by decide +kernel)
  obtain ⟨-, d, t', hdelete, hcount⟩ := h _ s hs hquiet
  have hcounts : (afterFetches 1 0).map (fun s => (s.store.total,
      (@deleteTrades noCasts (filtersToParams s.store.filters) s.table).toOption.map
        (·.1.deleted))) = some (2, some 0) := by decide +kernel
  rw [hs, Option.map_some, hdelete, Option.some.injEq, Prod.mk.injEq] at hcounts
  obtain ⟨htotal, hdeleted⟩ := hcounts
  have hnone : d.deleted = 0 := Option.some.inj hdeleted
  rw [hnone, htotal] at hcount
  cases hcount

end CriptoParser
