import CriptoParser.ServiceWorld
import CriptoParser.SqlPages
import CriptoParser.SqlTables
import Mathlib.Algebra.Order.Floor.Semiring
import Mathlib.Algebra.Order.Field.Rat
import Mathlib.Data.Rat.Floor
import Mathlib.Order.WithBot

/-!
The trades of the gateway: three endpoints put one generated `WHERE` into statements of their own.
The placeholders are numbers; what they stand for is settled when the server reads the arguments.
Below, what the filters ask for is said without them.
-/

set_option autoImplicit false

namespace CriptoParser

def tradeKey (r : TradeRow) : String × ℚ := (r.id, r.time)

abbrev TradeTable := Sql.Table tradeKey

abbrev TradeOrder := Sql.OrderDesc TradeRow.time

structure TradeQuery where
  status : Option String
  symbol : Option String
  exchange : Option String
  start : Option String
  end_ : Option String
  deriving DecidableEq, Repr

inductive TradeFilter where
  | status | symbol | exchange | start | end_
  deriving DecidableEq, Repr

structure Clause where
  filter : TradeFilter
  param : ℕ
  deriving DecidableEq, Repr

def Clause.text (c : Clause) : String :=
  match c.filter with
  | .status => "status = $" ++ toString c.param
  | .symbol => "symbol = $" ++ toString c.param
  | .exchange => "(buy_exchange = $" ++ toString c.param ++ " OR sell_exchange = $" ++
      toString c.param ++ ")"
  | .start => "time >= $" ++ toString c.param ++ "::timestamptz"
  | .end_ => "time <= $" ++ toString c.param ++ "::timestamptz"

/-- `if value: params.append(value); clauses.append(...)`. -/
def addFilter (filter : TradeFilter) (value : Option String) (f : List Clause × List String) :
    List Clause × List String :=
  match value with
  | none => f
  | some v => if v = "" then f else (f.1 ++ [⟨filter, f.2.length + 1⟩], f.2 ++ [v])

def buildFilters (q : TradeQuery) : List Clause × List String :=
  addFilter .end_ q.end_ (addFilter .start q.start (addFilter .exchange q.exchange
    (addFilter .symbol q.symbol (addFilter .status q.status ([], [])))))

def whereText (clauses : List Clause) : String :=
  if clauses = [] then "" else "WHERE " ++ " AND ".intercalate (clauses.map Clause.text)

inductive Arg where
  | text (s : String)
  | int (n : ℕ)
  deriving DecidableEq, Repr

inductive ArgType where
  | text | timestamptz | bigint
  deriving DecidableEq, Repr

abbrev PgTime := WithBot (WithTop ℚ)

def pgTime (seconds : ℚ) : PgTime := ((seconds : WithTop ℚ) : WithBot (WithTop ℚ))

@[simp] theorem pgTime_le {a b : ℚ} : pgTime a ≤ pgTime b ↔ a ≤ b := by
  rw [pgTime, pgTime, WithBot.coe_le_coe, WithTop.coe_le_coe]

/-- The cast of a text to `timestamptz` in the session; `none` for a text it refuses. -/
class Postgres where
  timestamptz : String → Option PgTime

def TradeFilter.type : TradeFilter → ArgType
  | .status | .symbol | .exchange => .text
  | .start | .end_ => .timestamptz

def argAt (args : List Arg) (n : ℕ) : Option Arg :=
  if n = 0 then none else args[n - 1]?

def intAt (args : List Arg) (n : ℕ) : ℕ :=
  match argAt args n with
  | some (.int k) => k
  | _ => 0

section
variable [Postgres]

def ArgType.takes : ArgType → Arg → Bool
  | .text, .text s => decide (Char.ofNat 0 ∉ s.toList)
  | .timestamptz, .text s => (Postgres.timestamptz s).isSome
  | .bigint, .int _ => true
  | _, _ => false

def accepts (params : List (ℕ × ArgType)) (args : List Arg) : Bool :=
  decide ((params.map Prod.fst).foldr max 0 = args.length) &&
    params.all fun p => (argAt args p.1).any p.2.takes

def TradeFilter.keeps (v : String) (r : TradeRow) : TradeFilter → Bool
  | .status => decide (r.status = v)
  | .symbol => decide (r.symbol = v)
  | .exchange => decide (r.buyExchange = v) || decide (r.sellExchange = v)
  | .start => (Postgres.timestamptz v).any fun t => decide (t ≤ pgTime r.time)
  | .end_ => (Postgres.timestamptz v).any fun t => decide (pgTime r.time ≤ t)

def Clause.holds (args : List Arg) (r : TradeRow) (c : Clause) : Bool :=
  match argAt args c.param with
  | some (.text v) => c.filter.keeps v r
  | _ => false

def whereHolds (clauses : List Clause) (args : List Arg) (r : TradeRow) : Bool :=
  clauses.all (Clause.holds args r)

def clauseParams (clauses : List Clause) : List (ℕ × ArgType) :=
  clauses.map fun c => (c.param, c.filter.type)

/-- `SELECT count(*) FROM trades {where}`. -/
def selectCount (clauses : List Clause) (args : List Arg) (t : TradeTable) : Except PyExc ℕ :=
  if accepts (clauseParams clauses) args then .ok (t.rows.countP (whereHolds clauses args))
  else .error (.callFailed false)

/-- `SELECT ... FROM trades {where} ORDER BY time DESC LIMIT $limit OFFSET $offset`. -/
def selectPage (order : TradeOrder) (clauses : List Clause) (limit offset : ℕ) (args : List Arg)
    (t : TradeTable) : Except PyExc (List TradeRow) :=
  if accepts (clauseParams clauses ++ [(limit, .bigint), (offset, .bigint)]) args then
    .ok (Sql.limitOffset (intAt args limit) (intAt args offset)
      (order.sort (t.rows.filter (whereHolds clauses args))))
  else .error (.callFailed false)

/-- `SELECT ... FROM trades {where} ORDER BY time DESC LIMIT $limit`. -/
def selectFirst (order : TradeOrder) (clauses : List Clause) (limit : ℕ) (args : List Arg)
    (t : TradeTable) : Except PyExc (List TradeRow) :=
  if accepts (clauseParams clauses ++ [(limit, .bigint)]) args then
    .ok ((order.sort (t.rows.filter (whereHolds clauses args))).take (intAt args limit))
  else .error (.callFailed false)

/-- `DELETE FROM trades {where}`, with the status the server answers. -/
def deleteWhere (clauses : List Clause) (args : List Arg) (t : TradeTable) :
    Except PyExc (String × TradeTable) :=
  if accepts (clauseParams clauses) args then
    .ok ("DELETE " ++ toString (t.rows.countP (whereHolds clauses args)),
      t.delete (whereHolds clauses args))
  else .error (.callFailed false)

end

/-- What `_row_to_dict` makes of a row; the text of `executed_at` is that of the time. -/
structure TradeItem where
  id : String
  opportunityId : String
  symbol : String
  buyExchange : String
  sellExchange : String
  buyPrice : ℚ
  sellPrice : ℚ
  amount : ℚ
  grossPnl : ℚ
  netPnl : ℚ
  status : String
  executedAt : ℚ
  durationMs : Option ℤ
  deriving DecidableEq, Repr

def rowToDict (r : TradeRow) : TradeItem where
  id := r.id
  opportunityId := r.opportunityId
  symbol := r.symbol
  buyExchange := r.buyExchange
  sellExchange := r.sellExchange
  buyPrice := r.buyPrice
  sellPrice := r.sellPrice
  amount := r.amount
  grossPnl := r.grossPnl
  netPnl := r.netPnl
  status := r.status
  executedAt := r.time
  durationMs := r.durationMs

abbrev Page := { page : ℕ // 1 ≤ page }

abbrev PageSize := { size : ℕ // 1 ≤ size ∧ size ≤ 100 }

abbrev ExportLimit := { limit : ℕ // 1 ≤ limit ∧ limit ≤ 200000 }

structure TradePage where
  items : List TradeItem
  total : ℕ
  page : ℕ
  pageSize : ℕ
  totalPages : ℕ
  deriving DecidableEq, Repr

structure Deleted where
  deleted : ℤ
  truncated : Bool
  deriving DecidableEq, Repr

def lastWord (s : String) : Except PyExc String :=
  match (s.toList.reverse.dropWhile Char.isWhitespace).takeWhile fun c => !c.isWhitespace with
  | [] => .error .indexError
  | cs => .ok (String.ofList cs.reverse)

/-- `int(status_str.split()[-1]) if status_str else 0`. -/
def deletedCount (status : String) : Except PyExc ℤ :=
  if status = "" then .ok 0
  else do
    match readInt (← lastWord status) with
    | some n => .ok n
    | none => .error .valueError

section
variable [Postgres]

def getTrades (order : TradeOrder) (q : TradeQuery) (page : Page) (pageSize : PageSize)
    (t : TradeTable) : Except PyExc TradePage := do
  let (clauses, params) := buildFilters q
  let total ← selectCount clauses (params.map .text) t
  let offset := (page.val - 1) * pageSize.val
  let rows ← selectPage order clauses (params.length + 1) (params.length + 2)
    (params.map .text ++ [.int pageSize.val, .int offset]) t
  .ok {
    items := rows.map rowToDict
    total := total
    page := page.val
    pageSize := pageSize.val
    totalPages := if total = 0 then 0 else ⌈(total : ℚ) / pageSize.val⌉₊ }

def deleteTrades (q : TradeQuery) (t : TradeTable) : Except PyExc (Deleted × TradeTable) := do
  let (clauses, params) := buildFilters q
  if whereText clauses ≠ "" then
    let (status, t) ← deleteWhere clauses (params.map .text) t
    let deleted ← deletedCount status
    .ok (⟨deleted, false⟩, t)
  else
    let total ← selectCount [] [] t
    .ok (⟨total, true⟩, Sql.Table.empty)

def exportTrades (order : TradeOrder) (q : TradeQuery) (limit : ExportLimit) (t : TradeTable) :
    Except PyExc (List TradeItem) := do
  let (clauses, params) := buildFilters q
  let rows ← selectFirst order clauses (params.length + 1)
    (params.map .text ++ [.int limit.val]) t
  .ok (rows.map rowToDict)

end

def activeFilter (filter : TradeFilter) (value : Option String) : List (TradeFilter × String) :=
  match value with
  | none => []
  | some v => if v = "" then [] else [(filter, v)]

def TradeQuery.filters (q : TradeQuery) : List (TradeFilter × String) :=
  activeFilter .status q.status ++ activeFilter .symbol q.symbol ++
    activeFilter .exchange q.exchange ++ activeFilter .start q.start ++ activeFilter .end_ q.end_

section
variable [Postgres]

def TradeQuery.readable (q : TradeQuery) : Bool :=
  q.filters.all fun f => f.1.type.takes (.text f.2)

def TradeQuery.keeps (q : TradeQuery) (r : TradeRow) : Bool :=
  q.filters.all fun f => f.1.keeps f.2 r

def TradeQuery.matching (q : TradeQuery) (t : TradeTable) : List TradeRow :=
  t.rows.filter q.keeps

end

def numberedFrom (n : ℕ) : List (TradeFilter × String) → List Clause
  | [] => []
  | f :: rest => ⟨f.1, n⟩ :: numberedFrom (n + 1) rest

theorem numberedFrom_append (n : ℕ) (fs gs : List (TradeFilter × String)) :
    numberedFrom n (fs ++ gs) = numberedFrom n fs ++ numberedFrom (n + fs.length) gs := by
  induction fs generalizing n with
  | nil => rfl
  | cons f rest ih =>
    rw [List.cons_append, numberedFrom, numberedFrom, ih, List.length_cons, List.cons_append,
      Nat.add_right_comm, Nat.add_assoc]

theorem addFilter_numbered (filter : TradeFilter) (value : Option String)
    (fs : List (TradeFilter × String)) :
    addFilter filter value (numberedFrom 1 fs, fs.map Prod.snd) =
      (numberedFrom 1 (fs ++ activeFilter filter value),
        (fs ++ activeFilter filter value).map Prod.snd) := by
  unfold addFilter activeFilter
  cases value with
  | none => simp
  | some v =>
    by_cases hv : v = ""
    · simp [hv]
    · simp [hv, numberedFrom_append, numberedFrom, Nat.add_comm]

theorem buildFilters_eq (q : TradeQuery) :
    buildFilters q = (numberedFrom 1 q.filters, q.filters.map Prod.snd) := by
  have hempty : (([], []) : List Clause × List String) =
      (numberedFrom 1 [], ([] : List (TradeFilter × String)).map Prod.snd) := rfl
  rw [buildFilters, hempty, addFilter_numbered, addFilter_numbered, addFilter_numbered,
    addFilter_numbered, addFilter_numbered]
  rfl

theorem whereText_eq_empty (clauses : List Clause) : whereText clauses = "" ↔ clauses = [] := by
  unfold whereText
  split
  · rename_i hc
    simp [hc]
  · rename_i hc
    simp [hc]

theorem numberedFrom_eq_nil {n : ℕ} {fs : List (TradeFilter × String)} :
    numberedFrom n fs = [] ↔ fs = [] := by
  cases fs <;> simp [numberedFrom]

@[simp] theorem argAt_append (first : List Arg) (a : Arg) (rest : List Arg) :
    argAt (first ++ a :: rest) (first.length + 1) = some a := by
  simp [argAt]

def filterArgs (fs : List (TradeFilter × String)) : List Arg := (fs.map Prod.snd).map .text

@[simp] theorem filterArgs_length (fs : List (TradeFilter × String)) :
    (filterArgs fs).length = fs.length := by simp [filterArgs]

def clauseArgs (clauses : List Clause) (args : List Arg) : List (TradeFilter × Option Arg) :=
  clauses.map fun c => (c.filter, argAt args c.param)

theorem clauseArgs_numbered (fs : List (TradeFilter × String)) (first last : List Arg) :
    clauseArgs (numberedFrom (first.length + 1) fs) (first ++ (filterArgs fs ++ last)) =
      fs.map fun f => (f.1, some (.text f.2)) := by
  induction fs generalizing first with
  | nil => rfl
  | cons f rest ih =>
    have hrest := ih (first ++ [.text f.2])
    rw [List.length_append, List.length_singleton, List.append_assoc] at hrest
    have harg : argAt (first ++ (filterArgs (f :: rest) ++ last)) (first.length + 1) =
        some (.text f.2) := argAt_append _ _ _
    rw [numberedFrom, clauseArgs, List.map_cons, harg, List.map_cons]
    congr 1

theorem numberedFrom_max (m n : ℕ) (fs : List (TradeFilter × String)) :
    max n (((clauseParams (numberedFrom (n + 1) fs)).map Prod.fst).foldr max m) =
      max (n + fs.length) m := by
  induction fs generalizing n with
  | nil => rfl
  | cons f rest ih =>
    have hrest := ih (n + 1)
    simp only [clauseParams] at hrest
    simp only [numberedFrom, clauseParams, List.map_cons, List.foldr_cons, List.length_cons]
    rw [hrest]
    omega

section
variable [Postgres]

theorem whereHolds_clauseArgs (clauses : List Clause) (args : List Arg) (r : TradeRow) :
    whereHolds clauses args r = (clauseArgs clauses args).all fun c =>
      match c.2 with
      | some (.text v) => c.1.keeps v r
      | _ => false := by
  rw [whereHolds, clauseArgs, List.all_map]
  rfl

theorem clauseParams_clauseArgs (clauses : List Clause) (args : List Arg) :
    ((clauseParams clauses).all fun p => (argAt args p.1).any p.2.takes) =
      (clauseArgs clauses args).all fun c => c.2.any c.1.type.takes := by
  rw [clauseParams, clauseArgs, List.all_map, List.all_map]
  rfl

theorem numberedFrom_holds (r : TradeRow) (fs : List (TradeFilter × String)) (last : List Arg) :
    whereHolds (numberedFrom 1 fs) (filterArgs fs ++ last) r =
      fs.all fun f => f.1.keeps f.2 r := by
  have hargs := clauseArgs_numbered fs [] last
  rw [List.length_nil, Nat.zero_add, List.nil_append] at hargs
  rw [whereHolds_clauseArgs, hargs, List.all_map]
  rfl

theorem numberedFrom_takes (fs : List (TradeFilter × String)) (last : List Arg) :
    ((clauseParams (numberedFrom 1 fs)).all fun p =>
      (argAt (filterArgs fs ++ last) p.1).any p.2.takes) =
      fs.all fun f => f.1.type.takes (.text f.2) := by
  have hargs := clauseArgs_numbered fs [] last
  rw [List.length_nil, Nat.zero_add, List.nil_append] at hargs
  rw [clauseParams_clauseArgs, hargs, List.all_map]
  rfl

theorem accepts_numbered (fs : List (TradeFilter × String)) (params : List (ℕ × ArgType))
    (last : List Arg) :
    accepts (clauseParams (numberedFrom 1 fs) ++ params) (filterArgs fs ++ last) =
      (decide (max fs.length ((params.map Prod.fst).foldr max 0) = fs.length + last.length) &&
        ((fs.all fun f => f.1.type.takes (.text f.2)) &&
          params.all fun p => (argAt (filterArgs fs ++ last) p.1).any p.2.takes)) := by
  have hmax := numberedFrom_max ((params.map Prod.fst).foldr max 0) 0 fs
  simp only [Nat.zero_add, Nat.zero_max] at hmax
  rw [accepts, List.map_append, List.foldr_append, hmax, List.all_append,
    numberedFrom_takes, List.length_append, filterArgs_length]

theorem whereHolds_numbered (q : TradeQuery) (last : List Arg) :
    whereHolds (numberedFrom 1 q.filters) (filterArgs q.filters ++ last) = q.keeps :=
  funext fun r => numberedFrom_holds r q.filters last

theorem whereHolds_filters (q : TradeQuery) :
    whereHolds (numberedFrom 1 q.filters) (filterArgs q.filters) = q.keeps := by
  have hholds := whereHolds_numbered q []
  rwa [List.append_nil] at hholds

theorem accepts_filters (q : TradeQuery) :
    accepts (clauseParams (numberedFrom 1 q.filters)) (filterArgs q.filters) = q.readable := by
  have haccepts := accepts_numbered q.filters [] []
  simp only [List.append_nil] at haccepts
  rw [haccepts]
  simp [TradeQuery.readable]

theorem selectCount_numbered (q : TradeQuery) (t : TradeTable) :
    selectCount (numberedFrom 1 q.filters) (filterArgs q.filters) t =
      if q.readable then .ok (q.matching t).length else .error (.callFailed false) := by
  rw [selectCount, accepts_filters, whereHolds_filters, List.countP_eq_length_filter]
  rfl

theorem deleteWhere_numbered (q : TradeQuery) (t : TradeTable) :
    deleteWhere (numberedFrom 1 q.filters) (filterArgs q.filters) t =
      if q.readable then
        .ok ("DELETE " ++ toString (q.matching t).length, t.delete q.keeps)
      else .error (.callFailed false) := by
  rw [deleteWhere, accepts_filters, whereHolds_filters, List.countP_eq_length_filter]
  rfl

theorem selectPage_numbered (order : TradeOrder) (q : TradeQuery) (limit offset : ℕ)
    (t : TradeTable) :
    selectPage order (numberedFrom 1 q.filters) (q.filters.length + 1) (q.filters.length + 2)
        (filterArgs q.filters ++ [.int limit, .int offset]) t =
      if q.readable then .ok (Sql.limitOffset limit offset (order.sort (q.matching t)))
      else .error (.callFailed false) := by
  have hlimit : argAt (filterArgs q.filters ++ [.int limit, .int offset])
      (q.filters.length + 1) = some (.int limit) := by
    rw [← filterArgs_length]
    exact argAt_append _ _ _
  have hoffset : argAt (filterArgs q.filters ++ [.int limit, .int offset])
      (q.filters.length + 2) = some (.int offset) := by
    have h := argAt_append (filterArgs q.filters ++ [.int limit]) (.int offset) []
    rwa [List.length_append, filterArgs_length, List.append_assoc] at h
  have haccepts : accepts (clauseParams (numberedFrom 1 q.filters) ++
      [(q.filters.length + 1, .bigint), (q.filters.length + 2, .bigint)])
      (filterArgs q.filters ++ [.int limit, .int offset]) = q.readable := by
    rw [accepts_numbered]
    simp [TradeQuery.readable, hlimit, hoffset, ArgType.takes]
  rw [selectPage, haccepts, whereHolds_numbered, intAt, intAt, hlimit, hoffset]
  rfl

theorem selectFirst_numbered (order : TradeOrder) (q : TradeQuery) (limit : ℕ)
    (t : TradeTable) :
    selectFirst order (numberedFrom 1 q.filters) (q.filters.length + 1)
        (filterArgs q.filters ++ [.int limit]) t =
      if q.readable then .ok ((order.sort (q.matching t)).take limit)
      else .error (.callFailed false) := by
  have hlimit : argAt (filterArgs q.filters ++ [.int limit]) (q.filters.length + 1) =
      some (.int limit) := by
    rw [← filterArgs_length]
    exact argAt_append _ _ _
  have haccepts : accepts (clauseParams (numberedFrom 1 q.filters) ++
      [(q.filters.length + 1, .bigint)]) (filterArgs q.filters ++ [.int limit]) = q.readable := by
    rw [accepts_numbered]
    simp [TradeQuery.readable, hlimit, ArgType.takes]
  rw [selectFirst, haccepts, whereHolds_numbered, intAt, hlimit]
  rfl

end

theorem isDigit_not_isWhitespace {c : Char} (h : c.isDigit = true) : c.isWhitespace = false := by
  by_contra hw
  rw [Bool.not_eq_false, Char.isWhitespace] at hw
  simp only [Bool.or_eq_true, decide_eq_true_eq] at hw
  rcases hw with ((rfl | rfl) | rfl) | rfl <;> exact absurd h (by decide)

theorem deletedCount_status (n : ℕ) : deletedCount ("DELETE " ++ toString n) = .ok (n : ℤ) := by
  have hword : lastWord ("DELETE " ++ toString n) = .ok n.repr := by
    have hchars : ("DELETE " ++ toString n).toList =
        "DELETE".toList ++ ' ' :: Nat.toDigits 10 n := by
      rw [String.toList_append, Nat.toString_eq_repr, Nat.toList_repr]
      rfl
    have hdigits : ∀ c ∈ (Nat.toDigits 10 n).reverse, c.isWhitespace = false := fun c hc =>
      isDigit_not_isWhitespace
        (Nat.isDigit_of_mem_toDigits (by decide) (by decide) (List.mem_reverse.mp hc))
    have hreverse : ("DELETE " ++ toString n).toList.reverse =
        (Nat.toDigits 10 n).reverse ++ ' ' :: "DELETE".toList.reverse := by
      rw [hchars, List.reverse_append, List.reverse_cons, List.append_assoc]
      rfl
    have hnotrailing : ((Nat.toDigits 10 n).reverse ++ ' ' :: "DELETE".toList.reverse).dropWhile
        Char.isWhitespace = (Nat.toDigits 10 n).reverse ++ ' ' :: "DELETE".toList.reverse := by
      cases hd : (Nat.toDigits 10 n).reverse with
      | nil => exact absurd (List.reverse_eq_nil_iff.mp hd) Nat.toDigits_ne_nil
      | cons c rest =>
        have hc := hdigits c (by rw [hd]; exact List.mem_cons_self)
        rw [List.cons_append, List.dropWhile_cons_of_neg (by simp [hc])]
    have htake : ((Nat.toDigits 10 n).reverse ++ ' ' :: "DELETE".toList.reverse).takeWhile
        (fun c => !c.isWhitespace) = (Nat.toDigits 10 n).reverse := by
      rw [List.takeWhile_append_of_pos fun c hc => by simp [hdigits c hc],
        List.takeWhile_cons_of_neg (by decide), List.append_nil]
    rw [lastWord, hreverse, hnotrailing, htake]
    split
    · rename_i hnil
      exact absurd (List.reverse_eq_nil_iff.mp hnil) Nat.toDigits_ne_nil
    · rw [List.reverse_reverse, Nat.repr_eq_ofList_toDigits]
  have hne : "DELETE " ++ toString n ≠ "" := by simp
  simp only [deletedCount, if_neg hne, hword, bind, Except.bind, readInt_repr]

section
variable [Postgres]

theorem getTrades_eq (order : TradeOrder) (q : TradeQuery) (page : Page) (size : PageSize)
    (t : TradeTable) :
    getTrades order q page size t =
      if q.readable then .ok {
        items := (Sql.limitOffset size.val ((page.val - 1) * size.val)
          (order.sort (q.matching t))).map rowToDict
        total := (q.matching t).length
        page := page.val
        pageSize := size.val
        totalPages := if (q.matching t).length = 0 then 0
          else ⌈((q.matching t).length : ℚ) / size.val⌉₊ }
      else .error (.callFailed false) := by
  have hpage := selectPage_numbered order q size.val ((page.val - 1) * size.val) t
  have hcount := selectCount_numbered q t
  simp only [getTrades, buildFilters_eq, List.length_map]
  rw [filterArgs] at hpage hcount
  rw [hcount, hpage]
  by_cases hq : q.readable = true
  · simp only [hq, if_true]
    rfl
  · simp only [hq]
    rfl

theorem exportTrades_eq (order : TradeOrder) (q : TradeQuery) (limit : ExportLimit)
    (t : TradeTable) :
    exportTrades order q limit t =
      if q.readable then .ok (((order.sort (q.matching t)).take limit.val).map rowToDict)
      else .error (.callFailed false) := by
  have hfirst := selectFirst_numbered order q limit.val t
  simp only [exportTrades, buildFilters_eq, List.length_map]
  rw [filterArgs] at hfirst
  rw [hfirst]
  by_cases hq : q.readable = true
  · simp only [hq, if_true]
    rfl
  · simp only [hq]
    rfl

theorem deleteTrades_eq (q : TradeQuery) (t : TradeTable) :
    deleteTrades q t =
      if q.readable then .ok (⟨(q.matching t).length, decide (q.filters = [])⟩, t.delete q.keeps)
      else .error (.callFailed false) := by
  simp only [deleteTrades, buildFilters_eq]
  by_cases hfilters : q.filters = []
  · have hwhere : whereText (numberedFrom 1 q.filters) = "" := by
      rw [whereText_eq_empty, hfilters]
      rfl
    have hreadable : q.readable = true := by simp [TradeQuery.readable, hfilters]
    have hkeeps : q.keeps = fun _ => true := by
      funext r
      simp [TradeQuery.keeps, hfilters]
    have hcount : selectCount [] [] t = .ok t.rows.length := by
      simp [selectCount, accepts, clauseParams, whereHolds]
    have hmatching : q.matching t = t.rows := by simp [TradeQuery.matching, hkeeps]
    have hempty : t.delete q.keeps = Sql.Table.empty := by
      simp [Sql.Table.delete, Sql.Table.empty, hkeeps]
    rw [if_neg (not_not.mpr hwhere), hcount, hreadable, hmatching, hempty, hfilters]
    rfl
  · have hwhere : whereText (numberedFrom 1 q.filters) ≠ "" := by
      rw [Ne, whereText_eq_empty, numberedFrom_eq_nil]
      exact hfilters
    have hdelete := deleteWhere_numbered q t
    rw [filterArgs] at hdelete
    rw [if_pos hwhere, hdelete]
    by_cases hq : q.readable = true
    · simp only [hq, if_true, bind, Except.bind, deletedCount_status, hfilters, decide_false]
    · simp only [hq]
      rfl

end

end CriptoParser
