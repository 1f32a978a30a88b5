import CriptoParser.CsvText
import CriptoParser.StreamCodecs
import CriptoParser.TradeDates
import CriptoParser.TradePages

/-!
The CSV file of the trades: the header, and a line for each trade with the values of its dict
under the names of the header.
-/

set_option autoImplicit false

namespace CriptoParser

/-- `datetime.isoformat()` of a UTC time; the database keeps microseconds. -/
def isoformat (time : ℚ) : String :=
  let micros := ⌊time * 1000000⌋
  let second := micros % 86400000000 / 1000000
  let fraction := micros % 1000000
  isoDate (micros / 86400000000) ++ "T" ++ padded 2 (second / 3600) ++ ":" ++
    padded 2 (second / 60 % 60) ++ ":" ++ padded 2 (second % 60) ++
    (if fraction = 0 then "" else "." ++ padded 6 fraction) ++ "+00:00"

example : isoformat 0 = "1970-01-01T00:00:00+00:00" ∧
    isoformat (1767225599 + 1 / 2) = "2025-12-31T23:59:59.500000+00:00" := by decide +kernel

inductive CsvValue where
  | text (s : String)
  | float (x : ℚ)
  | int (n : ℤ)
  | none
  deriving DecidableEq, Repr

def TradeItem.fields (d : TradeItem) : List (String × CsvValue) := [
  ("id", .text d.id), ("opportunity_id", .text d.opportunityId), ("symbol", .text d.symbol),
  ("buy_exchange", .text d.buyExchange), ("sell_exchange", .text d.sellExchange),
  ("buy_price", .float d.buyPrice), ("sell_price", .float d.sellPrice),
  ("amount", .float d.amount), ("gross_pnl", .float d.grossPnl), ("net_pnl", .float d.netPnl),
  ("status", .text d.status), ("executed_at", .text (isoformat d.executedAt)),
  ("duration_ms", d.durationMs.elim .none .int)]

def exportHeader : List String := [
  "executed_at", "id", "opportunity_id", "symbol", "buy_exchange", "sell_exchange",
  "buy_price", "sell_price", "amount", "gross_pnl", "net_pnl", "status", "duration_ms"]

section
variable [PyText]

/-- What `csv.writer` makes of a value: the empty text of `None`, and `str(value)`. -/
def CsvValue.str : CsvValue → String
  | .text s => s
  | .float x => PyText.strFloat x
  | .int n => PyText.strInt n
  | .none => ""

def TradeItem.get (d : TradeItem) (k : String) : Except PyExc CsvValue :=
  match d.fields.lookup k with
  | some v => .ok v
  | none => .error .keyError

def TradeItem.cells (d : TradeItem) : Except PyExc (List String) :=
  exportHeader.mapM fun k => do
    let v ← d.get k
    .ok v.str

def csvText (rows : List (List String)) : String :=
  .ofList (Csv.document (rows.map fun row => row.map String.toList))

def exportCsv [Postgres] (order : TradeOrder) (q : TradeQuery) (limit : ExportLimit)
    (t : TradeTable) : Except PyExc String := do
  let items ← exportTrades order q limit t
  let rows ← items.mapM TradeItem.cells
  .ok (csvText (exportHeader :: rows))

end

def readCsv (text : String) : List (List String) :=
  (Csv.read text.toList).map fun row => row.map String.ofList

/-- The lines behind the header, each with the names of the header. -/
def readDicts (text : String) : List (List (String × String)) :=
  match readCsv text with
  | [] => []
  | header :: rows => rows.map header.zip

theorem readCsv_csvText (rows : List (List String)) : readCsv (csvText rows) = rows := by
  have hrow : ∀ row : List String, (row.map String.toList).map String.ofList = row := by
    intro row
    rw [List.map_map]
    exact List.map_id'' (fun s => String.ofList_toList) row
  rw [readCsv, csvText, String.toList_ofList, Csv.read_document, List.map_map]
  exact List.map_id'' hrow rows

section
variable [PyText]

def CsvValue.ShownAs : CsvValue → String → Prop
  | .text t, s => s = t
  | .float x, s => PyText.floatStr s = some x
  | .int n, s => PyText.intStr s = some n
  | .none, s => s = ""

/-- A line has a cell for each name of the dict and no others. -/
def TradeItem.ShownBy (d : TradeItem) (row : List (String × String)) : Prop :=
  ∀ k, match d.fields.lookup k with
    | some v => ∃ s, row.lookup k = some s ∧ v.ShownAs s
    | none => row.lookup k = none

def TradeItem.floats (d : TradeItem) : List ℚ :=
  [d.buyPrice, d.sellPrice, d.amount, d.grossPnl, d.netPnl]

def TradeItem.cell (d : TradeItem) (k : String) : String :=
  ((d.fields.lookup k).getD .none).str

omit [PyText] in
theorem lookup_pairs (keys : List String) (f : String → String) (k : String) :
    (keys.map fun k => (k, f k)).lookup k = if k ∈ keys then some (f k) else none := by
  induction keys with
  | nil => rfl
  | cons key keys ih =>
    rw [List.map_cons, List.lookup_cons]
    by_cases h : k = key
    · subst h
      simp
    · rw [beq_eq_false_iff_ne.mpr h, ih]
      simp [h]

omit [PyText] in
theorem mem_exportHeader (d : TradeItem) (k : String) :
    k ∈ exportHeader ↔ (d.fields.lookup k).isSome = true := by
  have hkeys : (d.fields.map Prod.fst).Perm exportHeader := by
    have hnames : d.fields.map Prod.fst = [
      "id", "opportunity_id", "symbol", "buy_exchange", "sell_exchange", "buy_price",
      "sell_price", "amount", "gross_pnl", "net_pnl", "status", "executed_at", "duration_ms"] := rfl
    rw [hnames]
    decide
  rw [← hkeys.mem_iff, List.lookup_isSome_iff, List.mem_map]
  constructor
  · rintro ⟨p, hp, rfl⟩
    exact ⟨p, hp, by simp⟩
  · rintro ⟨p, hp, hk⟩
    exact ⟨p, hp, (by simpa using hk : k = p.1).symm⟩

theorem str_shown {d : TradeItem} (hback : ReadsBack d.floats d.durationMs.toList) :
    ∀ p ∈ d.fields, p.2.ShownAs p.2.str := by
  have hfloat : ∀ x ∈ d.floats, (CsvValue.float x).ShownAs (CsvValue.float x).str := hback.float
  simp only [TradeItem.floats, List.forall_mem_cons, List.not_mem_nil, false_implies,
    implies_true, and_true] at hfloat
  obtain ⟨hbuy, hsell, hamount, hgross, hnet⟩ := hfloat
  have hduration : (d.durationMs.elim CsvValue.none CsvValue.int).ShownAs
      (d.durationMs.elim CsvValue.none CsvValue.int).str := by
    cases hms : d.durationMs with
    | none => rfl
    | some n => exact hback.int n (by simp [hms])
  have htext : ∀ t, (CsvValue.text t).ShownAs (CsvValue.text t).str := fun t => rfl
  simp [TradeItem.fields, htext, hbuy, hsell, hamount, hgross, hnet, hduration]

theorem cells_shown {d : TradeItem} (hback : ReadsBack d.floats d.durationMs.toList) :
    d.ShownBy (exportHeader.zip (exportHeader.map d.cell)) := by
  intro k
  have hrow : exportHeader.zip (exportHeader.map d.cell) =
      exportHeader.map fun k => (k, d.cell k) := rfl
  rw [hrow, lookup_pairs]
  have hmem := mem_exportHeader d k
  cases hk : d.fields.lookup k with
  | none =>
    rw [hk] at hmem
    exact if_neg fun h => (by simpa using hmem.mp h)
  | some v =>
    rw [hk] at hmem
    obtain ⟨before, rest, hfields, -⟩ := List.lookup_eq_some_iff.mp hk
    have hv : (k, v) ∈ d.fields := hfields ▸ by simp
    refine ⟨d.cell k, if_pos (hmem.mpr rfl), ?_⟩
    rw [TradeItem.cell, hk]
    exact str_shown hback (k, v) hv

/-- Read back, the exported file has the header, and a line for each of the newest `limit` trades
that the filters keep, in their order; the line shows the dict of its trade, whatever commas,
quotes and line ends are in the texts. -/
theorem export_read_back [Postgres] (order : TradeOrder) (q : TradeQuery) (limit : ExportLimit)
    (t : TradeTable)
    (hback : ∀ r ∈ t.rows, ReadsBack (rowToDict r).floats (rowToDict r).durationMs.toList) :
    if q.readable then
      ∃ text, exportCsv order q limit t = .ok text ∧ (readCsv text).head? = some exportHeader ∧
        List.Forall₂ TradeItem.ShownBy
          (((order.sort (q.matching t)).take limit.val).map rowToDict) (readDicts text)
    else exportCsv order q limit t = .error (.callFailed false) := by
  split
  · rename_i hq
    generalize hitems : ((order.sort (q.matching t)).take limit.val).map rowToDict = items
    have hshown : ∀ d ∈ items, d.ShownBy (exportHeader.zip (exportHeader.map d.cell)) := by
      intro d hd
      rw [← hitems] at hd
      obtain ⟨r, hr, rfl⟩ := List.mem_map.mp hd
      have hmatching : r ∈ q.matching t :=
        (order.arranged _).perm.mem_iff.mp (List.mem_of_mem_take hr)
      exact cells_shown (hback r (List.mem_filter.mp hmatching).1)
    have hrows : items.mapM TradeItem.cells =
        .ok (items.map fun d => exportHeader.map d.cell) :=
      List.mapM_pure
    refine ⟨csvText (exportHeader :: items.map fun d => exportHeader.map d.cell), ?_, ?_, ?_⟩
    · rw [exportCsv, exportTrades_eq, if_pos hq, hitems]
      simp only [bind, Except.bind, hrows]
    · rw [readCsv_csvText]
      rfl
    · simp only [readDicts, readCsv_csvText, List.map_map, List.forall₂_map_right_iff]
      exact List.forall₂_same.mpr hshown
  · rename_i hq
    rw [exportCsv, exportTrades_eq, if_neg hq]
    rfl

end

/-- A trade whose texts hold a comma and a quote, and whose duration is not known. -/
def quotedTrade : TradeRow :=
  ⟨0, "trade_7_abcdefab", "opp,7", "BTC\"USDT", "kucoin", "binance", 3 / 2, 3 / 2, 3 / 2, 0, 0, 0,
    0, 0, 0, "completed", 0, none⟩

def quotedTrades : TradeTable := ⟨[quotedTrade], List.nodup_singleton _⟩

theorem export_read_back_quoted :
    ∃ text, @exportCsv codecText noCasts (.stable TradeRow.time) anyTrade ⟨10, by decide⟩
        quotedTrades = .ok text ∧ (readCsv text).head? = some exportHeader ∧
      List.Forall₂ (@TradeItem.ShownBy codecText) [rowToDict quotedTrade] (readDicts text) := by
  have hfloat : ∀ x ∈ (rowToDict quotedTrade).floats, x = 0 ∨ x = 3 / 2 := by decide +kernel
  have hback : @ReadsBack codecText (rowToDict quotedTrade).floats
      (rowToDict quotedTrade).durationMs.toList := by
    refine @ReadsBack.mk codecText _ _ ?_ (by decide) (by decide +kernel) (by decide +kernel)
    · intro x hx
      rcases hfloat x hx with rfl | rfl <;> decide +kernel
  have hall : ∀ r ∈ quotedTrades.rows, @ReadsBack codecText (rowToDict r).floats
      (rowToDict r).durationMs.toList := by
    intro r hr
    rw [List.mem_singleton.mp hr]
    exact hback
  have h := @export_read_back codecText noCasts (.stable TradeRow.time) anyTrade ⟨10, by decide⟩
    quotedTrades hall
  have hsorted : (Sql.OrderDesc.stable TradeRow.time).sort
      (@TradeQuery.matching noCasts anyTrade quotedTrades) = [quotedTrade] :=
    List.perm_singleton.mp ((Sql.OrderDesc.stable TradeRow.time).arranged [quotedTrade]).perm
  rw [if_pos (by decide), hsorted] at h
  exact h

end CriptoParser
