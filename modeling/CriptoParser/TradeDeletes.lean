import CriptoParser.TradeDates

set_option autoImplicit false

namespace CriptoParser

theorem activeFilter_paramFor (filter : TradeFilter) {value text : String}
    (htext : value ≠ "" → text ≠ "") :
    activeFilter filter (paramFor value text) = [] ↔ value = "" := by
  unfold activeFilter paramFor
  by_cases hvalue : value = ""
  · simp [hvalue]
  · simp [hvalue, htext hvalue]

theorem filtersToParams_filters (f : TradeFilters) :
    (filtersToParams f).filters = [] ↔ hasActiveFilters f = false := by
  have hend : f.end_ ≠ "" → f.end_ ++ "T23:59:59" ≠ "" := fun _ => by simp
  simp only [TradeQuery.filters, List.append_eq_nil_iff, filtersToParams,
    activeFilter_paramFor _ id, activeFilter_paramFor _ hend, hasActiveFilters, decide_eq_false_iff_not]
  tauto

section
variable [Postgres]

/-- A delete removes what the list and the export return for the same filters. -/
structure DeletesListed (q : TradeQuery) (size : PageSize) (t : TradeTable) : Prop where
  refused : q.readable = false → (∃ x, deleteTrades q t = .error x) ∧
    (∀ orders, ∃ x, listing orders q size t = .error x) ∧
    ∀ order limit, ∃ x, exportTrades order q limit t = .error x
  deleted : q.readable = true → ∃ d t', deleteTrades q t = .ok (d, t') ∧
    t'.rows.Sublist t.rows ∧
    d.deleted = (t.rows.filter fun r => r ∉ t'.rows).length ∧
    (∀ orders, ∃ items, listing orders q size t = .ok items ∧
      ∀ item, item ∈ items ↔ ∃ r ∈ t.rows, r ∉ t'.rows ∧ item = rowToDict r) ∧
    ∀ order limit, t.rows.length ≤ limit.val → ∃ items,
      exportTrades order q limit t = .ok items ∧
        items.Perm ((t.rows.filter fun r => r ∉ t'.rows).map rowToDict)
  placeholders : ∀ limit offset,
    clauseArgs (buildFilters q).1
        ((buildFilters q).2.map .text ++ [.int limit, .int offset]) =
      q.filters.map (fun f => (f.1, some (.text f.2))) ∧
    argAt ((buildFilters q).2.map .text ++ [.int limit, .int offset])
      ((buildFilters q).2.length + 1) = some (.int limit) ∧
    argAt ((buildFilters q).2.map .text ++ [.int limit, .int offset])
      ((buildFilters q).2.length + 2) = some (.int offset)
  truncated : ∀ f, q = filtersToParams f →
    ((∃ d t', deleteTrades q t = .ok (d, t') ∧ d.truncated = true) ↔ hasActiveFilters f = false)

variable {q : TradeQuery} {size : PageSize} {t : TradeTable}

theorem delete_rows : (t.rows.filter fun r => r ∉ (t.delete q.keeps).rows) = q.matching t := by
  refine List.filter_congr fun r hr => ?_
  by_cases hkeeps : q.keeps r = true
  · simp [Sql.Table.delete, hkeeps]
  · simp [Sql.Table.delete, hkeeps, hr]

theorem mem_matching_iff {item : TradeItem} :
    item ∈ (q.matching t).map rowToDict ↔
      ∃ r ∈ t.rows, r ∉ (t.delete q.keeps).rows ∧ item = rowToDict r := by
  rw [← delete_rows, List.mem_map]
  constructor
  · rintro ⟨r, hr, rfl⟩
    obtain ⟨hmem, hgone⟩ := List.mem_filter.mp hr
    exact ⟨r, hmem, of_decide_eq_true hgone, rfl⟩
  · rintro ⟨r, hmem, hgone, rfl⟩
    exact ⟨r, List.mem_filter.mpr ⟨hmem, decide_eq_true hgone⟩, rfl⟩

/-- A delete removes what the list shows, whatever the orders of its pages, if and only if no
trades of one time lie across the end of a page. -/
theorem deleteTrades_listed (q : TradeQuery) (size : PageSize) (t : TradeTable) :
    DeletesListed q size t ↔
      (q.readable = true → Sql.Untied TradeRow.time (q.matching t) size.val) := by
  constructor
  · intro h hq
    by_contra hu
    obtain ⟨d, t', hdelete, -, -, hlisted, -⟩ := h.deleted hq
    rw [deleteTrades_eq, if_pos hq] at hdelete
    obtain ⟨-, rfl⟩ := Prod.mk.inj (Except.ok.inj hdelete)
    obtain ⟨orders, items, hitems, r, hr, hmissing⟩ := exists_unlisted hq hu
    obtain ⟨items', hitems', hmem⟩ := hlisted orders
    obtain rfl := Except.ok.inj (hitems.symm.trans hitems')
    exact hmissing ((hmem _).mpr (mem_matching_iff.mp (List.mem_map_of_mem hr)))
  · intro hu
    refine ⟨fun hq => ?_, fun hq => ?_, fun limit offset => ?_, fun f hf => ?_⟩
    · have hno : ¬q.readable = true := by simp [hq]
      refine ⟨⟨_, by rw [deleteTrades_eq, if_neg hno]⟩, fun orders => ⟨.callFailed false, ?_⟩,
        fun order limit => ⟨_, by rw [exportTrades_eq, if_neg hno]⟩⟩
      rw [listing, getTrades_eq, if_neg hno]
      rfl
    · refine ⟨_, t.delete q.keeps, by rw [deleteTrades_eq, if_pos hq], List.filter_sublist, ?_,
        fun orders => ?_, fun order limit hlimit => ?_⟩
      · rw [delete_rows]
      · obtain ⟨items, hitems, hperm⟩ := listing_perm orders hq (hu hq)
        exact ⟨items, hitems, fun item => hperm.mem_iff.trans mem_matching_iff⟩
      · have harranged := order.arranged (q.matching t)
        have hall : (order.sort (q.matching t)).length ≤ limit.val :=
          harranged.length.trans_le ((List.length_filter_le _ _).trans hlimit)
        rw [exportTrades_eq, if_pos hq, List.take_of_length_le hall, delete_rows]
        exact ⟨_, rfl, harranged.perm.map rowToDict⟩
    · have hclauses := clauseArgs_numbered q.filters [] [.int limit, .int offset]
      have hlimit := argAt_append (filterArgs q.filters) (.int limit) [.int offset]
      have hoffset := argAt_append (filterArgs q.filters ++ [.int limit]) (.int offset) []
      rw [List.append_assoc, List.length_append, List.length_singleton] at hoffset
      simp only [buildFilters_eq]
      refine ⟨hclauses, ?_, ?_⟩
      · simpa [filterArgs] using hlimit
      · simpa [filterArgs] using hoffset
    · subst hf
      rw [← filtersToParams_filters, deleteTrades_eq]
      constructor
      · rintro ⟨d, t', hdelete, htruncated⟩
        by_cases hq : (filtersToParams f).readable = true
        · rw [if_pos hq] at hdelete
          obtain ⟨rfl, -⟩ := Prod.mk.inj (Except.ok.inj hdelete)
          exact of_decide_eq_true htruncated
        · rw [if_neg hq] at hdelete
          cases hdelete
      · intro hnone
        have hq : (filtersToParams f).readable = true := by
          simp [TradeQuery.readable, hnone]
        rw [if_pos hq]
        exact ⟨_, _, rfl, decide_eq_true hnone⟩

end

/-- Both trades of one millisecond go, and at one trade a page the list showed only the first. -/
theorem deleteTrades_unlisted : ¬@DeletesListed noCasts anyTrade ⟨1, by decide⟩ tiedTrades := by
  intro h
  obtain ⟨d, t', hdelete, -, -, hlisted, -⟩ := @DeletesListed.deleted noCasts _ _ _ h rfl
  have hempty : @deleteTrades noCasts anyTrade tiedTrades =
      .ok (⟨2, true⟩, Sql.Table.empty) := by rfl
  have htwice : @listing noCasts turnedOrders anyTrade ⟨1, by decide⟩ tiedTrades =
      .ok [rowToDict (batchTrade "a" (1767225600123 / 1000)),
        rowToDict (batchTrade "a" (1767225600123 / 1000))] := by
    decide +kernel
  obtain ⟨items, hitems, hmem⟩ := hlisted turnedOrders
  rw [htwice] at hitems
  rw [hempty] at hdelete
  obtain rfl := Except.ok.inj hitems
  obtain ⟨-, rfl⟩ := Prod.mk.inj (Except.ok.inj hdelete)
  have hsecond := (hmem (rowToDict (batchTrade "b" (1767225600123 / 1000)))).mpr
    ⟨_, List.mem_cons_of_mem _ List.mem_cons_self, by simp [Sql.Table.empty], rfl⟩
  revert hsecond
  decide +kernel

end CriptoParser
