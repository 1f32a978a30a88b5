import CriptoParser.TradePages

/-!
The dates of the trades page. The start is sent as the date, the end with the last second of its
day: a trade in the milliseconds after that second is in no range of dates that ends with the day.
-/

set_option autoImplicit false

namespace CriptoParser

structure TradeFilters where
  status : String
  symbol : String
  exchange : String
  start : String
  end_ : String
  deriving DecidableEq, Repr

def emptyFilters : TradeFilters := ⟨"", "", "", "", ""⟩

def hasActiveFilters (f : TradeFilters) : Bool :=
  f.status ≠ "" ∨ f.symbol ≠ "" ∨ f.exchange ≠ "" ∨ f.start ≠ "" ∨ f.end_ ≠ ""

def paramFor (value text : String) : Option String := if value = "" then none else some text

def filtersToParams (f : TradeFilters) : TradeQuery where
  status := paramFor f.status f.status
  symbol := paramFor f.symbol f.symbol
  exchange := paramFor f.exchange f.exchange
  start := paramFor f.start f.start
  end_ := paramFor f.end_ (f.end_ ++ "T23:59:59")

def civil (day : ℤ) : ℤ × ℤ × ℤ :=
  let z := day + 719468
  let era := z / 146097
  let doe := z % 146097
  let yoe := (doe - doe / 1460 + doe / 36524 - doe / 146096) / 365
  let doy := doe - (365 * yoe + yoe / 4 - yoe / 100)
  let mp := (5 * doy + 2) / 153
  let month := if mp < 10 then mp + 3 else mp - 9
  (yoe + 400 * era + if month ≤ 2 then 1 else 0, month, doy - (153 * mp + 2) / 5 + 1)

def padded (width : ℕ) (n : ℤ) : String :=
  let digits := (toString n).toList
  String.ofList (List.replicate (width - digits.length) '0' ++ digits)

def isoDate (day : ℤ) : String :=
  let (year, month, dayOfMonth) := civil day
  padded 4 year ++ "-" ++ padded 2 month ++ "-" ++ padded 2 dayOfMonth

example : isoDate 0 = "1970-01-01" ∧ isoDate 11016 = "2000-02-29" ∧ isoDate 20454 = "2026-01-01" := by
  decide +kernel

def dayOf (ms : ℤ) : ℤ := ms / 86400000

def dateFilters (first last : ℤ) : TradeFilters :=
  { emptyFilters with start := isoDate first, end_ := isoDate last }

/-- The server reads the bounds made of a date as times of its day in UTC. -/
def CastsDay [Postgres] (day : ℤ) : Prop :=
  Postgres.timestamptz (isoDate day) = some (pgTime (day * 86400 : ℤ)) ∧
    Postgres.timestamptz (isoDate day ++ "T23:59:59") = some (pgTime (day * 86400 + 86399 : ℤ))

/-- After the last second that a range which ends with the day still reaches. -/
def PastLastSecond (day ms : ℤ) : Prop :=
  (day * 86400 + 86399) * 1000 < ms ∧ ms < (day + 1) * 86400000

theorem isoDate_ne_empty (day : ℤ) : isoDate day ≠ "" := by simp [isoDate]

theorem dateFilters_filters (first last : ℤ) :
    (filtersToParams (dateFilters first last)).filters =
      [(.start, isoDate first), (.end_, isoDate last ++ "T23:59:59")] := by
  have hend : isoDate last ++ "T23:59:59" ≠ "" := by simp
  simp [TradeQuery.filters, filtersToParams, dateFilters, emptyFilters, paramFor, activeFilter,
    isoDate_ne_empty, hend]

section
variable [Postgres]

/-- List, export and delete match the trade if and only if `m`. The pages are taken in one order;
an export is taken with a limit it does not reach. -/
structure Matches (q : TradeQuery) (t : TradeTable) (r : TradeRow) (m : Prop) : Prop where
  list : ∀ (order : TradeOrder) (size : PageSize),
    (∃ items, listing (fun _ => order) q size t = .ok items ∧ rowToDict r ∈ items) ↔ m
  exported : ∀ (order : TradeOrder) (limit : ExportLimit), t.rows.length ≤ limit.val →
    ((∃ items, exportTrades order q limit t = .ok items ∧ rowToDict r ∈ items) ↔ m)
  delete : (∃ d t', deleteTrades q t = .ok (d, t') ∧ r ∉ t'.rows) ↔ m

variable {q : TradeQuery} {t : TradeTable} {r : TradeRow}

theorem mem_matching_dict (hr : r ∈ t.rows) {rows : List TradeRow}
    (hrows : rows.Perm (q.matching t)) :
    rowToDict r ∈ rows.map rowToDict ↔ q.keeps r = true := by
  constructor
  · intro h
    obtain ⟨s, hs, hsr⟩ := List.mem_map.mp h
    have hs := hrows.subset hs
    obtain rfl := rowToDict_inj (List.mem_of_mem_filter hs) hr hsr
    exact (List.mem_filter.mp hs).2
  · intro h
    exact List.mem_map_of_mem (hrows.symm.subset (List.mem_filter.mpr ⟨hr, h⟩))

theorem matches_keeps (hr : r ∈ t.rows) (hq : q.readable = true) :
    Matches q t r (q.keeps r = true) := by
  refine ⟨fun order size => ?_, fun order limit hlimit => ?_, ?_⟩
  · have harranged := order.arranged (q.matching t)
    have hall : listedRows (fun _ => order) q size t (if (q.matching t).length = 0 then 0
        else ⌈((q.matching t).length : ℚ) / size.val⌉₊) = order.sort (q.matching t) := by
      rw [listedRows, Sql.pages_eq_take fun _ _ => rfl, List.take_of_length_le]
      exact harranged.length.trans_le (totalPages_enough _ size)
    rw [listing_eq _ hq, hall]
    simp only [Except.ok.injEq, exists_eq_left']
    exact mem_matching_dict hr harranged.perm
  · have harranged := order.arranged (q.matching t)
    have hall : (order.sort (q.matching t)).length ≤ limit.val :=
      harranged.length.trans_le ((List.length_filter_le _ _).trans hlimit)
    rw [exportTrades_eq, if_pos hq, List.take_of_length_le hall]
    simp only [Except.ok.injEq, exists_eq_left']
    exact mem_matching_dict hr harranged.perm
  · rw [deleteTrades_eq, if_pos hq]
    simp only [Except.ok.injEq, Prod.mk.injEq]
    constructor
    · rintro ⟨d, t', ⟨⟨-, rfl⟩, hgone⟩⟩
      by_contra hkeeps
      exact hgone (List.mem_filter.mpr ⟨hr, by simpa using hkeeps⟩)
    · intro hkeeps
      exact ⟨_, _, ⟨rfl, rfl⟩, fun hleft => by simpa [hkeeps] using (List.mem_filter.mp hleft).2⟩

theorem matches_iff (hr : r ∈ t.rows) (hq : q.readable = true) {m : Prop} :
    Matches q t r m ↔ (q.keeps r = true ↔ m) := by
  have h := matches_keeps hr hq
  constructor
  · exact fun hm => h.delete.symm.trans hm.delete
  · exact fun hm => ⟨fun order size => (h.list order size).trans hm,
      fun order limit hlimit => (h.exported order limit hlimit).trans hm, h.delete.trans hm⟩

theorem dateFilters_readable {first last : ℤ} (hfirst : CastsDay first) (hlast : CastsDay last) :
    (filtersToParams (dateFilters first last)).readable = true := by
  simp [TradeQuery.readable, dateFilters_filters, TradeFilter.type, ArgType.takes, hfirst.1,
    hlast.2]

theorem dateFilters_keeps {first last ms : ℤ} (hfirst : CastsDay first) (hlast : CastsDay last)
    (hms : r.time = ms / 1000) :
    (filtersToParams (dateFilters first last)).keeps r = true ↔
      first * 86400000 ≤ ms ∧ ms ≤ (last * 86400 + 86399) * 1000 := by
  have hlow : ((first * 86400 : ℤ) : ℚ) ≤ r.time ↔ first * 86400000 ≤ ms := by
    rw [hms, le_div_iff₀ (by norm_num)]
    have hscale : ((first * 86400 : ℤ) : ℚ) * 1000 = ((first * 86400000 : ℤ) : ℚ) := by
      push_cast
      ring
    rw [hscale]
    exact_mod_cast Iff.rfl
  have hhigh : r.time ≤ ((last * 86400 + 86399 : ℤ) : ℚ) ↔
      ms ≤ (last * 86400 + 86399) * 1000 := by
    rw [hms, div_le_iff₀ (by norm_num)]
    exact_mod_cast Iff.rfl
  simp only [TradeQuery.keeps, dateFilters_filters, List.all_cons, List.all_nil, Bool.and_true,
    Bool.and_eq_true, TradeFilter.keeps, hfirst.1, hlast.2, Option.any_some, decide_eq_true_eq,
    pgTime_le]
  rw [hlow, hhigh]

theorem keeps_day {first last ms : ℤ} (hle : first ≤ last) (hfirst : CastsDay first)
    (hlast : CastsDay last) (hms : r.time = ms / 1000) :
    ((filtersToParams (dateFilters first last)).keeps r = true ↔
      first ≤ dayOf ms ∧ dayOf ms ≤ last) ↔ ¬PastLastSecond last ms := by
  rw [dateFilters_keeps hfirst hlast hms, PastLastSecond, dayOf]
  omega

/-- A range of dates covers its days, and two ranges in a row cover theirs once, if and only if
the trade is not past the last second of the last day of a range. -/
theorem dateFilters_days (t : TradeTable) (r : TradeRow) (ms d₁ d₂ : ℤ) (hr : r ∈ t.rows)
    (hms : r.time = ms / 1000) (h₁₂ : d₁ ≤ d₂) (hd₁ : CastsDay d₁) (hd₂ : CastsDay d₂) :
    (Matches (filtersToParams (dateFilters d₁ d₂)) t r (d₁ ≤ dayOf ms ∧ dayOf ms ≤ d₂) ↔
      ¬PastLastSecond d₂ ms) ∧
    ∀ d₃, d₂ < d₃ → CastsDay (d₂ + 1) → CastsDay d₃ →
      ((d₁ ≤ dayOf ms ∧ dayOf ms ≤ d₃ →
          (Matches (filtersToParams (dateFilters d₁ d₂)) t r True ∧
            Matches (filtersToParams (dateFilters (d₂ + 1) d₃)) t r False) ∨
          (Matches (filtersToParams (dateFilters d₁ d₂)) t r False ∧
            Matches (filtersToParams (dateFilters (d₂ + 1) d₃)) t r True)) ↔
        ¬(PastLastSecond d₂ ms ∨ PastLastSecond d₃ ms)) := by
  refine ⟨?_, fun d₃ h₂₃ hnext hd₃ => ?_⟩
  · rw [matches_iff hr (dateFilters_readable hd₁ hd₂)]
    exact keeps_day h₁₂ hd₁ hd₂ hms
  · simp only [matches_iff hr (dateFilters_readable hd₁ hd₂),
      matches_iff hr (dateFilters_readable hnext hd₃), dateFilters_keeps hd₁ hd₂ hms,
      dateFilters_keeps hnext hd₃ hms, PastLastSecond, dayOf, iff_true, iff_false]
    omega

end

@[reducible] def dayCasts : Postgres where
  timestamptz s :=
    ([20454, 20455].flatMap fun day : ℤ => [(isoDate day, pgTime (day * 86400 : ℤ)),
      (isoDate day ++ "T23:59:59", pgTime (day * 86400 + 86399 : ℤ))]).lookup s

theorem dayCasts_castsDay {day : ℤ} (h : day = 20454 ∨ day = 20455) : @CastsDay dayCasts day := by
  rcases h with rfl | rfl
  · exact ⟨by decide +kernel, by decide +kernel⟩
  · exact ⟨by decide +kernel, by decide +kernel⟩

def oneTrade (ms : ℤ) : TradeTable :=
  ⟨[batchTrade "a" (ms / 1000)], List.nodup_singleton _⟩

/-- A trade of the first noon is in the range of the first day, and in one of two ranges. -/
theorem dateFilters_days_noon :
    @Matches dayCasts (filtersToParams (dateFilters 20454 20454)) (oneTrade 1767268800000)
        (batchTrade "a" ((1767268800000 : ℤ) / 1000))
        (20454 ≤ dayOf 1767268800000 ∧ dayOf 1767268800000 ≤ 20454) ∧
      ((@Matches dayCasts (filtersToParams (dateFilters 20454 20454)) (oneTrade 1767268800000)
            (batchTrade "a" ((1767268800000 : ℤ) / 1000)) True ∧
          @Matches dayCasts (filtersToParams (dateFilters 20455 20455)) (oneTrade 1767268800000)
            (batchTrade "a" ((1767268800000 : ℤ) / 1000)) False) ∨
        (@Matches dayCasts (filtersToParams (dateFilters 20454 20454)) (oneTrade 1767268800000)
            (batchTrade "a" ((1767268800000 : ℤ) / 1000)) False ∧
          @Matches dayCasts (filtersToParams (dateFilters 20455 20455)) (oneTrade 1767268800000)
            (batchTrade "a" ((1767268800000 : ℤ) / 1000)) True)) := by
  have h := @dateFilters_days dayCasts (oneTrade 1767268800000) _ 1767268800000 20454 20454
    List.mem_cons_self rfl le_rfl (dayCasts_castsDay (.inl rfl)) (dayCasts_castsDay (.inl rfl))
  have hnoon : ¬PastLastSecond 20454 1767268800000 := by
    unfold PastLastSecond
    decide
  have hlater : ¬PastLastSecond 20455 1767268800000 := by
    unfold PastLastSecond
    decide
  exact ⟨h.1.mpr hnoon, (h.2 20455 (by decide) (dayCasts_castsDay (.inr rfl))
    (dayCasts_castsDay (.inr rfl))).mpr (not_or.mpr ⟨hnoon, hlater⟩) ⟨by decide, by decide⟩⟩

/-- A trade half a second before the first midnight is not among those of the first day. -/
theorem dateFilters_lastSecond :
    ¬@Matches dayCasts (filtersToParams (dateFilters 20454 20454)) (oneTrade 1767311999500)
        (batchTrade "a" ((1767311999500 : ℤ) / 1000))
        (20454 ≤ dayOf 1767311999500 ∧ dayOf 1767311999500 ≤ 20454) := by
  intro h
  have hcasts := dayCasts_castsDay (.inl rfl)
  have hkeeps := (@matches_iff dayCasts _ _ _ List.mem_cons_self
    (@dateFilters_readable dayCasts _ _ hcasts hcasts) _).mp h
  exact absurd (hkeeps.mpr ⟨by decide, by decide⟩) (by decide +kernel)

end CriptoParser
