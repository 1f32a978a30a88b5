import CriptoParser.GatewayTrades
import Mathlib.Order.Bounds.Basic
import Mathlib.Tactic.Positivity

/-!
Going through the pages of the trades. A time is in milliseconds, and trades of one batch may share
it: then the end of a page may fall among them, and each page orders them anew.
-/

set_option autoImplicit false

namespace CriptoParser

section
variable [Postgres]

def listPages (orders : ℕ → TradeOrder) (q : TradeQuery) (size : PageSize) (t : TradeTable) :
    ℕ → Except PyExc (List TradeItem)
  | 0 => .ok []
  | n + 1 => do
    let items ← listPages orders q size t n
    let page ← getTrades (orders n) q ⟨n + 1, Nat.le_add_left 1 n⟩ size t
    .ok (items ++ page.items)

def listing (orders : ℕ → TradeOrder) (q : TradeQuery) (size : PageSize) (t : TradeTable) :
    Except PyExc (List TradeItem) := do
  let first ← getTrades (orders 0) q ⟨1, le_rfl⟩ size t
  listPages orders q size t first.totalPages

/-- What one who goes through the pages is to get. -/
structure Partitioned (q : TradeQuery) (size : PageSize) (t : TradeTable) : Prop where
  refused : q.readable = false → ∀ order page, ∃ x, getTrades order q page size t = .error x
  total : q.readable = true → ∀ order page, ∃ answer, getTrades order q page size t = .ok answer ∧
    answer.total = (q.matching t).length ∧
    IsLeast { n | (q.matching t).length ≤ n * size.val } answer.totalPages
  partition : q.readable = true → ∀ orders, ∃ items, listing orders q size t = .ok items ∧
    items.Perm ((q.matching t).map rowToDict) ∧
    items.Pairwise fun x y => y.executedAt ≤ x.executedAt

end

theorem isLeast_totalPages (total : ℕ) (size : PageSize) :
    IsLeast { n | total ≤ n * size.val }
      (if total = 0 then 0 else ⌈(total : ℚ) / size.val⌉₊) := by
  have hsize : (0 : ℚ) < size.val := by
    have := size.property.1
    positivity
  have hceil : ∀ n, ⌈(total : ℚ) / size.val⌉₊ ≤ n ↔ total ≤ n * size.val := by
    intro n
    rw [Nat.ceil_le, div_le_iff₀ hsize]
    exact_mod_cast Iff.rfl
  split
  · rename_i htotal
    exact ⟨by simp [htotal], fun _ _ => Nat.zero_le _⟩
  · exact ⟨(hceil _).mp le_rfl, fun n hn => (hceil n).mpr hn⟩

theorem totalPages_enough (total : ℕ) (size : PageSize) :
    total ≤ (if total = 0 then 0 else ⌈(total : ℚ) / size.val⌉₊) * size.val :=
  (isLeast_totalPages total size).1

theorem rowToDict_inj {t : TradeTable} {r s : TradeRow} (hr : r ∈ t.rows) (hs : s ∈ t.rows)
    (h : rowToDict r = rowToDict s) : r = s := by
  have hid : r.id = s.id := congrArg TradeItem.id h
  have htime : r.time = s.time := congrArg TradeItem.executedAt h
  exact List.inj_on_of_nodup_map t.unique hr hs (Prod.ext hid htime)

section
variable [Postgres] {q : TradeQuery} {size : PageSize} {t : TradeTable}

def listedRows (orders : ℕ → TradeOrder) (q : TradeQuery) (size : PageSize) (t : TradeTable)
    (n : ℕ) : List TradeRow :=
  Sql.pages size.val (fun p => (orders p).sort (q.matching t)) n

theorem listPages_eq (orders : ℕ → TradeOrder) (hq : q.readable = true) (n : ℕ) :
    listPages orders q size t n = .ok ((listedRows orders q size t n).map rowToDict) := by
  induction n with
  | zero => rfl
  | succ n ih =>
    simp only [listPages, ih, getTrades_eq, hq, if_true, bind, Except.bind, listedRows,
      Sql.pages_succ, List.map_append, Nat.add_sub_cancel]

theorem listing_eq (orders : ℕ → TradeOrder) (hq : q.readable = true) :
    listing orders q size t = .ok ((listedRows orders q size t
      (if (q.matching t).length = 0 then 0
        else ⌈((q.matching t).length : ℚ) / size.val⌉₊)).map rowToDict) := by
  rw [listing, getTrades_eq, if_pos hq]
  exact listPages_eq orders hq _

theorem matching_nodup : (q.matching t).Nodup := (t.unique.of_map tradeKey).filter _

theorem listedRows_arranged (orders : ℕ → TradeOrder) (p : ℕ) :
    Sql.Arranged TradeRow.time (q.matching t) ((orders p).sort (q.matching t)) :=
  (orders p).arranged _

theorem exists_unlisted (hq : q.readable = true)
    (hu : ¬Sql.Untied TradeRow.time (q.matching t) size.val) :
    ∃ orders items, listing orders q size t = .ok items ∧
      ∃ r ∈ q.matching t, rowToDict r ∉ items := by
  obtain ⟨answers, harranged, y, hy, hmissing⟩ :=
    Sql.exists_missing ((Sql.OrderDesc.stable TradeRow.time).arranged (q.matching t))
      matching_nodup (totalPages_enough (q.matching t).length size) hu
  let orders : ℕ → TradeOrder := fun p =>
    (Sql.OrderDesc.stable TradeRow.time).answering (harranged p)
  have horders : (fun p => (orders p).sort (q.matching t)) = answers :=
    funext fun p => Sql.OrderDesc.answering_sort _ (harranged p)
  refine ⟨orders, _, listing_eq orders hq, y, hy, fun hlisted => ?_⟩
  rw [listedRows, horders] at hlisted
  obtain ⟨z, hz, hzy⟩ := List.mem_map.mp hlisted
  have hzrows := Sql.mem_of_mem_pages harranged hz
  obtain rfl := rowToDict_inj (List.mem_of_mem_filter hzrows) (List.mem_of_mem_filter hy) hzy
  exact hmissing hz

theorem listing_perm (orders : ℕ → TradeOrder) (hq : q.readable = true)
    (hu : Sql.Untied TradeRow.time (q.matching t) size.val) :
    ∃ items, listing orders q size t = .ok items ∧
      items.Perm ((q.matching t).map rowToDict) :=
  ⟨_, listing_eq orders hq, (Sql.pages_perm hu (listedRows_arranged orders)
    (totalPages_enough (q.matching t).length size)).map rowToDict⟩

/-- The pages make up the matching trades, whatever the orders, if and only if no trades of one
time lie across the end of a page. -/
theorem getTrades_partition (q : TradeQuery) (size : PageSize) (t : TradeTable) :
    Partitioned q size t ↔
      (q.readable = true → Sql.Untied TradeRow.time (q.matching t) size.val) := by
  constructor
  · intro h hq
    by_contra hu
    obtain ⟨orders, items, hitems, r, hr, hmissing⟩ := exists_unlisted hq hu
    obtain ⟨items', hitems', hperm, -⟩ := h.partition hq orders
    obtain rfl := Except.ok.inj (hitems.symm.trans hitems')
    exact hmissing (hperm.symm.subset (List.mem_map_of_mem hr))
  · intro hu
    refine ⟨fun hq order page => ?_, fun hq order page => ?_, fun hq orders => ?_⟩
    · rw [getTrades_eq, if_neg (by simp [hq])]
      exact ⟨_, rfl⟩
    · rw [getTrades_eq, if_pos hq]
      exact ⟨_, rfl, rfl, isLeast_totalPages _ size⟩
    · obtain ⟨items, hitems, hperm⟩ := listing_perm orders hq (hu hq)
      refine ⟨items, hitems, hperm, ?_⟩
      obtain rfl := Except.ok.inj ((listing_eq orders hq).symm.trans hitems)
      exact List.pairwise_map.mpr (Sql.pages_sorted (listedRows_arranged orders) _)

end

@[reducible] def noCasts : Postgres := ⟨fun _ => none⟩

def anyTrade : TradeQuery := ⟨none, none, none, none, none⟩

def batchTrade (id : String) (time : ℚ) : TradeRow :=
  ⟨time, id, "o-" ++ id, "BTC/USDT", "bybit", "binance", 100, 101, 1, 0, 0, 0, 0, 1, 1,
    "completed", time, some 5⟩

def tiedTrades : TradeTable :=
  ⟨[batchTrade "a" (1767225600123 / 1000), batchTrade "b" (1767225600123 / 1000)], by decide⟩

def turnedOrders (p : ℕ) : TradeOrder :=
  (Sql.OrderDesc.stable TradeRow.time).answering
    (show Sql.Arranged TradeRow.time tiedTrades.rows
        (if p = 0 then tiedTrades.rows else tiedTrades.rows.reverse) by
      split
      · exact ⟨.refl _, by decide +kernel⟩
      · exact ⟨List.reverse_perm _, by decide +kernel⟩)

/-- At one trade a page the first trade is on both pages, the second on none. -/
theorem getTrades_tied : ¬@Partitioned noCasts anyTrade ⟨1, by decide⟩ tiedTrades := by
  intro h
  obtain ⟨items, hitems, hperm, -⟩ := @Partitioned.partition noCasts _ _ _ h rfl turnedOrders
  have htwice : @listing noCasts turnedOrders anyTrade ⟨1, by decide⟩ tiedTrades =
      .ok [rowToDict (batchTrade "a" (1767225600123 / 1000)),
        rowToDict (batchTrade "a" (1767225600123 / 1000))] := by
    decide +kernel
  rw [htwice] at hitems
  obtain rfl := Except.ok.inj hitems
  revert hperm
  decide +kernel

end CriptoParser
