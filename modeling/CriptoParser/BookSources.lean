import CriptoParser.AwaitParts
import CriptoParser.CollectorFeed
import CriptoParser.ExecutorLedger
import CriptoParser.QuoteAges
import CriptoParser.RouteThrottle

/-!
What each program makes its own output of. A collector's task publishes the books it was handed;
the scanner puts quotes it has read into its table and publishes opportunities priced from that
table and the depths; the executor writes trades that fill an opportunity it has read.
-/

set_option autoImplicit false

namespace CriptoParser

open Await Streams

section
variable [PyText]

def Handling.AtHand (log : List (Event Sockets)) : Handling → Prop
  | .idle => True
  | .received symbol book | .timed symbol book _ | .ticked symbol book _ =>
    (symbol, book) ∈ log.filterMap bookFor

omit [PyText] in
theorem Handling.AtHand.mono {log log' : List (Event Sockets)} {q : Handling} (h : q.AtHand log)
    (hlog : log ⊆ log') : q.AtHand log' := by
  have hbooks : ∀ p ∈ log.filterMap bookFor, p ∈ log'.filterMap bookFor := by
    intro p hp
    obtain ⟨e, he, hbook⟩ := List.mem_filterMap.mp hp
    exact List.mem_filterMap.mpr ⟨e, hlog he, hbook⟩
  cases q with
  | idle => trivial
  | received s b => exact hbooks _ h
  | timed s b now => exact hbooks _ h
  | ticked s b now => exact hbooks _ h

omit [PyText] in
theorem Handling.AtHand.step {log : List (Event Sockets)} {q : Handling} (h : q.AtHand log)
    (e : Event Sockets) : (q.step e).AtHand (log ++ [e]) := by
  have hkept : q.AtHand (log ++ [e]) := h.mono (List.subset_append_left _ _)
  unfold Handling.step
  split
  · rename_i s b hbook
    exact List.mem_filterMap.mpr ⟨e, by simp, hbook⟩
  · split
    · exact hkept
    · exact hkept
    · trivial
    · trivial
    · exact hkept

variable {can : (c : Call) → Except PyExc c.Reply → Prop}

def ReadOpportunity (before : List (Event Service)) (opp : Opportunity) : Prop :=
  ∃ resp r entry, ⟨.xreadgroup executorGroup [opportunitiesStream] 100, .ok resp⟩ ∈ before ∧
    r ∈ resp ∧ entry ∈ r.2 ∧ Opportunity.fromRedis entry.payload = .ok opp

def FillsOpportunity (before : List (Event Service)) (opp : Opportunity) (trade : Trade) : Prop :=
  ∃ t keys raws notional f now uuid durationMs, ⟨.time, .ok t⟩ ∈ before ∧
    ⟨.mget keys, .ok raws⟩ ∈ before ∧ fillAt opp t raws notional = .ok (some f) ∧
    trade = f.trade opp now uuid durationMs

def Executed (before : List (Event Service)) (trade : Trade) : Prop :=
  ∃ opp, ReadOpportunity before opp ∧ FillsOpportunity before opp trade

theorem ReadOpportunity.mono {log log' : List (Event Service)} {opp : Opportunity}
    (h : ReadOpportunity log opp) (hlog : log ⊆ log') : ReadOpportunity log' opp := by
  obtain ⟨resp, r, entry, hread, hrest⟩ := h
  exact ⟨resp, r, entry, hlog hread, hrest⟩

theorem FillsOpportunity.mono {log log' : List (Event Service)} {opp : Opportunity} {trade : Trade}
    (h : FillsOpportunity log opp trade) (hlog : log ⊆ log') : FillsOpportunity log' opp trade := by
  obtain ⟨t, keys, raws, notional, f, now, uuid, durationMs, ht, hraws, hrest⟩ := h
  exact ⟨t, keys, raws, notional, f, now, uuid, durationMs, hlog ht, hlog hraws, hrest⟩

theorem Executed.mono {log log' : List (Event Service)} {trade : Trade} (h : Executed log trade)
    (hlog : log ⊆ log') : Executed log' trade := by
  obtain ⟨opp, hread, hfills⟩ := h
  exact ⟨opp, hread.mono hlog, hfills.mono hlog⟩

end

end CriptoParser
