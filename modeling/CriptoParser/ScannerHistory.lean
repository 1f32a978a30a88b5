import CriptoParser.ScannerLoop
import CriptoParser.ServiceRuns

set_option autoImplicit false

namespace CriptoParser

open Await Streams Expiry

inductive ScanMark where
  | checked (opp : Opportunity) (created : Bool)
  | published (fields : Fields)
  | stored (rows : List OpportunityRow)

/-- What an event adds, where `asked` is the opportunity put to the dedup. -/
def markOf (asked : Option Opportunity) (w : World) (e : Event Service) : Option ScanMark :=
  if carriedOut e then
    match e.call, asked with
    | .setNxEx key _, some opp => some (.checked opp (!held w.expiring key w.now.clock))
    | .xadd stream fields, _ =>
      if stream = opportunitiesStream then some (.published fields) else none
    | .copyOpportunities rows, _ => some (.stored rows)
    | _, _ => none
  else none

def nextAsked (asked : Option Opportunity) : Call → Option Opportunity
  | .note (.checking opp) => some opp
  | .setNxEx _ _ => none
  | _ => asked

/-- The marks of a run from `w`, each at the instant of its call. -/
def history : Option Opportunity → World → List (Event Service) → List (ℚ × ScanMark)
  | _, _, [] => []
  | asked, w, e :: es =>
    (markOf asked w e).toList.map (Prod.mk w.now.clock) ++
      history (nextAsked asked e.call) (World.serve e.call w).2 es

def askedAfter (asked : Option Opportunity) (es : List (Event Service)) : Option Opportunity :=
  es.foldl (fun a e => nextAsked a e.call) asked

theorem askedAfter_append (asked : Option Opportunity) (es fs : List (Event Service)) :
    askedAfter asked (es ++ fs) = askedAfter (askedAfter asked es) fs := List.foldl_append ..

theorem history_append {asked : Option Opportunity} {w m : World} {es : List (Event Service)}
    (h : Follows World.serve w es m) (fs : List (Event Service)) :
    history asked w (es ++ fs) = history asked w es ++ history (askedAfter asked es) m fs := by
  induction es generalizing asked w with
  | nil =>
    cases h
    rfl
  | cons e es ih =>
    obtain ⟨-, h⟩ := h
    rw [List.cons_append, history, history, ih h, List.append_assoc]
    rfl

def Call.marksScan : Call → Bool
  | .note (.checking _) | .setNxEx _ _ | .xadd _ _ | .copyOpportunities _ => true
  | _ => false

theorem nextAsked_silent (asked : Option Opportunity) {c : Call} (hc : c.marksScan = false) :
    nextAsked asked c = asked := by
  cases c with
  | note n => cases n <;> first | rfl | cases hc
  | setNxEx key ttl => cases hc
  | _ => rfl

theorem markOf_silent (asked : Option Opportunity) (w : World) {e : Event Service}
    (he : e.call.marksScan = false) : markOf asked w e = none := by
  obtain ⟨c, a⟩ := e
  cases c with
  | setNxEx key ttl => cases he
  | xadd stream fields => cases he
  | copyOpportunities rows => cases he
  | _ => exact ite_self none

theorem history_silent {asked : Option Opportunity} {es : List (Event Service)}
    (hes : ∀ e ∈ es, e.call.marksScan = false) (w : World) :
    history asked w es = [] ∧ askedAfter asked es = asked := by
  induction es generalizing w with
  | nil => exact ⟨rfl, rfl⟩
  | cons e es ih =>
    obtain ⟨hrest, hafter⟩ := ih (fun d hd => hes d (List.mem_cons_of_mem _ hd))
      (World.serve e.call w).2
    have he := hes e List.mem_cons_self
    rw [history, markOf_silent asked w he, askedAfter, List.foldl_cons, nextAsked_silent asked he]
    exact ⟨hrest, hafter⟩

/-- The opportunities whose key was created, each at the instant of its check. -/
def passes (h : List (ℚ × ScanMark)) : List (ℚ × Opportunity) :=
  h.filterMap fun m =>
    match m.2 with
    | .checked opp true => some (m.1, opp)
    | _ => none

def publications (h : List (ℚ × ScanMark)) : List Fields :=
  h.filterMap fun m =>
    match m.2 with
    | .published fields => some fields
    | _ => none

def storedRows (h : List (ℚ × ScanMark)) : List OpportunityRow :=
  h.flatMap fun m =>
    match m.2 with
    | .stored rows => rows
    | _ => []

section Append
variable (h h' : List (ℚ × ScanMark))

@[simp] theorem passes_append : passes (h ++ h') = passes h ++ passes h' :=
  List.filterMap_append ..

@[simp] theorem publications_append :
    publications (h ++ h') = publications h ++ publications h' := List.filterMap_append ..

@[simp] theorem storedRows_append : storedRows (h ++ h') = storedRows h ++ storedRows h' :=
  List.flatMap_append

end Append

end CriptoParser
