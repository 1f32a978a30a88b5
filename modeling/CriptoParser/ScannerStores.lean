import CriptoParser.OpportunityDedup

/-!
The three stores of the scanner: the dedup keys an iteration creates, the entries it publishes
and the rows it stores. An iteration that raises in between leaves them apart: nothing is rolled
back, and nothing is made up for later.
-/

set_option autoImplicit false

namespace CriptoParser

open Await Streams Expiry

def ScanMark.leftBy : ScanMark → Call → Prop
  | .checked _ _, c => ∃ key t, c = .setNxEx key t
  | .published _, c => ∃ stream fields, c = .xadd stream fields
  | .stored _, c => ∃ rows, c = .copyOpportunities rows

def ScanMark.refuses : ScanMark → Bool
  | .checked _ created => !created
  | _ => false

theorem markOf_leftBy {asked : Option Opportunity} {w : World} {e : Event Service} {m : ScanMark}
    (h : markOf asked w e = some m) : m.leftBy e.call := by
  unfold markOf at h
  split at h
  · split at h
    · rename_i key t opp hcall
      obtain rfl := Option.some.inj h
      exact ⟨key, t, hcall⟩
    · rename_i stream fields hcall
      split at h
      · obtain rfl := Option.some.inj h
        exact ⟨stream, fields, hcall⟩
      · cases h
    · rename_i rows hcall
      obtain rfl := Option.some.inj h
      exact ⟨rows, hcall⟩
    · cases h
  · cases h

theorem history_leftBy {asked : Option Opportunity} {w : World} {es : List (Event Service)}
    {m : ℚ × ScanMark} (hm : m ∈ history asked w es) : ∃ e ∈ es, m.2.leftBy e.call := by
  induction es generalizing asked w with
  | nil => cases hm
  | cons e es ih =>
    rcases List.mem_append.mp hm with hm | hm
    · obtain ⟨mark, hmark, rfl⟩ := List.mem_map.mp hm
      exact ⟨e, List.mem_cons_self, markOf_leftBy (Option.mem_toList.mp hmark)⟩
    · obtain ⟨d, hd, hleft⟩ := ih hm
      exact ⟨d, List.mem_cons_of_mem _ hd, hleft⟩

section Nil
variable {asked : Option Opportunity} {w : World} {es : List (Event Service)}

theorem passes_nil (h : ∀ e ∈ es, ∀ key t, e.call ≠ .setNxEx key t) :
    passes (history asked w es) = [] := by
  refine List.filterMap_eq_nil_iff.mpr fun m hm => ?_
  obtain ⟨e, he, hleft⟩ := history_leftBy hm
  obtain ⟨t, mark⟩ := m
  cases mark with
  | checked opp created =>
    obtain ⟨key, t, hcall⟩ := hleft
    exact absurd hcall (h e he key t)
  | published fields => rfl
  | stored rows => rfl

theorem publications_nil (h : ∀ e ∈ es, ∀ stream fields, e.call ≠ .xadd stream fields) :
    publications (history asked w es) = [] := by
  refine List.filterMap_eq_nil_iff.mpr fun m hm => ?_
  obtain ⟨e, he, hleft⟩ := history_leftBy hm
  obtain ⟨t, mark⟩ := m
  cases mark with
  | published fields =>
    obtain ⟨stream, f, hcall⟩ := hleft
    exact absurd hcall (h e he stream f)
  | checked opp created => rfl
  | stored rows => rfl

theorem storedRows_nil (h : ∀ e ∈ es, ∀ rows, e.call ≠ .copyOpportunities rows) :
    storedRows (history asked w es) = [] := by
  refine List.flatMap_eq_nil_iff.mpr fun m hm => ?_
  obtain ⟨e, he, hleft⟩ := history_leftBy hm
  obtain ⟨t, mark⟩ := m
  cases mark with
  | stored rows =>
    obtain ⟨rows', hcall⟩ := hleft
    exact absurd hcall (h e he rows')
  | checked opp created => rfl
  | published fields => rfl

end Nil

def Call.unpublished : Call → Prop
  | .xadd _ _ | .copyOpportunities _ | .xack _ _ _ => False
  | _ => True

theorem Call.scans.unpublished {c : Call} (h : c.scans) : c.unpublished := by
  cases c <;> trivial

theorem unpublished_nil {asked : Option Opportunity} {w : World} {es : List (Event Service)}
    (h : ∀ e ∈ es, e.call.unpublished) :
    publications (history asked w es) = [] ∧ storedRows (history asked w es) = [] := by
  constructor
  · refine publications_nil fun e he stream fields hcall => ?_
    have hun := h e he
    rw [hcall] at hun
    exact hun
  · refine storedRows_nil fun e he rows hcall => ?_
    have hun := h e he
    rw [hcall] at hun
    exact hun

theorem history_copy (m : World) (rows : List OpportunityRow) (v : Except PyExc Unit) :
    history none m [⟨.copyOpportunities rows, v⟩] =
      if carriedOut ⟨.copyOpportunities rows, v⟩ then [(m.now.clock, .stored rows)] else [] := by
  cases hc : carriedOut ⟨.copyOpportunities rows, v⟩ <;> simp [history, markOf, hc]

/-- The call of an iteration after which its stores are settled: the `COPY` if it was carried
out, and the `XACK`. -/
def settlesLast : Event Service → Prop
  | ⟨.copyOpportunities _, .error x⟩ => x.served = true
  | ⟨.xack _ _ _, _⟩ => True
  | _ => False

theorem settlesLast_published {e : Event Service} (h : settlesLast e) : ¬e.call.unpublished := by
  obtain ⟨c, v⟩ := e
  intro hun
  cases c <;> first | exact h.elim | exact hun.elim

/-- A part of a run in which each claim is for the opportunity put to the dedup before it. -/
def AsksKeyed (ttl : ℚ) (es : List (Event Service)) : Prop :=
  (keyed ttl).Accepts none es ∧ askedAfter none es = none

theorem AsksKeyed.append {ttl : ℚ} {es fs : List (Event Service)} (h : AsksKeyed ttl es)
    (h' : AsksKeyed ttl fs) : AsksKeyed ttl (es ++ fs) := by
  refine ⟨((keyed ttl).accepts_append _ _ _).mpr ⟨h.1, ?_⟩, ?_⟩
  · change (keyed ttl).Accepts (askedAfter none es) fs
    rw [h.2]
    exact h'.1
  · rw [askedAfter_append, h.2, h'.2]

theorem asksKeyed_silent {ttl : ℚ} {es : List (Event Service)}
    (h : ∀ e ∈ es, e.call.marksScan = false) : AsksKeyed ttl es :=
  ⟨keyed_silent h, (history_silent h (World.start default)).2⟩

def ClaimsKeyed {α : Type} (ttl : ℚ) (p : Task α) : Prop :=
  ∀ es r, Prog.Answered Call.isLocal es → p.Ends es r → AsksKeyed ttl es

theorem ClaimsKeyed.bind {α β : Type} {ttl : ℚ} {p : Task α} {f : α → Task β}
    (hp : ClaimsKeyed ttl p) (hf : ∀ a, ClaimsKeyed ttl (f a)) : ClaimsKeyed ttl (p >>= f) := by
  intro es r hl h
  rw [Prog.bind_eq, Prog.ends_bind] at h
  rcases h with ⟨a, es₁, es₂, rfl, h₁, h₂⟩ | ⟨x, h₁, -⟩
  · obtain ⟨hl₁, hl₂⟩ := (Prog.answered_append _ _ _).mp hl
    exact (hp es₁ _ hl₁ h₁).append (hf a es₂ r hl₂ h₂)
  · exact hp es _ hl h₁

theorem ClaimsKeyed.of_uses {α : Type} {ttl : ℚ} {p : Task α}
    (h : p.Uses fun c => Call.marksScan c = false) : ClaimsKeyed ttl p :=
  fun _ _ _ hp => asksKeyed_silent (h.ends hp)

theorem isNew_claimsKeyed (ttl : ℚ) (opp : Opportunity) : ClaimsKeyed ttl (isNew ttl opp) := by
  intro es r hl h
  obtain ⟨u, es', rfl, h', -⟩ := hl.call_bind h rfl
  obtain ⟨v, es'', rfl, rfl, -⟩ := h'
  exact ⟨⟨trivial, ⟨opp, rfl, rfl, rfl⟩, trivial⟩, rfl⟩

theorem claimNew_claimsKeyed (ttl : ℚ) (opps : List Opportunity) :
    ClaimsKeyed ttl (claimNew ttl opps) := by
  induction opps with
  | nil => exact .of_uses (Prog.uses_pure _)
  | cons opp rest ih =>
    exact (isNew_claimsKeyed ttl opp).bind fun new => ih.bind fun more =>
      .of_uses (Prog.uses_pure _)

theorem loopPass_trace (body : Task Unit) (w : World) :
    ∃ sleeps, (loopPass body).trace World.serve w = body.trace World.serve w ++ sleeps ∧
      ∀ e ∈ sleeps, e.call = .sleep 1 := by
  rw [loopPass, Prog.trace_handle]
  cases (body.run World.serve w).1 with
  | ok a => exact ⟨[], by simp, by simp⟩
  | error x => exact ⟨_, rfl, loopHandler_ends (Prog.ends_trace World.serve (loopHandler x) _)⟩

section
variable [PyText]

/-- The opportunities whose key was created are those published and those stored. -/
structure StoresAgree (h : List (ℚ × ScanMark)) : Prop where
  published : ∀ fields,
    fields ∈ publications h ↔ fields ∈ ((passes h).map Prod.snd).map Opportunity.toRedis
  stored : ∀ row,
    row ∈ storedRows h ↔ row ∈ ((passes h).map Prod.snd).map opportunityRecord

theorem settled_unstored {h : List (ℚ × ScanMark)} (hp : publications h = [] ∨ passes h ≠ [])
    (hs : storedRows h = []) : StoresAgree h ↔ passes h = [] := by
  constructor
  · intro hsettled
    by_contra hne
    obtain ⟨p, hmem⟩ := List.exists_mem_of_ne_nil _ hne
    have hrow : opportunityRecord p.2 ∈ storedRows h := by
      rw [hsettled.stored]
      exact List.mem_map_of_mem (List.mem_map_of_mem hmem)
    rw [hs] at hrow
    cases hrow
  · intro hnil
    have hpub : publications h = [] := hp.resolve_right fun hne => hne hnil
    exact ⟨by simp [hpub, hnil], by simp [hs, hnil]⟩

/-- The iteration from `w` raises nothing; or it raises before it creates a key; or what raises is
its `COPY`, carried out all the same, or comes after it. -/
def RaisesOutside (ttl : ℚ) (w : World) : Prop :=
  ((scanOnce ttl).run World.serve w).1 = .ok () ∨
    passes (history none w ((scanOnce ttl).trace World.serve w)) = [] ∨
    ∃ fs e, (scanOnce ttl).trace World.serve w = fs ++ [e] ∧ settlesLast e

theorem scanBatch_unpublished (ttl : ℚ) (entries : List (Entry Fields)) :
    (scanBatch ttl entries).Uses Call.unpublished :=
  scanBatch_uses ttl entries (fun _ _ _ => trivial) fun _ hc => hc.unpublished

structure ScanRaises (es : List (Event Service)) (r : Except PyExc Unit) : Prop where
  raised : r ≠ .ok ()
  unpublished : ∀ e ∈ es, e.call.unpublished

structure ScanFinds (w m w' : World) (fs gs : List (Event Service)) (found : List Opportunity)
    (entries : List (Entry Fields)) (r : Except PyExc Unit) : Prop where
  follows : Follows World.serve w fs m
  settles : Follows World.serve m gs w'
  unpublished : ∀ e ∈ fs, e.call.unpublished
  passes : (passes (history none w fs)).map Prod.snd = found
  asked : askedAfter none fs = none
  ends : (settleScan entries found).Ends gs r

theorem scanOnce_parts {ttl : ℚ} {es : List (Event Service)} {r : Except PyExc Unit}
    {w w' : World} (h : (scanOnce ttl).Ends es r) (hf : Follows World.serve w es w')
    (hw : w.BooksKeyed) :
    ScanRaises es r ∨ ∃ fs gs m found entries, es = fs ++ gs ∧
      ScanFinds w m w' fs gs found entries r := by
  rcases (Prog.ends_call_bind _ _ _ _).mp h with ⟨resp, es', rfl, hrest⟩ | ⟨x, rfl, rfl⟩
  · cases resp with
    | nil =>
      obtain ⟨rfl, rfl⟩ := (Prog.ends_pure _ _ _).mp hrest
      refine .inr ⟨[⟨.xreadgroup scannerGroup [pricesStream] 300, .ok []⟩], [], w', [], [], rfl,
        hf, rfl, ?_, rfl, rfl, rfl, rfl⟩
      simp [Call.unpublished]
    | cons read rest =>
      change (scanTicks ttl read.2).Ends es' r at hrest
      rw [scanTicks, Prog.bind_eq, Prog.ends_bind] at hrest
      rcases hrest with ⟨found, fs, gs, rfl, hscan, hsettle⟩ | ⟨x, hscan, rfl⟩
      · obtain ⟨m, hfs, hgs⟩ := (follows_append _ _ _ _ _).mp hf.2
        have hgoes := (scanBatch_straight ttl read.2).goes_ok hscan
        obtain ⟨opps, hchecks, -⟩ := scanBatch_checks hgoes hfs (serve_booksKeyed _ hw)
        refine .inr ⟨⟨.xreadgroup scannerGroup [pricesStream] 300, .ok (read :: rest)⟩ :: fs, gs,
          m, found, read.2, rfl, ⟨hf.1, hfs⟩, hgs, ?_, ?_, ?_, hsettle⟩
        · intro e he
          rcases List.mem_cons.mp he with rfl | he
          · trivial
          · exact (scanBatch_unpublished ttl read.2).ends hscan e he
        · rw [history, markOf_silent none w rfl, nextAsked_silent none rfl]
          exact hchecks.checked.passes_eq
        · exact hchecks.asked
      · refine .inl ⟨fun hr => (by cases hr), fun e he => ?_⟩
        rcases List.mem_cons.mp he with rfl | he
        · trivial
        · exact (scanBatch_unpublished ttl read.2).ends hscan e he
  · exact .inl ⟨fun hr => (by cases hr), by simp [Call.unpublished]⟩

inductive Settling (found : List Opportunity) :
    List (Event Service) → Except PyExc Unit → Prop
  | unpublished {gs : List (Event Service)} {x : PyExc}
      (h : (publishOpportunities found).Ends gs (.error x)) : Settling found gs (.error x)
  | uncopied {gs : List (Event Service)} (x : PyExc)
      (h : (publishOpportunities found).Goes gs (.ok ())) :
      Settling found (gs ++ [⟨.copyOpportunities (found.map opportunityRecord), .error x⟩])
        (.error x)
  | copied {gs : List (Event Service)} (u : Unit)
      (h : (publishOpportunities found).Goes gs (.ok ())) :
      Settling found (gs ++ [⟨.copyOpportunities (found.map opportunityRecord), .ok u⟩]) (.ok ())
  | acked {gs : List (Event Service)} (u : Unit) {e : Event Service} {r : Except PyExc Unit}
      (h : (publishOpportunities found).Goes gs (.ok ()))
      (hcall : ∃ stream group ids, e.call = .xack stream group ids) :
      Settling found
        (gs ++ [⟨.copyOpportunities (found.map opportunityRecord), .ok u⟩] ++ [e]) r

theorem settleScan_settling {entries : List (Entry Fields)} {found : List Opportunity}
    (hne : found ≠ []) {gs : List (Event Service)} {r : Except PyExc Unit}
    (h : (settleScan entries found).Ends gs r) : Settling found gs r := by
  have hsome : (!found.isEmpty) = true := by
    cases found with
    | nil => exact absurd rfl hne
    | cons opp rest => rfl
  rw [settleScan, hsome, Prog.bind_eq, Prog.ends_bind] at h
  have hstore : ∀ {es : List (Event Service)} {q : Except PyExc Unit},
      (publishAndStore found).Ends es q → ∃ es₁, 
        ((publishOpportunities found).Goes es₁ (.ok ()) ∧
          es = es₁ ++ [⟨.copyOpportunities (found.map opportunityRecord), q⟩]) ∨
        ∃ x, q = .error x ∧ (publishOpportunities found).Ends es (.error x) := by
    intro es q hq
    rw [publishAndStore, Prog.bind_eq, Prog.ends_bind] at hq
    rcases hq with ⟨u, es₁, es₂, rfl, h₁, h₂⟩ | ⟨x, h₁, rfl⟩
    · obtain ⟨v, es', rfl, rfl, rfl⟩ := h₂
      exact ⟨es₁, .inl ⟨(publishOpportunities_straight _).goes_ok h₁, rfl⟩⟩
    · exact ⟨[], .inr ⟨x, rfl, h₁⟩⟩
  rcases h with ⟨u, es₁, es₂, rfl, h₁, h₂⟩ | ⟨x, h₁, rfl⟩
  · obtain ⟨gs, ⟨hgoes, rfl⟩ | ⟨x, hx, -⟩⟩ := hstore h₁
    · rcases (ends_awaitIf _ _ _ _).mp h₂ with ⟨-, v, es', rfl, rfl, -⟩ | ⟨-, rfl, rfl⟩
      · exact .acked u hgoes ⟨_, _, _, rfl⟩
      · rw [List.append_nil]
        exact .copied u hgoes
    · cases hx
  · obtain ⟨gs, ⟨hgoes, rfl⟩ | ⟨y, hy, hends⟩⟩ := hstore h₁
    · exact .uncopied x hgoes
    · obtain rfl := Except.error.inj hy
      exact .unpublished hends

theorem history_stored {found : List Opportunity} {gs : List (Event Service)}
    (h : (publishOpportunities found).Goes gs (.ok ())) {m w' : World} {v : Except PyExc Unit}
    (hf : Follows World.serve m
      (gs ++ [⟨.copyOpportunities (found.map opportunityRecord), v⟩]) w') :
    publications (history none m
        (gs ++ [⟨.copyOpportunities (found.map opportunityRecord), v⟩])) =
      found.map Opportunity.toRedis ∧
    storedRows (history none m
        (gs ++ [⟨.copyOpportunities (found.map opportunityRecord), v⟩])) =
      if carriedOut ⟨.copyOpportunities (found.map opportunityRecord), v⟩ then
        found.map opportunityRecord else [] := by
  obtain ⟨m', hgs, -⟩ := (follows_append _ _ _ _ _).mp hf
  obtain ⟨hentries, hrows, -, hasked⟩ := publishOpportunities_goes (w := m) h
  rw [history_append hgs, hasked, history_copy, publications_append, storedRows_append, hentries,
    hrows]
  split
  · exact ⟨List.append_nil _, by simp [storedRows]⟩
  · exact ⟨List.append_nil _, rfl⟩

theorem Settling.marks {found : List Opportunity} {gs : List (Event Service)}
    {r : Except PyExc Unit} (h : Settling found gs r) {m w' : World}
    (hf : Follows World.serve m gs w') :
    storedRows (history none m gs) = [] ∧ r ≠ .ok () ∧
        (∀ fs e, gs = fs ++ [e] → ¬settlesLast e) ∨
      publications (history none m gs) = found.map Opportunity.toRedis ∧
        storedRows (history none m gs) = found.map opportunityRecord ∧
        (r = .ok () ∨ ∃ fs e, gs = fs ++ [e] ∧ settlesLast e) := by
  cases h with
  | unpublished h =>
    have hadds := publishOpportunities_adds h
    refine .inl ⟨storedRows_nil fun e he rows hcall => ?_, nofun, fun fs e heq hlast => ?_⟩
    · obtain ⟨opp, -, hadd⟩ := hadds e he
      rw [hcall] at hadd
      cases hadd
    · obtain ⟨opp, -, hadd⟩ := hadds e (by simp [heq])
      obtain ⟨c, v⟩ := e
      cases hadd
      exact hlast
  | uncopied x h =>
    obtain ⟨hentries, hrows⟩ := history_stored h hf
    have hcarried : carriedOut ⟨.copyOpportunities (found.map opportunityRecord), .error x⟩ =
        x.served := rfl
    cases hserved : x.served with
    | true =>
      refine .inr ⟨hentries, ?_, .inr ⟨_, _, rfl, hserved⟩⟩
      rw [hrows, hcarried, hserved, if_pos rfl]
    | false =>
      refine .inl ⟨?_, nofun, fun fs e heq hlast => ?_⟩
      · rw [hrows, hcarried, hserved, if_neg Bool.false_ne_true]
      · obtain ⟨-, rfl⟩ := List.append_singleton_inj.mp heq
        have hlast' : x.served = true := hlast
        rw [hserved] at hlast'
        cases hlast'
  | copied u h =>
    obtain ⟨hentries, hrows⟩ := history_stored h hf
    exact .inr ⟨hentries, hrows, .inl rfl⟩
  | acked u h hcall =>
    rename_i hs e
    obtain ⟨stream, group, ids, hcall⟩ := hcall
    obtain ⟨m', hstored, -⟩ := (follows_append _ _ _ _ _).mp hf
    obtain ⟨hentries, hrows⟩ := history_stored h hstored
    have hack : ∀ asked, history asked m' [e] = [] := by
      intro asked
      refine (history_silent (fun d hd => ?_) m').1
      rw [List.mem_singleton.mp hd, hcall]
      rfl
    rw [history_append hstored, hack, List.append_nil]
    refine .inr ⟨hentries, hrows, .inr ⟨_, e, rfl, ?_⟩⟩
    obtain ⟨c, v⟩ := e
    cases hcall
    trivial

theorem settleScan_silent {entries : List (Entry Fields)} {gs : List (Event Service)}
    {r : Except PyExc Unit} (h : (settleScan entries []).Ends gs r) :
    ∀ e ∈ gs, e.call.marksScan = false := by
  rcases (ends_awaitIf _ _ _ _).mp h with ⟨-, v, es', rfl, rfl, -⟩ | ⟨-, rfl, -⟩
  · simp [Call.marksScan]
  · simp

/-- The three stores of an iteration are the same set exactly if nothing is raised between the
first key it creates and the end of its `COPY`. -/
theorem settled_iff (ttl : ℚ) (w : World) (hw : w.BooksKeyed) :
    StoresAgree (history none w ((scanOnce ttl).trace World.serve w)) ↔ RaisesOutside ttl w := by
  have hends := (scanOnce ttl).ends_trace World.serve w
  have hf := (scanOnce ttl).follows_trace World.serve w
  unfold RaisesOutside
  generalize ((scanOnce ttl).run World.serve w).1 = r at *
  generalize ((scanOnce ttl).run World.serve w).2 = w' at *
  generalize (scanOnce ttl).trace World.serve w = es at *
  rcases scanOnce_parts hends hf hw with hraises | ⟨fs, gs, m, found, entries, rfl, hfinds⟩
  · obtain ⟨hpub, hstored⟩ := @unpublished_nil none w es hraises.unpublished
    rw [settled_unstored (.inl hpub) hstored]
    constructor
    · exact fun hnil => .inr (.inl hnil)
    · rintro (hok | hnil | ⟨fs, e, rfl, hlast⟩)
      · exact (hraises.raised hok).elim
      · exact hnil
      · exact (settlesLast_published hlast (hraises.unpublished e (by simp))).elim
  · obtain ⟨hpub, hstored⟩ := @unpublished_nil none w fs hfinds.unpublished
    have hgs := (settleScan_uses entries found).ends hfinds.ends
    have hnone : passes (history (askedAfter none fs) m gs) = [] := by
      refine passes_nil fun e he key t hcall => ?_
      have hsettles := hgs e he
      rw [hcall] at hsettles
      cases hsettles
    have hpasses : (passes (history none w (fs ++ gs))).map Prod.snd = found := by
      rw [history_append hfinds.follows, passes_append, hnone, List.append_nil]
      exact hfinds.passes
    have hpubs : publications (history none w (fs ++ gs)) =
        publications (history none m gs) := by
      rw [history_append hfinds.follows, hfinds.asked, publications_append, hpub, List.nil_append]
    have hrows : storedRows (history none w (fs ++ gs)) = storedRows (history none m gs) := by
      rw [history_append hfinds.follows, hfinds.asked, storedRows_append, hstored, List.nil_append]
    by_cases hfound : found = []
    · have hnil : passes (history none w (fs ++ gs)) = [] := by simpa [hfound] using hpasses
      have hends' := hfinds.ends
      rw [hfound] at hends'
      have hsilent := (@history_silent none gs (settleScan_silent hends') m).1
      rw [settled_unstored (.inl (by rw [hpubs, hsilent]; rfl)) (by rw [hrows, hsilent]; rfl)]
      exact ⟨fun _ => .inr (.inl hnil), fun _ => hnil⟩
    · have hne : passes (history none w (fs ++ gs)) ≠ [] := by
        intro hnil
        rw [hnil] at hpasses
        exact hfound hpasses.symm
      rcases (settleScan_settling hfound hfinds.ends).marks hfinds.settles with
        ⟨hunstored, hraised, hlast⟩ | ⟨hentries, hcopied, hout⟩
      · rw [settled_unstored (.inr hne) (by rw [hrows, hunstored])]
        constructor
        · exact fun hnil => (hne hnil).elim
        · rintro (hok | hnil | ⟨hs, e, heq, hsettles⟩)
          · exact (hraised hok).elim
          · exact hnil
          · rcases List.eq_nil_or_concat gs with rfl | ⟨gs', e', rfl⟩
            · rw [List.append_nil] at heq
              exact (settlesLast_published hsettles (hfinds.unpublished e (by simp [heq]))).elim
            · rw [List.concat_eq_append, ← List.append_assoc] at heq
              obtain ⟨-, rfl⟩ := List.append_singleton_inj.mp heq
              exact (hlast gs' e' (List.concat_eq_append ..) hsettles).elim
      · refine ⟨fun _ => ?_, fun _ => ⟨fun fields => ?_, fun row => ?_⟩⟩
        · rcases hout with hok | ⟨hs, e, rfl, hsettles⟩
          · exact .inl hok
          · exact .inr (.inr ⟨fs ++ hs, e, by simp, hsettles⟩)
        · rw [hpubs, hpasses, hentries]
        · rw [hrows, hpasses, hcopied]

theorem scanSymbols_claimsKeyed (ttl : ℚ) (nowMs : ℤ) (symbols : List String) :
    ClaimsKeyed ttl (scanSymbols ttl nowMs symbols) := by
  induction symbols with
  | nil => exact .of_uses (Prog.uses_pure _)
  | cons symbol rest ih =>
    refine ClaimsKeyed.bind ?_ fun found => ih.bind fun more => .of_uses (Prog.uses_pure _)
    refine ClaimsKeyed.bind (.of_uses ((Prog.uses_call (S := Service) _).mpr rfl)) fun book => ?_
    refine ClaimsKeyed.bind (.of_uses (readDepths_silent symbol book)) fun raws => ?_
    refine ClaimsKeyed.bind (.of_uses (Prog.uses_lift _)) fun depth => ?_
    refine ClaimsKeyed.bind (.of_uses ((Prog.uses_call (S := Service) _).mpr rfl)) fun chosen => ?_
    refine ClaimsKeyed.bind (.of_uses ((Prog.uses_call (S := Service) _).mpr rfl)) fun now => ?_
    exact ClaimsKeyed.bind (.of_uses (Prog.uses_lift _)) fun opps => claimNew_claimsKeyed ttl opps

theorem scanOnce_claimsKeyed (ttl : ℚ) : ClaimsKeyed ttl (scanOnce ttl) := by
  refine ClaimsKeyed.bind (.of_uses ((Prog.uses_call (S := Service) _).mpr rfl)) fun resp => ?_
  cases resp with
  | nil => exact .of_uses (Prog.uses_pure _)
  | cons read rest =>
    refine ClaimsKeyed.bind ?_ fun found es r _ h =>
      keyed_settles ((settleScan_uses read.2 found).ends h)
    refine ClaimsKeyed.bind (.of_uses (readTicks_silent read.2 [])) fun updated => ?_
    refine ClaimsKeyed.bind (.of_uses ((Prog.uses_call (S := Service) _).mpr rfl)) fun now => ?_
    exact ClaimsKeyed.bind (.of_uses ((Prog.uses_call (S := Service) _).mpr rfl)) fun symbols =>
      scanSymbols_claimsKeyed ttl _ symbols

/-- No iteration of a run raises between its first key and the end of its `COPY`. -/
def SafeScans (ttl : ℚ) : ℕ → World → Prop
  | 0, _ => True
  | n + 1, w =>
    RaisesOutside ttl w ∧
      (((loopPass (scanOnce ttl)).run World.serve w).1 = .ok () →
        SafeScans ttl n ((loopPass (scanOnce ttl)).run World.serve w).2)

theorem StoresAgree.append {h h' : List (ℚ × ScanMark)} (hs : StoresAgree h) (hs' : StoresAgree h') :
    StoresAgree (h ++ h') := by
  constructor
  · intro fields
    simp [hs.published, hs'.published]
  · intro row
    simp [hs.stored, hs'.stored]

theorem loopPass_settled {ttl : ℚ} {w : World} (hw : w.BooksKeyed) (h : RaisesOutside ttl w) :
    StoresAgree (history none w ((loopPass (scanOnce ttl)).trace World.serve w)) ∧
      AsksKeyed ttl ((loopPass (scanOnce ttl)).trace World.serve w) := by
  obtain ⟨sleeps, htrace, hsleeps⟩ := loopPass_trace (scanOnce ttl) w
  have hf := (scanOnce ttl).follows_trace World.serve w
  have hasks := scanOnce_claimsKeyed ttl _ _ (follows_local hf)
    ((scanOnce ttl).ends_trace World.serve w)
  have hsilent : ∀ e ∈ sleeps, e.call.marksScan = false := by
    intro e he
    rw [hsleeps e he]
    rfl
  rw [htrace]
  refine ⟨?_, hasks.append (asksKeyed_silent hsilent)⟩
  rw [history_append hf, (history_silent hsilent _).1, List.append_nil]
  exact (settled_iff ttl w hw).mpr h

theorem scanLoop_settled {ttl : ℚ} {n : ℕ} {w : World} (hw : w.BooksKeyed)
    (h : SafeScans ttl n w) :
    StoresAgree (history none w ((scanLoop ttl n).trace World.serve w)) ∧
      AsksKeyed ttl ((scanLoop ttl n).trace World.serve w) := by
  induction n generalizing w with
  | zero =>
    refine ⟨?_, trivial, rfl⟩
    change StoresAgree []
    exact ⟨by simp [publications, passes], by simp [storedRows, passes]⟩
  | succ n ih =>
    obtain ⟨hsafe, hrest⟩ := h
    obtain ⟨hsettled, hasks⟩ := loopPass_settled hw hsafe
    have hf := (loopPass (scanOnce ttl)).follows_trace World.serve w
    rw [scanLoop, loopFor, Prog.trace_bind]
    cases hr : ((loopPass (scanOnce ttl)).run World.serve w).1 with
    | error x => exact ⟨hsettled, hasks⟩
    | ok u =>
      obtain ⟨hsettled', hasks'⟩ := ih (follows_booksKeyed hf hw) (hrest hr)
      refine ⟨?_, hasks.append hasks'⟩
      simp only
      rw [history_append hf, hasks.2]
      exact hsettled.append hsettled'

/-- A refusal is due to an opportunity with the same key, let through less than `ttl` before, that
has been published and stored. -/
def Unsuppressed (ttl : ℚ) (h : List (ℚ × ScanMark)) : Prop :=
  ∀ before t opp later, h = before ++ (t, .checked opp false) :: later →
    ∃ p ∈ passes before, dedupKey p.2 = dedupKey opp ∧ t < p.1 + ttl ∧
      p.2.toRedis ∈ publications h ∧ opportunityRecord p.2 ∈ storedRows h

theorem StoresAgree.unsuppressed {ttl : ℚ} {h : List (ℚ × ScanMark)} (hs : StoresAgree h)
    (hexplained : Explained ttl [] h) : Unsuppressed ttl h := by
  intro before t opp later heq
  obtain ⟨p, hp, hkey, hlt⟩ := hexplained before t opp later heq
  rw [List.nil_append] at hp
  have hmem : p.2 ∈ (passes h).map Prod.snd := by
    rw [heq, passes_append]
    exact List.mem_map_of_mem (List.mem_append_left _ hp)
  exact ⟨p, hp, hkey, hlt, (hs.published _).mpr (List.mem_map_of_mem hmem),
    (hs.stored _).mpr (List.mem_map_of_mem hmem)⟩

/-- An iteration claims, publishes and stores the same set exactly if it raises nothing between
its first key and the end of its `COPY`; and a run of such iterations suppresses no opportunity
that was not published. -/
theorem scan_stores_iff (ttl : ℚ) (n : ℕ) (w : World) (hw : w.BooksKeyed)
    (hclock : Monotone fun k => (w.outside k).clock)
    (hfree : ∀ key, held w.expiring key w.now.clock = false) :
    (StoresAgree (history none w ((scanOnce ttl).trace World.serve w)) ↔ RaisesOutside ttl w) ∧
      (SafeScans ttl n w →
        StoresAgree (history none w ((scanLoop ttl n).trace World.serve w)) ∧
          Unsuppressed ttl (history none w ((scanLoop ttl n).trace World.serve w))) := by
  refine ⟨settled_iff ttl w hw, fun hsafe => ?_⟩
  obtain ⟨hsettled, hkeyed, -⟩ := scanLoop_settled hw hsafe
  obtain ⟨-, -, hexplained⟩ := @history_claims ttl none w _ _ [] hclock
    ((scanLoop ttl n).follows_trace World.serve w) hkeyed (tracks_nil hfree) .nil
  exact ⟨hsettled, hsettled.unsuppressed hexplained⟩

theorem unsuppressed_refused {ttl : ℚ} {h : List (ℚ × ScanMark)} (hu : Unsuppressed ttl h)
    (hrefused : h.any (fun m => m.2.refuses) = true) : publications h ≠ [] := by
  obtain ⟨⟨t, mark⟩, hm, hmark⟩ := List.any_eq_true.mp hrefused
  cases mark with
  | checked opp created =>
    cases created with
    | false =>
      obtain ⟨before, later, heq⟩ := List.append_of_mem hm
      obtain ⟨p, -, -, -, hpub, -⟩ := hu before t opp later heq
      exact List.ne_nil_of_mem hpub
    | true => cases hmark
  | published fields => cases hmark
  | stored rows => cases hmark

end

/-- The second iteration finds the opportunity of the first one again: it is suppressed, and it
has been published. -/
theorem scan_stores_iff_twice :
    @StoresAgree quoteText (history none scanWorld
        ((@scanOnce quoteText 5).trace World.serve scanWorld)) ∧
      @Unsuppressed quoteText 5 (history none scanWorld
        ((@scanLoop quoteText 5 2).trace World.serve scanWorld)) := by
  have hscan : ((@scanOnce quoteText 5).run World.serve scanWorld).1 = .ok () := by
    decide +kernel
  obtain ⟨hiff, hrun⟩ := @scan_stores_iff quoteText 5 2 scanWorld (fun _ => List.nodup_nil)
    (fun a b hab => div_le_div_of_nonneg_right (Nat.cast_le.mpr hab) (by decide))
    (fun _ => rfl)
  exact ⟨hiff.mpr (.inl hscan),
    (hrun ⟨.inl hscan, fun _ => ⟨.inl (by decide +kernel), fun _ => trivial⟩⟩).2⟩

/-- The `XADD` of the first iteration fails; the same ticks arrive a second time. -/
def unpublishedWorld : World := World.start fun n =>
  { scanOutside n with
    fault := if n = 11 then some (.callFailed false) else none
    arrivals := if n = 13 then (scanOutside 0).arrivals else (scanOutside n).arrivals }

/-- Neither published nor stored, and suppressed when it is found again. -/
theorem scan_stores_apart :
    ¬@StoresAgree quoteText (history none unpublishedWorld
        ((@scanOnce quoteText 5).trace World.serve unpublishedWorld)) ∧
      ¬@Unsuppressed quoteText 5 (history none unpublishedWorld
        ((@scanLoop quoteText 5 2).trace World.serve unpublishedWorld)) := by
  constructor
  · intro hsettled
    have hclaimed : passes (history none unpublishedWorld
        ((@scanOnce quoteText 5).trace World.serve unpublishedWorld)) = [] :=
      (@settled_unstored quoteText _ (.inl (by decide +kernel)) (by decide +kernel)).mp hsettled
    have hcount : (passes (history none unpublishedWorld
        ((@scanOnce quoteText 5).trace World.serve unpublishedWorld))).length = 1 := by
      decide +kernel
    rw [hclaimed] at hcount
    cases hcount
  · intro hu
    have hrefused : (history none unpublishedWorld ((@scanLoop quoteText 5 2).trace World.serve
        unpublishedWorld)).any (fun m => m.2.refuses) = true := by decide +kernel
    exact @unsuppressed_refused quoteText _ _ hu hrefused (by decide +kernel)

end CriptoParser
