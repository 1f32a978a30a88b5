import CriptoParser.AwaitProgram
import CriptoParser.ConsumerGroup

/-!
A service that consumes streams through one group: a read hands out entries and leaves them
pending, and the service works on them and acknowledges them, stream by stream. What is pending
after an iteration of its loop, and that no later read of the loop returns it.
-/

set_option autoImplicit false

namespace CriptoParser.Streams

open Await

inductive StreamCall where
  | read
  | ack (stream : String) (ids : List ℕ)
  | other
  deriving DecidableEq

/-- The streams of a read that have something new, each with the ids handed out. -/
abbrev Batch := List (String × List ℕ)

namespace Batch

def of (b : Batch) (stream : String) : List ℕ := (b.lookup stream).getD []

theorem of_cons_self (stream : String) (ids : List ℕ) (b : Batch) :
    Batch.of ((stream, ids) :: b) stream = ids := by
  simp [of]

theorem of_cons_ne {stream other : String} (h : other ≠ stream) (ids : List ℕ) (b : Batch) :
    Batch.of ((stream, ids) :: b) other = b.of other := by
  have hbeq : (other == stream) = false := by simpa using h
  simp [of, List.lookup_cons, hbeq]

theorem of_eq_nil {b : Batch} {stream : String} (h : stream ∉ b.map Prod.fst) :
    b.of stream = [] := by
  induction b with
  | nil => rfl
  | cons x b ih =>
    simp only [List.map_cons, List.mem_cons, not_or] at h
    obtain ⟨name, ids⟩ := x
    rw [of_cons_ne h.1, ih h.2]

end Batch

namespace Group

def give (g : Group) (ids : List ℕ) : Group := ⟨g.delivered + ids.length, g.pending ++ ids⟩

def ack (g : Group) (ids : List ℕ) : Group :=
  { g with pending := g.pending.filter fun i => decide (i ∉ ids) }

@[simp] theorem give_nil (g : Group) : g.give [] = g := by simp [give]

def Wf (g : Group) : Prop := ∀ id ∈ g.pending, id < g.delivered

theorem Wf.give {g : Group} (h : g.Wf) {ids : List ℕ} (hids : ∀ id ∈ ids, id < g.delivered + ids.length) :
    (g.give ids).Wf := by
  intro id hid
  rcases List.mem_append.mp hid with hold | hnew
  · exact Nat.lt_add_right _ (h id hold)
  · exact hids id hnew

theorem Wf.ack {g : Group} (h : g.Wf) (ids : List ℕ) : (g.ack ids).Wf :=
  fun id hid => h id (List.mem_filter.mp hid).1

end Group

section Logs
variable {P : Type} (logs : String → Log P) (group : String)

def Batch.ofReply (reply : List (String × List (Entry P))) : Batch :=
  reply.map fun r => (r.1, r.2.map Entry.id)

/-- The streams that have something new for the group, each with its entries. -/
def newEntries (names : List String) (count : ℕ) : List (String × List (Entry P)) :=
  (names.map fun s => (s, (logs s).fresh group count)).filter fun r => !r.2.isEmpty

theorem newEntries_ne {names : List String} {count : ℕ} {r : String × List (Entry P)}
    (h : r ∈ newEntries logs group names count) : r.2 ≠ [] := by
  have hne := (List.mem_filter.mp h).2
  intro hnil
  rw [hnil] at hne
  cases hne

theorem newEntries_streams (names : List String) (count : ℕ) :
    ((newEntries logs group names count).map Prod.fst).Sublist names := by
  have hsub := (List.filter_sublist (p := fun r : String × List (Entry P) => !r.2.isEmpty)
    (l := names.map fun s => (s, (logs s).fresh group count))).map Prod.fst
  simpa [newEntries, Function.comp_def] using hsub

theorem newEntries_of (names : List String) (count : ℕ) (stream : String) :
    (Batch.ofReply (newEntries logs group names count)).of stream =
      if stream ∈ names then ((logs stream).fresh group count).map Entry.id else [] := by
  induction names with
  | nil => rfl
  | cons name names ih =>
    by_cases hempty : (logs name).fresh group count = []
    · have hskip : newEntries logs group (name :: names) count =
          newEntries logs group names count := by
        simp [newEntries, hempty]
      rw [hskip, ih]
      by_cases hname : stream = name
      · subst hname
        simp [hempty]
      · simp [hname]
    · have hcons : Batch.ofReply (newEntries logs group (name :: names) count) =
          (name, ((logs name).fresh group count).map Entry.id) ::
            Batch.ofReply (newEntries logs group names count) := by
        simp [newEntries, Batch.ofReply, hempty]
      rw [hcons]
      by_cases hname : stream = name
      · subst hname
        simp [Batch.of_cons_self]
      · rw [Batch.of_cons_ne hname, ih]
        simp [hname]

theorem newEntries_ids (names : List String) (count : ℕ) (stream : String) :
    (Batch.ofReply (newEntries logs group names count)).of stream =
      List.range' ((logs stream).groups group).delivered
        ((Batch.ofReply (newEntries logs group names count)).of stream).length := by
  rw [newEntries_of]
  split
  · rw [Log.fresh, entriesFrom_ids, List.length_range']
  · rfl

theorem groups_delivered (names : List String) (count : ℕ) (stream : String) :
    (if stream ∈ names then (logs stream).deliver group count else logs stream).groups group =
      ((logs stream).groups group).give
        ((Batch.ofReply (newEntries logs group names count)).of stream) := by
  rw [newEntries_of]
  split
  · simp [Log.deliver, Log.setGroup, Group.give]
  · simp

theorem groups_acked (stream : String) (ids : List ℕ) :
    (fun s => (Function.update logs stream ((logs stream).ack group ids) s).groups group) =
      Function.update (fun s => (logs s).groups group) stream
        (((logs stream).groups group).ack ids) := by
  funext other
  by_cases hother : other = stream
  · subst hother
    simp [Log.ack, Log.setGroup, Group.ack]
  · simp [Function.update_of_ne hother]

end Logs

/-- The call had its effect, where `served` says so of one that raised. -/
def carriedBy {ε α : Type} (served : ε → Bool) : Except ε α → Bool
  | .ok _ => true
  | .error x => served x

structure Consumer (S : Signature) (σ : Type) where
  serve : Server S σ
  groups : σ → String → Group
  kind : S.Call → StreamCall
  fresh : S.Call → σ → Batch
  returned : (c : S.Call) → S.Reply c → Batch
  served : S.Exc → Bool
  other_groups : ∀ c s, kind c = .other → groups (serve c s).2 = groups s
  lost_groups : ∀ c s, carriedBy served (serve c s).1 = false → groups (serve c s).2 = groups s
  ack_groups : ∀ c s stream ids, kind c = .ack stream ids →
    carriedBy served (serve c s).1 = true →
    groups (serve c s).2 = Function.update (groups s) stream ((groups s stream).ack ids)
  read_groups : ∀ c s, kind c = .read → carriedBy served (serve c s).1 = true →
    groups (serve c s).2 = fun stream => (groups s stream).give ((fresh c s).of stream)
  fresh_ids : ∀ c s stream, (fresh c s).of stream =
    List.range' (groups s stream).delivered ((fresh c s).of stream).length
  fresh_ne : ∀ c s b, b ∈ fresh c s → b.2 ≠ []
  returned_fresh : ∀ c s v, kind c = .read → (serve c s).1 = .ok v → returned c v = fresh c s

namespace Consumer
variable {S : Signature} {σ : Type} (C : Consumer S σ)

def carried (e : Event S) : Bool := carriedBy C.served e.reply

def Quiet (es : List (Event S)) : Prop := ∀ e ∈ es, C.kind e.call = .other

def Clear (s : σ) : Prop := ∀ stream, (C.groups s stream).pending = []

def Wf (s : σ) : Prop := ∀ stream, (C.groups s stream).Wf

def Returns (e : Event S) (stream : String) (id : ℕ) : Prop :=
  C.kind e.call = .read ∧ ∃ v, e.reply = .ok v ∧ id ∈ (C.returned e.call v).of stream

def handed : σ → List (Event S) → Batch
  | _, [] => []
  | s, e :: es =>
    (if C.kind e.call = .read ∧ C.carried e = true then C.fresh e.call s else []) ++
      handed (C.serve e.call s).2 es

def LastAck (b : Batch) (e : Event S) : Prop :=
  C.carried e = true ∧ ∃ last ids, b.getLast? = some last ∧ C.kind e.call = .ack last.1 ids

variable {C}

theorem Clear.wf {s : σ} (h : C.Clear s) : C.Wf s := by
  intro stream id hid
  rw [h stream] at hid
  cases hid

theorem mem_fresh {c : S.Call} {s : σ} {stream : String} {id : ℕ}
    (h : id ∈ (C.fresh c s).of stream) : (C.groups s stream).delivered ≤ id ∧
      id < (C.groups s stream).delivered + ((C.fresh c s).of stream).length := by
  rw [C.fresh_ids] at h
  simpa using h

theorem serve_cases (c : S.Call) (s : σ) (stream : String) :
    C.groups (C.serve c s).2 stream = C.groups s stream ∨
      (∃ ids, C.groups (C.serve c s).2 stream = (C.groups s stream).ack ids) ∨
      C.groups (C.serve c s).2 stream = (C.groups s stream).give ((C.fresh c s).of stream) := by
  cases hcarried : carriedBy C.served (C.serve c s).1 with
  | false => exact .inl (by rw [C.lost_groups c s hcarried])
  | true =>
    cases hkind : C.kind c with
    | other => exact .inl (by rw [C.other_groups c s hkind])
    | read => exact .inr (.inr (by rw [C.read_groups c s hkind hcarried]))
    | ack name ids =>
      rw [C.ack_groups c s name ids hkind hcarried]
      by_cases hname : stream = name
      · subst hname
        exact .inr (.inl ⟨ids, by simp⟩)
      · exact .inl (by simp [Function.update_of_ne hname])

theorem serve_wf {c : S.Call} {s : σ} (h : C.Wf s) : C.Wf (C.serve c s).2 := by
  intro stream
  rcases @serve_cases _ _ C c s stream with heq | ⟨ids, heq⟩ | heq
  · rw [heq]
    exact h stream
  · rw [heq]
    exact (h stream).ack ids
  · rw [heq]
    exact (h stream).give fun id hid => (mem_fresh hid).2

theorem serve_delivered (c : S.Call) (s : σ) (stream : String) :
    (C.groups s stream).delivered ≤ (C.groups (C.serve c s).2 stream).delivered := by
  rcases @serve_cases _ _ C c s stream with heq | ⟨ids, heq⟩ | heq
  · rw [heq]
  · rw [heq]
    exact le_rfl
  · rw [heq]
    exact Nat.le_add_right _ _

theorem returns_undelivered {s s' : σ} {es : List (Event S)} (h : Follows C.serve s es s')
    {e : Event S} (he : e ∈ es) {stream : String} {id : ℕ} (hreturns : C.Returns e stream id) :
    (C.groups s stream).delivered ≤ id := by
  induction es generalizing s with
  | nil => cases he
  | cons d es ih =>
    rcases List.mem_cons.mp he with rfl | he
    · obtain ⟨hread, v, hv, hid⟩ := hreturns
      have hreply : (C.serve e.call s).1 = .ok v := by rw [← h.1, hv]
      rw [C.returned_fresh _ s v hread hreply] at hid
      exact (mem_fresh hid).1
    · exact le_trans (serve_delivered d.call s stream) (ih h.2 he)

theorem quiet_groups {s s' : σ} {es : List (Event S)} (h : Follows C.serve s es s')
    (hes : C.Quiet es) : C.groups s' = C.groups s := by
  induction es generalizing s with
  | nil => cases h; rfl
  | cons e es ih =>
    rw [ih h.2 fun d hd => hes d (List.mem_cons_of_mem _ hd)]
    exact C.other_groups _ _ (hes e List.mem_cons_self)

theorem handed_quiet {s : σ} {es : List (Event S)} (hes : ∀ e ∈ es, C.kind e.call ≠ .read) :
    C.handed s es = [] := by
  induction es generalizing s with
  | nil => rfl
  | cons e es ih =>
    have hread : ¬(C.kind e.call = .read ∧ C.carried e = true) :=
      fun h => hes e List.mem_cons_self h.1
    rw [handed, if_neg hread, ih fun d hd => hes d (List.mem_cons_of_mem _ hd), List.append_nil]

theorem handed_append {s m : σ} {es fs : List (Event S)} (h : Follows C.serve s es m) :
    C.handed s (es ++ fs) = C.handed s es ++ C.handed m fs := by
  induction es generalizing s with
  | nil => cases h; rfl
  | cons e es ih => rw [List.cons_append, handed, handed, ih h.2, List.append_assoc]

variable (C)

/-- A batch worked on and acknowledged, stream by stream, until something is raised. -/
inductive Settling : Batch → List (Event S) → Except S.Exc Unit → Prop
  | done : Settling [] [] (.ok ())
  | raised {stream : String} {ids : List ℕ} {rest : Batch} {es : List (Event S)} (x : S.Exc)
      (hes : C.Quiet es) : Settling ((stream, ids) :: rest) es (.error x)
  | acked {stream : String} {ids : List ℕ} {rest : Batch} {es gs : List (Event S)} {c : S.Call}
      {r : Except S.Exc Unit} (v : S.Reply c) (hes : C.Quiet es)
      (hack : C.kind c = .ack stream ids) (hrest : Settling rest gs r) :
      Settling ((stream, ids) :: rest) (es ++ ⟨c, .ok v⟩ :: gs) r
  | unacked {stream : String} {ids : List ℕ} {rest : Batch} {es : List (Event S)} {c : S.Call}
      (x : S.Exc) (hes : C.Quiet es) (hack : C.kind c = .ack stream ids) :
      Settling ((stream, ids) :: rest) (es ++ [⟨c, .error x⟩]) (.error x)

inductive Consumes : List (Event S) → Except S.Exc Unit → Prop
  | unread {es : List (Event S)} (x : S.Exc) (hes : C.Quiet es) : Consumes es (.error x)
  | lost {es : List (Event S)} {c : S.Call} (x : S.Exc) (hes : C.Quiet es)
      (hread : C.kind c = .read) : Consumes (es ++ [⟨c, .error x⟩]) (.error x)
  | settles {es gs : List (Event S)} {c : S.Call} {v : S.Reply c} {r : Except S.Exc Unit}
      (hes : C.Quiet es) (hread : C.kind c = .read)
      (hnodup : ((C.returned c v).map Prod.fst).Nodup) (h : Settling C (C.returned c v) gs r) :
      Consumes (es ++ ⟨c, .ok v⟩ :: gs) r

variable {C}

theorem Settling.unread {b : Batch} {es : List (Event S)} {r : Except S.Exc Unit}
    (h : Settling C b es r) : ∀ e ∈ es, C.kind e.call ≠ .read := by
  induction h with
  | done => simp
  | raised x hes =>
    intro e he
    rw [hes e he]
    nofun
  | acked v hes hack hrest ih =>
    intro e he
    rcases List.mem_append.mp he with he | he
    · rw [hes e he]
      nofun
    · rcases List.mem_cons.mp he with rfl | he
      · rw [hack]
        nofun
      · exact ih e he
  | unacked x hes hack =>
    intro e he
    rcases List.mem_append.mp he with he | he
    · rw [hes e he]
      nofun
    · rw [List.mem_singleton.mp he, hack]
      nofun

theorem Settling.quiet_append {stream : String} {ids : List ℕ} {rest : Batch}
    {fs gs : List (Event S)} {r : Except S.Exc Unit} (hfs : C.Quiet fs)
    (h : Settling C ((stream, ids) :: rest) gs r) :
    Settling C ((stream, ids) :: rest) (fs ++ gs) r := by
  have hquiet : ∀ {es : List (Event S)}, C.Quiet es → C.Quiet (fs ++ es) := by
    intro es hes e he
    rcases List.mem_append.mp he with he | he
    · exact hfs e he
    · exact hes e he
  cases h with
  | raised x hes => exact .raised x (hquiet hes)
  | acked v hes hack hrest =>
    rw [← List.append_assoc]
    exact .acked v (hquiet hes) hack hrest
  | unacked x hes hack =>
    rw [← List.append_assoc]
    exact .unacked x (hquiet hes) hack

theorem Settling.of_bind {α : Type} {stream : String} {ids : List ℕ} {rest : Batch}
    {p : Prog S α} {q : α → Prog S Unit} {c : S.Call}
    (hp : p.Uses fun c => C.kind c = .other) (hack : C.kind c = .ack stream ids)
    (hq : ∀ a gs r, (q a).Ends gs r →
      (∃ v gs', gs = ⟨c, .ok v⟩ :: gs' ∧ Settling C rest gs' r) ∨
        ∃ x, gs = [⟨c, .error x⟩] ∧ r = .error x)
    {es : List (Event S)} {r : Except S.Exc Unit} (h : (p >>= q).Ends es r) :
    Settling C ((stream, ids) :: rest) es r := by
  rw [Prog.bind_eq, Prog.ends_bind] at h
  rcases h with ⟨a, fs, gs, rfl, h₁, h₂⟩ | ⟨x, h₁, rfl⟩
  · rcases hq a gs r h₂ with ⟨v, gs', rfl, hrest⟩ | ⟨x, rfl, rfl⟩
    · exact .acked v (hp.ends h₁) hack hrest
    · exact .unacked x (hp.ends h₁) hack
  · exact .raised x (hp.ends h₁)

/-- Where a batch is settled the group has nothing pending, and otherwise it has. -/
def Settles (s' : σ) (b : Batch) (es : List (Event S)) (r : Except S.Exc Unit) : Prop :=
  C.Clear s' ∧ (r = .ok () ∨ ∃ fs e, es = fs ++ [e] ∧ C.LastAck b e) ∨
    ¬C.Clear s' ∧ r ≠ .ok () ∧ b ≠ [] ∧ ∀ fs e, es = fs ++ [e] → ¬C.LastAck b e

theorem Settles.iff {s' : σ} {b : Batch} {es : List (Event S)} {r : Except S.Exc Unit}
    (h : C.Settles s' b es r) : C.Clear s' ↔
      r = .ok () ∨ b = [] ∨ ∃ fs e, es = fs ++ [e] ∧ C.LastAck b e := by
  rcases h with ⟨hclear, hr⟩ | ⟨hpending, hr, hb, hlast⟩
  · constructor
    · intro _
      rcases hr with hok | hack
      · exact .inl hok
      · exact .inr (.inr hack)
    · exact fun _ => hclear
  · constructor
    · exact fun hclear => (hpending hclear).elim
    · intro h
      rcases h with hok | hnil | ⟨fs, e, heq, hack⟩
      · exact (hr hok).elim
      · exact (hb hnil).elim
      · exact (hlast fs e heq hack).elim

def PendingIs (s : σ) (b : Batch) : Prop := ∀ stream, (C.groups s stream).pending = b.of stream

theorem PendingIs.not_clear {s : σ} {stream : String} {ids : List ℕ} {rest : Batch}
    (h : C.PendingIs s ((stream, ids) :: rest)) (hids : ids ≠ []) : ¬C.Clear s := by
  intro hclear
  have hpending := h stream
  rw [hclear stream, Batch.of_cons_self] at hpending
  exact hids hpending.symm

theorem PendingIs.acked {s : σ} {stream : String} {ids : List ℕ} {rest : Batch} {c : S.Call}
    (h : C.PendingIs s ((stream, ids) :: rest)) (hnew : stream ∉ rest.map Prod.fst)
    (hack : C.kind c = .ack stream ids) (hcarried : carriedBy C.served (C.serve c s).1 = true) :
    C.PendingIs (C.serve c s).2 rest := by
  intro other
  rw [C.ack_groups c s stream ids hack hcarried]
  by_cases hother : other = stream
  · subst hother
    simp [Group.ack, h other, Batch.of_cons_self, Batch.of_eq_nil hnew]
  · rw [Function.update_of_ne hother, h other, Batch.of_cons_ne hother]

theorem PendingIs.quiet {s m : σ} {b : Batch} {es : List (Event S)} (h : C.PendingIs s b)
    (hf : Follows C.serve s es m) (hes : C.Quiet es) : C.PendingIs m b := by
  intro stream
  rw [quiet_groups hf hes]
  exact h stream

theorem not_lastAck_quiet {es fs : List (Event S)} {e : Event S} {b : Batch} (hes : C.Quiet es)
    (h : es = fs ++ [e]) : ¬C.LastAck b e := by
  intro ⟨_, last, ids, _, hack⟩
  rw [hes e (by simp [h])] at hack
  cases hack

theorem not_lastAck_first {stream : String} {ids : List ℕ} {rest : Batch} {e : Event S}
    (hne : rest ≠ []) (hnew : stream ∉ rest.map Prod.fst) (hack : C.kind e.call = .ack stream ids) :
    ¬C.LastAck ((stream, ids) :: rest) e := by
  intro ⟨_, last, ids', hlast, hack'⟩
  rw [List.getLast?_cons_of_ne_nil hne] at hlast
  rw [hack] at hack'
  cases hack'
  exact hnew (List.mem_map_of_mem (List.mem_of_getLast? hlast))

theorem last_of_append {α : Type} {es gs fs : List α} {d e : α}
    (h : es ++ d :: gs = fs ++ [e]) : gs = [] ∧ e = d ∨ ∃ gs', gs = gs' ++ [e] := by
  rcases List.eq_nil_or_concat gs with rfl | ⟨gs', e', rfl⟩
  · obtain ⟨-, rfl⟩ := List.append_singleton_inj.mp h
    exact .inl ⟨rfl, rfl⟩
  · rw [List.concat_eq_append, ← List.cons_append, ← List.append_assoc] at h
    obtain ⟨-, rfl⟩ := List.append_singleton_inj.mp h
    exact .inr ⟨gs', List.concat_eq_append ..⟩

section Steps
variable {stream : String} {ids : List ℕ} {rest : Batch} {es gs : List (Event S)} {c : S.Call}
  {r : Except S.Exc Unit}

theorem lastAck_rest {e : Event S} (hne : rest ≠ []) :
    C.LastAck ((stream, ids) :: rest) e ↔ C.LastAck rest e := by
  unfold LastAck
  rw [List.getLast?_cons_of_ne_nil hne]

theorem Settles.acked {s' : σ} (h : C.Settles s' rest gs r) (hnew : stream ∉ rest.map Prod.fst)
    (v : S.Reply c) (hack : C.kind c = .ack stream ids) :
    C.Settles s' ((stream, ids) :: rest) (es ++ ⟨c, .ok v⟩ :: gs) r := by
  rcases h with ⟨hclear, hr⟩ | ⟨hpending, hr, hne, hlast⟩
  · refine .inl ⟨hclear, hr.imp_right fun ⟨fs, e, heq, hack'⟩ => ?_⟩
    have hne : rest ≠ [] := by
      rintro rfl
      obtain ⟨-, last, ids', hget, -⟩ := hack'
      cases hget
    exact ⟨es ++ ⟨c, .ok v⟩ :: fs, e, by simp [heq], (lastAck_rest hne).mpr hack'⟩
  · refine .inr ⟨hpending, hr, by simp, fun fs e heq => ?_⟩
    rcases last_of_append heq with ⟨-, rfl⟩ | ⟨gs', hgs⟩
    · exact not_lastAck_first hne hnew hack
    · rw [lastAck_rest hne]
      exact hlast gs' e hgs

theorem PendingIs.unacked {m : σ} {x : S.Exc} (h : C.PendingIs m ((stream, ids) :: rest))
    (hnew : stream ∉ rest.map Prod.fst) (hne : ∀ b ∈ (stream, ids) :: rest, b.2 ≠ [])
    (hack : C.kind c = .ack stream ids) (hreply : .error x = (C.serve c m).1) :
    C.Settles (C.serve c m).2 ((stream, ids) :: rest) (es ++ [⟨c, .error x⟩]) (.error x) := by
  have hcarry : carriedBy C.served (C.serve c m).1 = C.served x := by
    rw [← hreply]
    rfl
  cases hserved : C.served x with
  | true =>
    have hrest := h.acked hnew hack (hcarry.trans hserved)
    cases rest with
    | nil => exact .inl ⟨hrest, .inr ⟨es, _, rfl, hserved, _, ids, rfl, hack⟩⟩
    | cons next more =>
      have hids := hne next (by simp)
      refine .inr ⟨hrest.not_clear hids, nofun, by simp, fun fs e heq => ?_⟩
      obtain ⟨-, rfl⟩ := List.append_singleton_inj.mp heq
      exact not_lastAck_first (by simp) hnew hack
  | false =>
    have hsame := C.lost_groups c m (hcarry.trans hserved)
    have hids := hne _ List.mem_cons_self
    refine .inr ⟨fun hclear => h.not_clear hids fun stream => ?_, nofun, by simp,
      fun fs e heq hlast => ?_⟩
    · rw [← hsame]
      exact hclear stream
    · obtain ⟨-, rfl⟩ := List.append_singleton_inj.mp heq
      have hcarried : C.served x = true := hlast.1
      rw [hserved] at hcarried
      cases hcarried

end Steps

theorem Settling.settles {b : Batch} {es : List (Event S)} {r : Except S.Exc Unit}
    (h : Settling C b es r) {m s' : σ} (hf : Follows C.serve m es s') (hm : C.PendingIs m b)
    (hnodup : (b.map Prod.fst).Nodup) (hne : ∀ x ∈ b, x.2 ≠ []) : C.Settles s' b es r := by
  induction h generalizing m with
  | done =>
    cases hf
    exact .inl ⟨fun stream => by rw [hm stream]; rfl, .inl rfl⟩
  | raised x hes =>
    have hids := hne _ List.mem_cons_self
    exact .inr ⟨(hm.quiet hf hes).not_clear hids, nofun, by simp,
      fun fs e heq => not_lastAck_quiet hes heq⟩
  | @acked stream ids rest es gs c r v hes hack hrest ih =>
    obtain ⟨hnew, hnodup⟩ := List.nodup_cons.mp hnodup
    obtain ⟨m', hf₁, hreply, hf₂⟩ := (follows_append _ _ _ _ _).mp hf
    have hcarried : carriedBy C.served (C.serve c m').1 = true := by
      rw [← hreply]
      rfl
    have hrest' := (hm.quiet hf₁ hes).acked hnew hack hcarried
    exact (ih hf₂ hrest' hnodup fun x hx => hne x (List.mem_cons_of_mem _ hx)).acked hnew v hack
  | @unacked stream ids rest es c x hes hack =>
    obtain ⟨hnew, -⟩ := List.nodup_cons.mp hnodup
    obtain ⟨m', hf₁, hreply, hs'⟩ := (follows_append _ _ _ _ _).mp hf
    obtain rfl : s' = (C.serve c m').2 := hs'
    exact (hm.quiet hf₁ hes).unacked hnew hne hack hreply

theorem Quiet.unread {es : List (Event S)} (h : C.Quiet es) : ∀ e ∈ es, C.kind e.call ≠ .read := by
  intro e he
  rw [h e he]
  nofun

theorem handed_read {s m : σ} {es gs : List (Event S)} {c : S.Call} {a : Except S.Exc (S.Reply c)}
    (hes : C.Quiet es) (hread : C.kind c = .read) (hm : Follows C.serve s es m)
    (hgs : ∀ e ∈ gs, C.kind e.call ≠ .read) :
    C.handed s (es ++ ⟨c, a⟩ :: gs) =
      if carriedBy C.served a = true then C.fresh c m else [] := by
  rw [handed_append hm, handed_quiet hes.unread, List.nil_append, handed, handed_quiet hgs,
    List.append_nil]
  simp [hread, carried]

theorem pendingIs_read {s m : σ} {es : List (Event S)} {c : S.Call} (hs : C.Clear s)
    (hes : C.Quiet es) (hread : C.kind c = .read) (hm : Follows C.serve s es m)
    (hcarried : carriedBy C.served (C.serve c m).1 = true) :
    C.PendingIs (C.serve c m).2 (C.fresh c m) := by
  intro stream
  have hpending := hs stream
  rw [← quiet_groups hm hes] at hpending
  rw [C.read_groups c m hread hcarried]
  simp [Group.give, hpending]

theorem not_lastAck_read {es fs : List (Event S)} {e d : Event S} {b : Batch}
    (hread : C.kind d.call = .read) (h : es ++ [d] = fs ++ [e]) : ¬C.LastAck b e := by
  obtain ⟨-, rfl⟩ := List.append_singleton_inj.mp h
  intro ⟨_, last, ids, _, hack⟩
  rw [hread] at hack
  cases hack

theorem clear_iff_lost {s m : σ} {es : List (Event S)} {c : S.Call} {x : S.Exc} (hs : C.Clear s)
    (hes : C.Quiet es) (hread : C.kind c = .read) (hm : Follows C.serve s es m)
    (hreply : .error x = (C.serve c m).1) :
    C.Clear (C.serve c m).2 ↔ C.handed s (es ++ [⟨c, .error x⟩]) = [] := by
  have hcarry : carriedBy C.served (C.serve c m).1 = C.served x := by
    rw [← hreply]
    rfl
  have hhanded : C.handed s (es ++ [⟨c, .error x⟩]) =
      if C.served x = true then C.fresh c m else [] := handed_read hes hread hm (by simp)
  rw [hhanded]
  cases hserved : C.served x with
  | true =>
    have hpending := pendingIs_read hs hes hread hm (hcarry.trans hserved)
    rw [if_pos rfl]
    constructor
    · intro hclear
      cases hfresh : C.fresh c m with
      | nil => rfl
      | cons b rest =>
        rw [hfresh] at hpending
        have hids := C.fresh_ne c m b (by simp [hfresh])
        exact (hpending.not_clear hids hclear).elim
    · intro hnil stream
      rw [hpending stream, hnil]
      rfl
  | false =>
    refine iff_of_true (fun stream => ?_) rfl
    rw [C.lost_groups c m (hcarry.trans hserved), quiet_groups hm hes]
    exact hs stream

/-- An iteration from a state with nothing pending leaves something pending exactly if it raises
after a read that hands something out, and not at its last acknowledgement. -/
theorem Consumes.clear_iff {es : List (Event S)} {r : Except S.Exc Unit} (h : Consumes C es r)
    {s s' : σ} (hf : Follows C.serve s es s') (hs : C.Clear s) :
    C.Clear s' ↔ r = .ok () ∨ C.handed s es = [] ∨
      ∃ fs e, es = fs ++ [e] ∧ C.LastAck (C.handed s es) e := by
  cases h with
  | unread x hes =>
    refine iff_of_true (fun stream => ?_) (.inr (.inl (handed_quiet hes.unread)))
    rw [quiet_groups hf hes]
    exact hs stream
  | @lost fs c x hfs hread =>
    obtain ⟨m, hm, hreply, hs'⟩ := (follows_append _ _ _ _ _).mp hf
    obtain rfl : s' = (C.serve c m).2 := hs'
    rw [clear_iff_lost hs hfs hread hm hreply]
    constructor
    · exact fun hnil => .inr (.inl hnil)
    · intro h
      rcases h with hok | hnil | ⟨fs', e, heq, hlast⟩
      · cases hok
      · exact hnil
      · exact (not_lastAck_read hread heq hlast).elim
  | @settles fs gs c v r hfs hread hnodup hsettling =>
    obtain ⟨m, hm, hreply, hgs⟩ := (follows_append _ _ _ _ _).mp hf
    have hcarry : carriedBy C.served (C.serve c m).1 = true := by
      rw [← hreply]
      rfl
    have hfresh : C.returned c v = C.fresh c m := C.returned_fresh c m v hread hreply.symm
    have hpending := pendingIs_read hs hfs hread hm hcarry
    have hhanded : C.handed s (fs ++ ⟨c, .ok v⟩ :: gs) = C.fresh c m :=
      handed_read hfs hread hm hsettling.unread
    rw [hhanded]
    rw [hfresh] at hsettling hnodup
    rw [(hsettling.settles hgs hpending hnodup fun b hb => C.fresh_ne c m b hb).iff]
    refine or_congr_right (or_congr_right ⟨?_, ?_⟩)
    · intro ⟨gs', e, heq, hlast⟩
      exact ⟨fs ++ ⟨c, .ok v⟩ :: gs', e, by simp [heq], hlast⟩
    · intro ⟨fs', e, heq, hlast⟩
      rcases last_of_append heq with ⟨rfl, -⟩ | ⟨gs', hgs'⟩
      · exact (not_lastAck_read hread heq hlast).elim
      · exact ⟨gs', e, hgs', hlast⟩

end Consumer

structure ConsumerLoop (S : Signature) (σ : Type) extends Consumer S σ where
  body : Prog S Unit
  handler : S.Exc → Prog S Unit
  loop : ℕ → Prog S Unit
  loop_zero : loop 0 = pure ()
  loop_succ : ∀ n, loop (n + 1) = body.handle handler >>= fun _ => loop n
  handler_quiet : ∀ x, (handler x).Uses fun c => kind c = .other
  body_consumes : ∀ s es r s', body.Ends es r → Follows serve s es s' →
    Consumer.Consumes toConsumer es r

namespace ConsumerLoop
variable {S : Signature} {σ : Type} (L : ConsumerLoop S σ)

def pass : Prog S Unit := L.body.handle L.handler

def Starts (s : σ) (k : ℕ) (s' : σ) : Prop := (L.loop k).run L.serve s = (.ok (), s')

/-- Every entry delivered so far has been acknowledged or will be returned by a later read. -/
def KeptAt (s : σ) : Prop :=
  ∀ stream id, id < (L.groups s stream).delivered →
    id ∉ (L.groups s stream).pending ∨
      ∃ n, ∃ e ∈ (L.loop n).trace L.serve s, L.Returns e stream id

/-- The iteration raises nothing, or hands nothing out, or what raises is its last
acknowledgement, carried out all the same; or no iteration follows it. -/
def SafeAt (s : σ) : Prop :=
  (L.body.run L.serve s).1 = .ok () ∨
    L.handed s (L.body.trace L.serve s) = [] ∨
    (∃ es e, L.body.trace L.serve s = es ++ [e] ∧
      L.LastAck (L.handed s (L.body.trace L.serve s)) e) ∨
    (L.pass.run L.serve s).1 ≠ .ok ()

/-- No entry is dropped at the start of any iteration of the run from `s`. -/
def Keeps (s : σ) : Prop := ∀ k s', L.Starts s k s' → L.KeptAt s'

/-- Nothing is pending when the run starts, and every iteration of it is safe. -/
def Safe (s : σ) : Prop := L.Clear s ∧ ∀ k s', L.Starts s k s' → L.SafeAt s'

variable {L}

theorem starts_zero {s s' : σ} : L.Starts s 0 s' ↔ s' = s := by
  rw [Starts, L.loop_zero, Prog.run_pure]
  simp [eq_comm]

theorem starts_succ {s s' : σ} {k : ℕ} :
    L.Starts s (k + 1) s' ↔ ∃ m, L.pass.run L.serve s = (.ok (), m) ∧ L.Starts m k s' := by
  unfold Starts pass
  rw [L.loop_succ, Prog.run_bind]
  cases hpass : (L.body.handle L.handler).run L.serve s with
  | mk r m =>
    cases r with
    | error x => simp
    | ok u => simp

theorem keptAt_iff {s : σ} (hwf : L.Wf s) : L.KeptAt s ↔ L.Clear s := by
  constructor
  · intro hkept stream
    by_contra hne
    obtain ⟨id, hid⟩ := List.exists_mem_of_ne_nil _ hne
    rcases hkept stream id (hwf stream id hid) with hacked | ⟨n, e, he, hreturns⟩
    · exact hacked hid
    · have hnew := Consumer.returns_undelivered ((L.loop n).follows_trace L.serve s) he hreturns
      exact absurd (hwf stream id hid) (Nat.not_lt.mpr hnew)
  · intro hclear stream id _
    rw [hclear stream]
    exact .inl List.not_mem_nil

theorem pass_groups (s : σ) :
    L.groups (L.pass.run L.serve s).2 = L.groups (L.body.run L.serve s).2 := by
  rw [pass, Prog.run_handle]
  cases (L.body.run L.serve s).1 with
  | ok u => rfl
  | error x =>
    exact Consumer.quiet_groups ((L.handler x).follows_trace L.serve _)
      ((L.handler_quiet x).ends ((L.handler x).ends_trace L.serve _))

theorem pass_wf {s m : σ} {r : Except S.Exc Unit} (h : L.Wf s)
    (hpass : L.pass.run L.serve s = (r, m)) : L.Wf m := by
  have hwf := L.pass.run_preserves L.serve (fun _ _ hs => Consumer.serve_wf hs) s h
  rwa [hpass] at hwf

theorem safeAt_iff {s m : σ} (hs : L.Clear s) (hpass : L.pass.run L.serve s = (.ok (), m)) :
    L.SafeAt s ↔ L.Clear m := by
  have hm : L.groups m = L.groups (L.body.run L.serve s).2 := by
    rw [← pass_groups, hpass]
  have hiff := (L.body_consumes _ _ _ _ (L.body.ends_trace L.serve s)
    (L.body.follows_trace L.serve s)).clear_iff (L.body.follows_trace L.serve s) hs
  have hclear : L.Clear m ↔ L.Clear (L.body.run L.serve s).2 := by
    unfold Consumer.Clear
    rw [hm]
  rw [hclear, hiff]
  simp [SafeAt, hpass]

theorem run_kept {s s' : σ} {k : ℕ} (hwf : L.Wf s) (hs : L.Clear s)
    (hsafe : ∀ j m, L.Starts s j m → L.SafeAt m) (h : L.Starts s k s') : L.KeptAt s' := by
  induction k generalizing s with
  | zero =>
    rw [starts_zero.mp h]
    exact (keptAt_iff hwf).mpr hs
  | succ k ih =>
    obtain ⟨m, hpass, hrest⟩ := starts_succ.mp h
    have hfirst : L.SafeAt s := hsafe 0 s (starts_zero.mpr rfl)
    have hclear : L.Clear m := (safeAt_iff hs hpass).mp hfirst
    exact ih (pass_wf hwf hpass) hclear
      (fun j s'' hj => hsafe (j + 1) s'' (starts_succ.mpr ⟨m, hpass, hj⟩)) hrest

theorem run_safe {s s' : σ} {k : ℕ} (hwf : L.Wf s)
    (hkept : ∀ j m, L.Starts s j m → L.KeptAt m) (h : L.Starts s k s') : L.SafeAt s' := by
  induction k generalizing s with
  | zero =>
    rw [starts_zero.mp h]
    have hs : L.Clear s := (keptAt_iff hwf).mp (hkept 0 s (starts_zero.mpr rfl))
    cases hpass : L.pass.run L.serve s with
    | mk r m =>
      cases r with
      | error x =>
        refine .inr (.inr (.inr ?_))
        rw [hpass]
        nofun
      | ok u =>
        have hnext : L.Starts s 1 m := starts_succ.mpr ⟨m, hpass, starts_zero.mpr rfl⟩
        have hclear : L.Clear m := (keptAt_iff (pass_wf hwf hpass)).mp (hkept 1 m hnext)
        exact (safeAt_iff hs hpass).mpr hclear
  | succ k ih =>
    obtain ⟨m, hpass, hrest⟩ := starts_succ.mp h
    exact ih (pass_wf hwf hpass)
      (fun j s'' hj => hkept (j + 1) s'' (starts_succ.mpr ⟨m, hpass, hj⟩)) hrest

theorem keeps_iff {s : σ} (hwf : L.Wf s) : L.Keeps s ↔ L.Safe s := by
  constructor
  · intro hkept
    have hs : L.Clear s := (keptAt_iff hwf).mp (hkept 0 s (starts_zero.mpr rfl))
    exact ⟨hs, fun k s' h => run_safe hwf hkept h⟩
  · intro ⟨hs, hsafe⟩ k s' h
    exact run_kept hwf hs hsafe h

end ConsumerLoop

end CriptoParser.Streams
