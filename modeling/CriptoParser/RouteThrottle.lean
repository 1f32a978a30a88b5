import CriptoParser.AwaitRules
import CriptoParser.ExecutorLoop
import CriptoParser.ExecutorLedger
import CriptoParser.OpportunityDedup
import Mathlib.Algebra.BigOperators.Group.Finset.Basic

/-!
The scanners and the executors together. Every start of an opportunity is paid for by an entry of
the stream, every entry by a claim of the key of its route, and the claims of a key are `ttl` apart.
-/

set_option autoImplicit false

namespace CriptoParser

open Await Streams Expiry

def routeKey (f : Fields) : Option String := do
  let symbol ← f.lookup "symbol"
  let buy ← f.lookup "buy_exchange"
  let sell ← f.lookup "sell_exchange"
  some ("dedup:opp:" ++ symbol ++ ":" ++ buy ++ ":" ++ sell)

section
variable [PyText]

theorem routeKey_toRedis (opp : Opportunity) : routeKey opp.toRedis = some (dedupKey opp) := rfl

omit [PyText] in
theorem textField_ok {data : Fields} {key s : String} (h : textField data key = .ok s) :
    data.lookup key = some s := by
  unfold textField at h
  split at h
  · cases h
    assumption
  · cases h

omit [PyText] in
theorem bind_eq_ok {α β : Type} {x : Except PyExc α} {g : α → Except PyExc β} {b : β} :
    (x >>= g) = .ok b ↔ ∃ a, x = .ok a ∧ g a = .ok b := by
  cases x with
  | error e => simp [bind, Except.bind]
  | ok a => simp [bind, Except.bind]

theorem routeKey_fromRedis {f : Fields} {opp : Opportunity}
    (h : Opportunity.fromRedis f = .ok opp) : routeKey f = some (dedupKey opp) := by
  simp only [Opportunity.fromRedis, bind_eq_ok, Except.ok.injEq] at h
  obtain ⟨id, -, symbol, hsymbol, buy, hbuy, sell, hsell, -, -, -, -, -, -, -, -, -, -, -, -, -, -,
    -, -, -, -, rfl⟩ := h
  simp only [routeKey, textField_ok hsymbol, textField_ok hbuy, textField_ok hsell, dedupKey,
    Option.bind_eq_bind, Option.bind_some]

def parsed (entries : List (Entry Fields)) : List Opportunity :=
  entries.filterMap fun entry => (Opportunity.fromRedis entry.payload).toOption

def onRoute (key : String) (f : Fields) : Bool := routeKey f == some key

def routeCount (key : String) (opps : List Opportunity) : ℕ :=
  opps.countP fun opp => dedupKey opp == key

omit [PyText] in
@[simp] theorem routeCount_cons (key : String) (opp : Opportunity) (rest : List Opportunity) :
    routeCount key (opp :: rest) = routeCount key rest + if dedupKey opp == key then 1 else 0 :=
  List.countP_cons

theorem parsed_count (key : String) (entries : List (Entry Fields)) :
    routeCount key (parsed entries) ≤ (entries.map Entry.payload).countP (onRoute key) := by
  induction entries with
  | nil => exact le_rfl
  | cons entry rest ih =>
    rw [List.map_cons, List.countP_cons]
    cases hparse : Opportunity.fromRedis entry.payload with
    | error x =>
      have hskip : parsed (entry :: rest) = parsed rest := by
        simp [parsed, hparse, Except.toOption]
      rw [hskip]
      omega
    | ok opp =>
      have htake : parsed (entry :: rest) = opp :: parsed rest := by
        simp [parsed, hparse, Except.toOption]
      have hkey : onRoute key entry.payload = (dedupKey opp == key) := by
        simp [onRoute, routeKey_fromRedis hparse]
      rw [htake, routeCount_cons, hkey]
      omega

/-- The opportunity a task has put to the dedup, the ones it has claimed and not yet published, and
the ones it has read and not yet started. -/
structure Routing where
  asked : Option Opportunity
  owed : List Opportunity
  todo : List Opportunity
  deriving DecidableEq

def batchOf : Except PyExc (List (String × List (Entry Fields))) → List (Entry Fields)
  | .ok ((_, entries) :: _) => entries
  | _ => []

def Routing.step (q : Routing) : Event Service → Routing
  | ⟨.note (.checking opp), _⟩ => { q with asked := some opp }
  | ⟨.note (.started _), _⟩ => { q with todo := q.todo.tail }
  | ⟨.setNxEx _ _, .ok true⟩ => { q with asked := none, owed := q.owed ++ q.asked.toList }
  | ⟨.setNxEx _ _, _⟩ => { q with asked := none }
  | ⟨.xadd stream _, _⟩ =>
    if stream = opportunitiesStream then { q with owed := q.owed.tail } else q
  | ⟨.xreadgroup _ names _, r⟩ =>
    if opportunitiesStream ∈ names then { q with todo := parsed (batchOf r) }
    else { q with owed := [] }
  | _ => q

/-- Only the key of the opportunity just asked for is claimed, only what was claimed is published
and only what was read is started, each once and in order. -/
abbrev routing (ttl : ℚ) : Monitor (Event Service) where
  State := Routing
  next := Routing.step
  allows q e :=
    match e.call with
    | .setNxEx key t => ∃ opp, q.asked = some opp ∧ key = dedupKey opp ∧ t = ttl
    | .xadd stream fields => stream = opportunitiesStream →
        ∃ opp rest, q.owed = opp :: rest ∧ fields = opp.toRedis
    | .xreadgroup group names _ => opportunitiesStream ∈ names →
        group = executorGroup ∧ names = [opportunitiesStream]
    | .note (.started opp) => ∃ rest, q.todo = opp :: rest
    | _ => True

variable {ttl : ℚ} {can : (c : Call) → Except PyExc c.Reply → Prop}

theorem step_readOther (q : Routing) (group : String) {names : List String} (count : ℕ)
    (h : opportunitiesStream ∉ names)
    (r : Except PyExc (List (String × List (Entry Fields)))) :
    q.step ⟨.xreadgroup group names count, r⟩ = { q with owed := [] } := by
  simp [Routing.step, h]

theorem step_readOpportunities (q : Routing) (group : String) {names : List String} (count : ℕ)
    (h : opportunitiesStream ∈ names)
    (r : Except PyExc (List (String × List (Entry Fields)))) :
    q.step ⟨.xreadgroup group names count, r⟩ = { q with todo := parsed (batchOf r) } := by
  simp [Routing.step, h]

end

def World.backlog (w : World) : List Fields :=
  (w.streams opportunitiesStream).entries.drop
    ((w.streams opportunitiesStream).groups executorGroup).delivered

def World.unread (w : World) (key : String) : ℕ := w.backlog.countP (onRoute key)

def World.OwnOpportunities (w : World) : Prop :=
  ∀ k, ∀ a ∈ (w.outside k).arrivals, a.1 ≠ opportunitiesStream

theorem arrive_opportunities {w : World} (h : w.OwnOpportunities) :
    w.arrive.streams opportunitiesStream = w.streams opportunitiesStream := by
  have hnone : w.now.arrivals.filter (fun a => a.1 = opportunitiesStream) = [] := by
    refine List.filter_eq_nil_iff.mpr fun a ha => ?_
    simpa using h w.tick a ha
  simp [World.arrive, hnone, Streams.Log.append]

theorem backlog_arrive {w : World} (h : w.OwnOpportunities) : w.arrive.backlog = w.backlog := by
  rw [World.backlog, World.backlog, arrive_opportunities h]

/-- The calls that change what is in the stream or has been handed out of it. -/
def Call.movesOpportunities : Call → Bool
  | .xadd stream _ => stream = opportunitiesStream
  | .xreadgroup _ names _ => opportunitiesStream ∈ names
  | _ => false

theorem effect_backlog (w : World) {c : Call} (hc : c.movesOpportunities = false) :
    (w.effect c).backlog = w.backlog := by
  cases c with
  | xadd stream fields =>
    have hother : opportunitiesStream ≠ stream := by
      simpa [Call.movesOpportunities, eq_comm] using hc
    simp [World.backlog, World.effect, World.setStream, Function.update_of_ne hother]
  | xreadgroup group names count =>
    have hother : opportunitiesStream ∉ names := by simpa [Call.movesOpportunities] using hc
    simp [World.backlog, World.effect, World.deliverAll, hother]
  | xack stream group ids =>
    by_cases hs : opportunitiesStream = stream
    · subst hs
      by_cases hg : executorGroup = group
      · subst hg
        simp [World.backlog, World.effect, World.setStream, Streams.Log.ack, Streams.Log.setGroup]
      · simp [World.backlog, World.effect, World.setStream, Streams.Log.ack, Streams.Log.setGroup,
          Function.update_of_ne hg]
    · simp [World.backlog, World.effect, World.setStream, Function.update_of_ne hs]
  | _ => rfl

theorem serve_backlog {w : World} (h : w.OwnOpportunities) {c : Call}
    (hc : c.movesOpportunities = false) : (World.serve c w).2.backlog = w.backlog := by
  rw [serve_snd]
  split
  · exact (effect_backlog w.arrive hc).trans (backlog_arrive h)
  · exact backlog_arrive h

theorem serve_publish {w : World} (h : w.OwnOpportunities) (fields : Fields) (key : String) :
    (World.serve (.xadd opportunitiesStream fields) w).2.unread key ≤
      w.unread key + if onRoute key fields then 1 else 0 := by
  rw [serve_snd]
  split
  · rw [World.unread, World.unread, ← backlog_arrive h]
    simp only [World.backlog, World.effect, World.next, World.setStream, Function.update_self,
      Streams.Log.append, List.drop_append, List.countP_append]
    refine Nat.add_le_add_left ?_ _
    refine ((List.drop_sublist _ _).countP_le).trans ?_
    simp
  · rw [World.unread, World.unread, ← backlog_arrive h]
    exact Nat.le_add_right _ _

theorem batchOf_readGroup (w : World) (count : ℕ) :
    batchOf (.ok (w.readGroup executorGroup [opportunitiesStream] count)) =
      (w.streams opportunitiesStream).fresh executorGroup count := by
  cases hfresh : (w.streams opportunitiesStream).fresh executorGroup count with
  | nil => simp [World.readGroup, hfresh, batchOf]
  | cons entry rest => simp [World.readGroup, hfresh, batchOf]

theorem backlog_deliver (w : World) (count : ℕ) :
    ((w.effect (.xreadgroup executorGroup [opportunitiesStream] count)).next).backlog =
      w.backlog.drop count := by
  simp only [World.backlog, World.effect, World.next, World.deliverAll, List.mem_singleton, if_true]
  exact Streams.drop_deliver _ _ _

theorem serve_read [PyText] {w : World} (h : w.OwnOpportunities) (count : ℕ) (key : String) :
    routeCount key (parsed (batchOf
        (World.serve (.xreadgroup executorGroup [opportunitiesStream] count) w).1)) +
      (World.serve (.xreadgroup executorGroup [opportunitiesStream] count) w).2.unread key ≤
        w.unread key := by
  have hsplit : w.unread key = (w.arrive.backlog.take count).countP (onRoute key) +
      (w.arrive.backlog.drop count).countP (onRoute key) := by
    rw [← List.countP_append, List.take_append_drop, backlog_arrive h, World.unread]
  have hserved : ((w.arrive.effect (.xreadgroup executorGroup [opportunitiesStream] count)).next).unread
      key = (w.arrive.backlog.drop count).countP (onRoute key) := by
    rw [World.unread, backlog_deliver]
  unfold World.serve
  cases hfault : w.fault (.xreadgroup executorGroup [opportunitiesStream] count) with
  | none =>
    have hread := parsed_count key ((w.arrive.streams opportunitiesStream).fresh executorGroup count)
    rw [Streams.fresh_payloads] at hread
    change routeCount key (parsed (batchOf (.ok (w.arrive.readGroup _ _ _)))) + World.unread _ key ≤ _
    rw [batchOf_readGroup, hserved, hsplit]
    exact Nat.add_le_add_right hread _
  | some x =>
    change 0 + World.unread (if x.served then _ else _) key ≤ _
    rw [Nat.zero_add]
    split
    · rw [hserved, hsplit]
      exact Nat.le_add_left _ _
    · exact le_of_eq (congrArg (List.countP _) (backlog_arrive h))

def grants (key : String) : Event Service → Bool
  | ⟨.setNxEx k _, .ok true⟩ => k == key
  | _ => false

structure Granted (ttl : ℚ) (key : String) (since : ℚ) (claims : List ℚ) (w : World) : Prop where
  apart : claims.Pairwise fun a b => a + ttl ≤ b
  kept : ∀ t ∈ claims, ∃ expires, w.expiring key = some expires ∧ t + ttl ≤ expires
  within : ∀ t ∈ claims, since ≤ t ∧ t ≤ w.now.clock
  since_le : since ≤ w.now.clock

section
variable {ttl since : ℚ} {key : String} {claims : List ℚ} {w w' : World}

theorem Granted.later (h : Granted ttl key since claims w) (hclock : w.now.clock ≤ w'.now.clock)
    (hkey : w'.expiring key = w.expiring key ∨ w'.expiring key = some (w.now.clock + ttl)) :
    Granted ttl key since claims w' where
  apart := h.apart
  kept t ht := by
    rcases hkey with hsame | hset
    · rw [hsame]
      exact h.kept t ht
    · exact ⟨_, hset, add_le_add_left (h.within t ht).2 ttl⟩
  within t ht := ⟨(h.within t ht).1, (h.within t ht).2.trans hclock⟩
  since_le := h.since_le.trans hclock

theorem Granted.grant (h : Granted ttl key since claims w) (hclock : w.now.clock ≤ w'.now.clock)
    (hfree : held w.expiring key w.now.clock = false)
    (hkey : w'.expiring key = some (w.now.clock + ttl)) :
    Granted ttl key since (claims ++ [w.now.clock]) w' := by
  have hlater := h.later hclock (.inr hkey)
  refine ⟨?_, ?_, ?_, hlater.since_le⟩
  · refine List.pairwise_append.mpr ⟨h.apart, List.pairwise_singleton _ _, fun a ha b hb => ?_⟩
    obtain rfl := List.mem_singleton.mp hb
    obtain ⟨expires, hexpires, hle⟩ := h.kept a ha
    simp only [held, hexpires, decide_eq_false_iff_not, not_lt] at hfree
    exact hle.trans hfree
  · intro t ht
    rcases List.mem_append.mp ht with ht | ht
    · exact hlater.kept t ht
    · obtain rfl := List.mem_singleton.mp ht
      exact ⟨_, hkey, le_rfl⟩
  · intro t ht
    rcases List.mem_append.mp ht with ht | ht
    · exact hlater.within t ht
    · obtain rfl := List.mem_singleton.mp ht
      exact ⟨h.since_le, hclock⟩

theorem serve_key {c : Call} (hc : ∀ k t, c = .setNxEx k t → t = ttl) :
    (World.serve c w).2.expiring key = w.expiring key ∨
      (World.serve c w).2.expiring key = some (w.now.clock + ttl) := by
  rw [serve_snd]
  split
  · cases c with
    | setNxEx k t =>
      obtain rfl := hc k t rfl
      exact claim_key w.expiring k w.now.clock t key
    | _ => exact .inl rfl
  · exact .inl rfl

theorem serve_granted {c : Call} (hc : ∀ k t, c = .setNxEx k t → t = ttl)
    (h : grants key ⟨c, (World.serve c w).1⟩ = true) :
    held w.expiring key w.now.clock = false ∧
      (World.serve c w).2.expiring key = some (w.now.clock + ttl) := by
  cases c with
  | setNxEx k t =>
    obtain rfl := hc k t rfl
    unfold World.serve at h ⊢
    cases hfault : w.fault (.setNxEx k t) with
    | some x =>
      rw [hfault] at h
      cases h
    | none =>
      rw [hfault] at h
      cases hheld : held w.expiring k w.now.clock with
      | true =>
        have hno : w.arrive.answer (.setNxEx k t) = false := congrArg Prod.fst (claim_held hheld)
        simp [grants, hno] at h
      | false =>
        have hyes : w.arrive.answer (.setNxEx k t) = true := congrArg Prod.fst (claim_free hheld)
        obtain rfl : k = key := by simpa [grants, hyes] using h
        refine ⟨hheld, ?_⟩
        change (claim w.expiring k w.now.clock t).2 k = _
        rw [claim_free hheld]
        exact Function.update_self ..
  | _ => cases h

theorem Granted.serve (h : Granted ttl key since claims w)
    (hclock : Monotone fun k => (w.outside k).clock) {c : Call}
    (hc : ∀ k t, c = .setNxEx k t → t = ttl) :
    Granted ttl key since
      (claims ++ if grants key ⟨c, (World.serve c w).1⟩ then [w.now.clock] else [])
      (World.serve c w).2 := by
  split
  · rename_i hgrant
    obtain ⟨hfree, hkey⟩ := serve_granted hc hgrant
    exact h.grant (serve_clock hclock c) hfree hkey
  · rw [List.append_nil]
    exact h.later (serve_clock hclock c) (serve_key hc)

end

def Call.starts (key : String) : Call → Bool
  | .note (.started opp) => dedupKey opp == key
  | _ => false

section
variable [PyText] {ttl : ℚ} {key : String} {w : World} {q : Routing}

/-- What a task may still start without another claim, and what of it others may start for it. -/
def Routing.share (key : String) (q : Routing) : ℕ := routeCount key q.todo + routeCount key q.owed

theorem step_share (hown : w.OwnOpportunities) {c : Call}
    (hallows : (routing ttl).allows q ⟨c, (World.serve c w).1⟩) :
    (if c.starts key then 1 else 0) + (q.step ⟨c, (World.serve c w).1⟩).share key +
        (World.serve c w).2.unread key ≤
      q.share key + w.unread key + if grants key ⟨c, (World.serve c w).1⟩ then 1 else 0 := by
  have hstay : ∀ {c : Call}, c.movesOpportunities = false →
      (World.serve c w).2.unread key = w.unread key := fun hc =>
    congrArg (List.countP _) (serve_backlog hown hc)
  cases c with
  | setNxEx k t =>
    obtain ⟨opp, hasked, rfl, -⟩ := hallows
    rw [hstay rfl]
    rcases (World.serve (.setNxEx (dedupKey opp) t) w).1 with x | (_ | _)
    · simp [Routing.step, Routing.share, Call.starts, grants]
    · simp [Routing.step, Routing.share, Call.starts, grants]
    · cases hkey : dedupKey opp == key <;>
        simp [Routing.step, Routing.share, Call.starts, grants, hasked, routeCount, hkey]
      omega
  | xadd stream fields =>
    by_cases hs : stream = opportunitiesStream
    · subst hs
      obtain ⟨opp, rest, howed, rfl⟩ := hallows rfl
      have hadd := serve_publish hown opp.toRedis key
      have hkey : onRoute key opp.toRedis = (dedupKey opp == key) := by
        simp [onRoute, routeKey_toRedis]
      rw [hkey] at hadd
      simp only [Routing.step, Routing.share, Call.starts, grants, howed, routeCount_cons,
        List.tail_cons, Bool.false_eq_true, if_true, if_false]
      omega
    · rw [hstay (by simpa [Call.movesOpportunities] using hs)]
      simp [Routing.step, Routing.share, Call.starts, grants, hs]
  | xreadgroup group names count =>
    by_cases hs : opportunitiesStream ∈ names
    · obtain ⟨rfl, rfl⟩ := hallows hs
      have hread := serve_read hown count key
      rw [step_readOpportunities q executorGroup count hs]
      simp only [Routing.share, Call.starts, grants, Bool.false_eq_true, if_false]
      omega
    · rw [hstay (by simpa [Call.movesOpportunities] using hs), step_readOther q group count hs]
      simp [Routing.share, Call.starts, grants, routeCount]
  | note n =>
    rw [hstay rfl]
    cases n with
    | started opp =>
      obtain ⟨rest, htodo⟩ := hallows
      cases hkey : dedupKey opp == key <;>
        simp [Routing.step, Routing.share, Call.starts, grants, htodo, hkey]
      omega
    | _ => simp [Routing.step, Routing.share, Call.starts, grants]
  | _ =>
    rw [hstay rfl]
    simp [Routing.step, Routing.share, Call.starts, grants]

/-- A scanner or an executor, with the number of its iterations. -/
inductive Worker where
  | scanner (n : ℕ)
  | executor (engine : Engine) (n : ℕ)

def Worker.task (ttl : ℚ) : Worker → Task Unit
  | .scanner n => scanLoop ttl n
  | .executor engine n => consumeLoop engine n

variable {ι : Type} [DecidableEq ι] [Fintype ι]

/-- The clock and the keys of a run, and what the tasks have started out of the claims. -/
def Paid (ttl : ℚ) (key : String) (w w' : World) (q : ι → Routing) (started : ℕ) : Prop :=
  w'.outside = w.outside ∧ ∃ claims, Granted ttl key w.now.clock claims w' ∧
    started + ∑ i, (q i).share key + w'.unread key ≤ w.unread key + claims.length

theorem Paid.step (hclock : Monotone fun k => (w.outside k).clock) (hown : w.OwnOpportunities)
    {w' : World} {q : ι → Routing} {started : ℕ} (h : Paid ttl key w w' q started) (i : ι)
    {c : Call} (hallows : (routing ttl).allows (q i) ⟨c, (World.serve c w').1⟩) :
    Paid ttl key w (World.serve c w').2
      (Function.update q i ((q i).step ⟨c, (World.serve c w').1⟩))
      (started + if c.starts key then 1 else 0) := by
  obtain ⟨houtside, claims, hgranted, hpaid⟩ := h
  have hclock' : Monotone fun k => (w'.outside k).clock := by rwa [houtside]
  have hown' : w'.OwnOpportunities := by rwa [World.OwnOpportunities, houtside]
  have hkey : ∀ k t, c = .setNxEx k t → t = ttl := by
    rintro k t rfl
    obtain ⟨opp, -, -, ht⟩ := hallows
    exact ht
  refine ⟨(serve_outside c w').trans houtside, _, hgranted.serve hclock' hkey, ?_⟩
  have hstep := @step_share _ ttl key w' (q i) hown' c hallows
  have hsum := sum_update (Routing.share key) q i ((q i).step ⟨c, (World.serve c w').1⟩)
  rw [List.length_append, apply_ite List.length]
  change _ ≤ _ + (_ + if _ then 1 else 0)
  omega

end

end CriptoParser
