import CriptoParser.AwaitRules
import CriptoParser.NotifierLoop

set_option autoImplicit false

namespace CriptoParser

open Await Streams

section
variable [PyText] [PyFormat]

/-- What an entry is measured by, and its text; `none` where it cannot be read. -/
def measured (stream : String) (fields : Fields) : Option (ℚ × Except PyExc String) :=
  if stream = opportunitiesStream then
    (Opportunity.fromRedis fields).toOption.map fun opp =>
      (opp.grossSpreadPct, formatOpportunity opp)
  else if stream = tradesStream then
    (Trade.fromRedis fields).toOption.map fun trade => (|trade.netPnl|, .ok (formatTrade trade))
  else none

/-- An entry, and the threshold in force when it is handled. -/
structure Judged where
  stream : String
  fields : Fields
  threshold : PyFloat

namespace Judged

def entry (z : Judged) : String × Fields := (z.stream, z.fields)

def alert (z : Judged) : Option String :=
  (measured z.stream z.fields).bind fun m =>
    if z.threshold.le (.finite m.1) then m.2.toOption else none

def suppressed (z : Judged) : Bool :=
  z.stream = tradesStream &&
    (measured z.stream z.fields).any fun m => !z.threshold.le (.finite m.1)

def reading (z : Judged) : Option (String × PyFloat) :=
  (measured z.stream z.fields).map fun _ => (z.stream, z.threshold)

end Judged

end

def attempted (e : Event Notifier) : Option (String × String) :=
  match e.call with
  | .telegram (.lpush key p) => if key = queueKey then some (p.chatId, p.text) else none
  | _ => none

def pushAttempts (es : List (Event Notifier)) : List (String × String) := es.filterMap attempted

def countsSuppressed (e : Event Notifier) : Bool :=
  match e.call with
  | .countSuppressed => true
  | _ => false

def readThreshold : Event Notifier → Option (String × PyFloat)
  | ⟨.spreadThreshold, .ok t⟩ => some (opportunitiesStream, t)
  | ⟨.tradeMinPnl, .ok t⟩ => some (tradesStream, t)
  | _ => none

/-- The entries of a reply, in the order in which the loop goes through them. -/
def replyEntries : List (String × List (Entry Fields)) → List (String × Fields)
  | [] => []
  | (stream, entries) :: rest =>
    entries.map (fun entry => (stream, entry.payload)) ++ replyEntries rest

def handedBy : Event Notifier → List (String × Fields)
  | ⟨.xreadgroup _ _, .ok resp⟩ => replyEntries resp
  | _ => []

def handedOut (es : List (Event Notifier)) : List (String × Fields) := es.flatMap handedBy

def ackFails : Event Notifier → Bool
  | ⟨.xack _ _, .error _⟩ => true
  | _ => false

/-- The run is cancelled, or an acknowledgement has raised. -/
def Interrupted (es : List (Event Notifier)) (r : Except PyExc Unit) : Prop :=
  (∃ x, r = .error x ∧ x.isException = false) ∨ ∃ e ∈ es, ackFails e = true

def NotifierCall.aside : NotifierCall → Bool
  | .sleep _ | .xack _ _ | .xreadgroup _ _ => true
  | _ => false

def NotifierCall.sure : NotifierCall → Bool
  | .telegram .time | .spreadThreshold | .tradeMinPnl | .countSuppressed => true
  | _ => false

def Answering (c : NotifierCall) (a : Except PyExc c.Reply) : Prop :=
  c.sure = true → ∃ v, a = .ok v

def NotifierCall.onlyPushes : NotifierCall → Bool
  | .telegram .time => true
  | .telegram (.lpush key _) => key = queueKey
  | .telegram _ => false
  | _ => true

abbrev notes : Monitor (Event Notifier) := .history fun _ e => e.call.onlyPushes = true

section
variable [PyText] [PyFormat]

/-- The events are those of handling these entries with these thresholds. -/
structure Judging (chat : String) (zs : List Judged) (es : List (Event Notifier)) : Prop where
  alerts : pushAttempts es = (zs.filterMap Judged.alert).map (Prod.mk chat)
  suppressed : es.countP countsSuppressed = zs.countP Judged.suppressed
  readings : es.filterMap readThreshold = zs.filterMap Judged.reading

theorem Judging.nil {chat : String} : Judging chat [] [] := ⟨rfl, rfl, rfl⟩

theorem Judging.append {chat : String} {zs ys : List Judged} {es fs : List (Event Notifier)}
    (h : Judging chat zs es) (h' : Judging chat ys fs) : Judging chat (zs ++ ys) (es ++ fs) where
  alerts := by
    rw [pushAttempts, List.filterMap_append, List.filterMap_append, List.map_append]
    exact congrArg₂ _ h.alerts h'.alerts
  suppressed := by rw [List.countP_append, List.countP_append, h.suppressed, h'.suppressed]
  readings := by rw [List.filterMap_append, List.filterMap_append, h.readings, h'.readings]

theorem Judging.aside {chat : String} {e : Event Notifier} (he : e.call.aside = true) :
    Judging chat [] [e] := by
  obtain ⟨c, a⟩ := e
  cases c <;> first | exact ⟨rfl, rfl, rfl⟩ | cases he

def Tries (chat stream : String) (fields : Fields) (p : Prog Notifier Unit) : Prop :=
  ∀ log : List (Event Notifier), p.Meets notes Answering log fun _ log' =>
    ∃ es z, log' = log ++ es ∧ handedOut es = [] ∧ z.entry = (stream, fields) ∧
      Judging chat [z] es

omit [PyFormat] in
theorem enqueue_meets {chat text : String} {log : List (Event Notifier)}
    {post : Except PyExc String → List (Event Notifier) → Prop}
    (h : ∀ now id a, post (a.map fun _ => id) (log ++ [⟨.telegram .time, .ok now⟩] ++
      [⟨.telegram (.lpush queueKey ⟨chat, text, id, none⟩), a⟩])) :
    (overQueue (enqueue chat text none)).Meets notes Answering log post := by
  intro a ha
  refine ⟨rfl, ?_⟩
  rcases a with x | now
  · obtain ⟨v, hv⟩ := ha rfl
    cases hv
  · intro b _
    refine ⟨rfl, ?_⟩
    rcases b with x | u
    · exact h now _ (.error x)
    · exact h now _ (.ok u)

theorem Judging.unread {chat : String} {z : Judged} (h : measured z.stream z.fields = none) :
    Judging chat [z] [] := by
  refine ⟨?_, ?_, ?_⟩
  · simp [Judged.alert, h, pushAttempts]
  · simp [Judged.suppressed, h]
  · simp [Judged.reading, h]

theorem Judging.sent {chat : String} {z : Judged} {q : ℚ} {text : String} {e : Event Notifier}
    (h : measured z.stream z.fields = some (q, .ok text))
    (hle : z.threshold.le (.finite q) = true) (he : readThreshold e = some (z.stream, z.threshold))
    (hother : attempted e = none ∧ countsSuppressed e = false) (now : ℚ) (id : String)
    (a : Except PyExc Unit) :
    Judging chat [z] [e, ⟨.telegram .time, .ok now⟩,
      ⟨.telegram (.lpush queueKey ⟨chat, text, id, none⟩), a⟩] := by
  obtain ⟨hpush, hcount⟩ := hother
  refine ⟨?_, ?_, ?_⟩
  · rw [pushAttempts, List.filterMap_cons_none hpush]
    simp only [Judged.alert, h, hle, Except.toOption, List.filterMap_cons, Option.bind_some, if_true]
    rfl
  · rw [List.countP_cons_of_neg (by simp [hcount])]
    simp only [Judged.suppressed, h, hle, List.countP_cons, Option.any_some, Bool.not_true,
      Bool.and_false]
    rfl
  · rw [List.filterMap_cons_some he]
    simp only [Judged.reading, h, List.filterMap_cons, Option.map_some]
    rfl

theorem notifyTrade_tries (chat : String) (fields : Fields) :
    Tries chat tradesStream fields (notifyTrade chat fields) := by
  intro log
  unfold notifyTrade
  have hother : tradesStream ≠ opportunitiesStream := by decide
  cases hparse : Trade.fromRedis fields with
  | error x =>
    have hnone : measured tradesStream fields = none := by
      simp [measured, hparse, hother, Except.toOption]
    exact ⟨[], ⟨tradesStream, fields, .finite 0⟩, (List.append_nil _).symm, rfl, rfl,
      .unread hnone⟩
  | ok trade =>
    have hsome : measured tradesStream fields = some (|trade.netPnl|, .ok (formatTrade trade)) := by
      simp [measured, hparse, hother, Except.toOption]
    refine (Prog.meets_call_bind _ _ _).mpr ⟨fun t _ => ⟨rfl, ?_⟩, fun x hx => ?_⟩
    · split
      · rename_i hle
        rw [Prog.meets_bind]
        refine enqueue_meets fun now id a => ?_
        have hjudging : Judging chat [⟨tradesStream, fields, t⟩] [⟨.tradeMinPnl, .ok t⟩,
            ⟨.telegram .time, .ok now⟩,
            ⟨.telegram (.lpush queueKey ⟨chat, formatTrade trade, id, none⟩), a⟩] :=
          .sent hsome hle rfl ⟨rfl, rfl⟩ now id a
        cases a with
        | error x => exact ⟨_, _, by simp, rfl, rfl, hjudging⟩
        | ok u => exact ⟨_, _, by simp, rfl, rfl, hjudging⟩
      · rename_i hle
        refine (Prog.meets_call _ _).mpr fun a _ => ⟨rfl, ?_⟩
        refine ⟨[⟨.tradeMinPnl, .ok t⟩, ⟨.countSuppressed, a⟩], ⟨tradesStream, fields, t⟩,
          by simp, rfl, rfl, ?_⟩
        refine ⟨?_, ?_, ?_⟩
        · simp [Judged.alert, hsome, hle, pushAttempts, attempted]
        · simp [Judged.suppressed, hsome, hle, countsSuppressed]
        · simp [Judged.reading, hsome, readThreshold]
    · obtain ⟨v, hv⟩ := hx rfl
      cases hv

theorem notifyOpportunity_tries (chat : String) (fields : Fields) :
    Tries chat opportunitiesStream fields (notifyOpportunity chat fields) := by
  intro log
  unfold notifyOpportunity
  have hother : opportunitiesStream ≠ tradesStream := by decide
  cases hparse : Opportunity.fromRedis fields with
  | error x =>
    have hnone : measured opportunitiesStream fields = none := by
      simp [measured, hparse, Except.toOption]
    exact ⟨[], ⟨opportunitiesStream, fields, .finite 0⟩, (List.append_nil _).symm, rfl, rfl,
      .unread hnone⟩
  | ok opp =>
    have hsome : measured opportunitiesStream fields =
        some (opp.grossSpreadPct, formatOpportunity opp) := by
      simp [measured, hparse, Except.toOption]
    refine (Prog.meets_call_bind _ _ _).mpr ⟨fun t _ => ⟨rfl, ?_⟩, fun x hx => ?_⟩
    · split
      · rename_i hle
        cases htext : formatOpportunity opp with
        | error x =>
          refine ⟨[⟨.spreadThreshold, .ok t⟩], ⟨opportunitiesStream, fields, t⟩, rfl, rfl, rfl, ?_⟩
          refine ⟨?_, ?_, ?_⟩
          · simp [Judged.alert, hsome, htext, hle, pushAttempts, attempted, Except.toOption]
          · simp [Judged.suppressed, hother, countsSuppressed]
          · simp [Judged.reading, hsome, readThreshold]
        | ok text =>
          rw [htext] at hsome
          change Prog.Meets notes Answering
            (overQueue (enqueue chat text none) >>= fun _ => pure ()) _ _
          rw [Prog.meets_bind]
          refine enqueue_meets fun now id a => ?_
          have hjudging : Judging chat [⟨opportunitiesStream, fields, t⟩]
              [⟨.spreadThreshold, .ok t⟩, ⟨.telegram .time, .ok now⟩,
              ⟨.telegram (.lpush queueKey ⟨chat, text, id, none⟩), a⟩] :=
            .sent hsome hle rfl ⟨rfl, rfl⟩ now id a
          cases a with
          | error x => exact ⟨_, _, by simp, rfl, rfl, hjudging⟩
          | ok u => exact ⟨_, _, by simp, rfl, rfl, hjudging⟩
      · rename_i hle
        refine ⟨[⟨.spreadThreshold, .ok t⟩], ⟨opportunitiesStream, fields, t⟩, rfl, rfl, rfl, ?_⟩
        refine ⟨?_, ?_, ?_⟩
        · simp [Judged.alert, hsome, hle, pushAttempts, attempted]
        · simp [Judged.suppressed, hother, countsSuppressed]
        · simp [Judged.reading, hsome, readThreshold]
    · obtain ⟨v, hv⟩ := hx rfl
      cases hv

/-- After `log` the program goes through the entries in their order, to the end unless it is
interrupted. -/
def Handles (chat : String) (entries : List (String × Fields)) (p : Prog Notifier Unit) : Prop :=
  ∀ log : List (Event Notifier), p.Meets notes Answering log fun r log' =>
    ∃ es zs, log' = log ++ es ∧ handedOut es = [] ∧ Judging chat zs es ∧
      zs.map Judged.entry <+: entries ∧
      (r = .ok () ∧ zs.map Judged.entry = entries ∨ (∃ x, r = .error x) ∧ Interrupted es r)

omit [PyText] [PyFormat] in
theorem handedOut_append (es fs : List (Event Notifier)) :
    handedOut (es ++ fs) = handedOut es ++ handedOut fs := List.flatMap_append

omit [PyText] [PyFormat] in
theorem Interrupted.append {es : List (Event Notifier)} {u : Unit}
    (h : Interrupted es (.ok u)) (fs : List (Event Notifier)) (r : Except PyExc Unit) :
    Interrupted (es ++ fs) r := by
  rcases h with ⟨x, hx, -⟩ | ⟨e, he, hfails⟩
  · cases hx
  · exact .inr ⟨e, List.mem_append_left _ he, hfails⟩

omit [PyText] [PyFormat] in
theorem Interrupted.later {fs : List (Event Notifier)} {r : Except PyExc Unit}
    (h : Interrupted fs r) (es : List (Event Notifier)) : Interrupted (es ++ fs) r := by
  rcases h with hx | ⟨e, he, hfails⟩
  · exact .inl hx
  · exact .inr ⟨e, List.mem_append_right _ he, hfails⟩

theorem handles_pure (chat : String) : Handles chat [] (pure ()) := fun log =>
  ⟨[], [], (List.append_nil log).symm, rfl, .nil, List.prefix_rfl, .inl ⟨rfl, rfl⟩⟩

theorem Handles.next {chat : String} {xs ys : List (String × Fields)} {p q : Prog Notifier Unit}
    (hp : Handles chat xs p) (hq : Handles chat ys q) :
    Handles chat (xs ++ ys) (p >>= fun _ => q) := by
  intro log
  rw [Prog.meets_bind]
  refine (hp log).mono ?_
  rintro (x | u) _ ⟨es, zs, rfl, hes, hjudging, hprefix, hend⟩
  · refine ⟨es, zs, rfl, hes, hjudging, hprefix.trans (List.prefix_append _ _), .inr ?_⟩
    rcases hend with ⟨hok, -⟩ | hinterrupted
    · cases hok
    · exact hinterrupted
  · obtain ⟨-, hall⟩ | ⟨⟨x, hx⟩, -⟩ := hend
    · refine (hq _).mono ?_
      rintro r _ ⟨fs, ys', rfl, hfs, hjudging', hprefix', hend'⟩
      refine ⟨es ++ fs, zs ++ ys', List.append_assoc _ _ _, ?_, hjudging.append hjudging', ?_, ?_⟩
      · rw [handedOut_append, hes, hfs]
        rfl
      · rw [List.map_append, hall]
        exact (List.prefix_append_right_inj _).mpr hprefix'
      · rcases hend' with ⟨hr, hall'⟩ | ⟨hr, hinterrupted⟩
        · exact .inl ⟨hr, by rw [List.map_append, hall, hall']⟩
        · exact .inr ⟨hr, hinterrupted.later es⟩
    · cases hx

theorem handleEntry_handles (chat stream : String) (fields : Fields) :
    Handles chat [(stream, fields)] (handleEntry chat stream fields) := by
  have htries : Tries chat stream fields
      (if stream = opportunitiesStream then notifyOpportunity chat fields
        else if stream = tradesStream then notifyTrade chat fields else pure ()) := by
    by_cases hopp : stream = opportunitiesStream
    · subst hopp
      rw [if_pos rfl]
      exact notifyOpportunity_tries chat fields
    · rw [if_neg hopp]
      by_cases htrade : stream = tradesStream
      · subst htrade
        rw [if_pos rfl]
        exact notifyTrade_tries chat fields
      · rw [if_neg htrade]
        have hnone : measured stream fields = none := by simp [measured, hopp, htrade]
        exact fun log => ⟨[], ⟨stream, fields, .finite 0⟩, (List.append_nil _).symm, rfl, rfl,
          .unread hnone⟩
  intro log
  refine (Prog.meets_handle _ _ _).mpr ((htries log).mono ?_)
  rintro (x | u) _ ⟨es, z, rfl, hes, hentry, hjudging⟩
  · change Prog.Meets _ _ (if x.isException then _ else _) _ _
    split
    · exact ⟨es, [z], rfl, hes, hjudging, by simp [hentry], .inl ⟨rfl, by simp [hentry]⟩⟩
    · rename_i hcancelled
      exact ⟨es, [z], rfl, hes, hjudging, by simp [hentry],
        .inr ⟨⟨x, rfl⟩, .inl ⟨x, rfl, by simpa using hcancelled⟩⟩⟩
  · exact ⟨es, [z], rfl, hes, hjudging, by simp [hentry], .inl ⟨rfl, by simp [hentry]⟩⟩

theorem handleEntries_handles (chat stream : String) (entries : List (Entry Fields)) :
    Handles chat (entries.map fun entry => (stream, entry.payload))
      (handleEntries chat stream entries) := by
  induction entries with
  | nil => exact handles_pure chat
  | cons entry rest ih => exact (handleEntry_handles chat stream entry.payload).next ih

theorem acknowledge_handles (chat stream : String) (ids : List ℕ) :
    Handles chat [] (Prog.call (S := Notifier) (.xack stream ids)) := by
  intro log
  refine (Prog.meets_call _ _).mpr fun a _ => ⟨rfl, ?_⟩
  refine ⟨[⟨.xack stream ids, a⟩], [], rfl, rfl, .aside rfl, List.prefix_rfl, ?_⟩
  cases a with
  | ok u => exact .inl ⟨rfl, rfl⟩
  | error x => exact .inr ⟨⟨x, rfl⟩, .inr ⟨_, List.mem_singleton_self _, rfl⟩⟩

theorem handleStreams_handles (chat : String) (resp : List (String × List (Entry Fields))) :
    Handles chat (replyEntries resp) (handleStreams chat resp) := by
  induction resp with
  | nil => exact handles_pure chat
  | cons read rest ih =>
    obtain ⟨stream, entries⟩ := read
    refine (handleEntries_handles chat stream entries).next ?_
    change Handles chat (replyEntries rest) (if entries = [] then _ else _)
    split
    · exact ih
    · exact (acknowledge_handles chat stream (entries.map Entry.id)).next ih

/-- The entries that a part of the loop is given are handled in their order, all of them unless
it is interrupted. -/
def Serves (chat : String) (p : Prog Notifier Unit) : Prop :=
  ∀ log : List (Event Notifier), p.Meets notes Answering log fun r log' =>
    ∃ es zs, log' = log ++ es ∧ Judging chat zs es ∧
      (zs.map Judged.entry).Sublist (handedOut es) ∧
      (zs.map Judged.entry = handedOut es ∨ Interrupted es r)

theorem notifierBody_serves (chat : String) : Serves chat (notifierBody chat) := by
  intro log
  refine (Prog.meets_call_bind _ _ _).mpr ⟨fun resp _ => ⟨rfl, ?_⟩, fun x _ => ⟨rfl, ?_⟩⟩
  · have hall : Handles chat (replyEntries resp)
        (if resp = [] then pure () else handleStreams chat resp) := by
      split
      · rename_i hnone
        subst hnone
        exact handles_pure chat
      · exact handleStreams_handles chat resp
    refine (hall _).mono ?_
    rintro r _ ⟨es, zs, rfl, hes, hjudging, hprefix, hend⟩
    have hgiven : handedOut (⟨.xreadgroup [opportunitiesStream, tradesStream] 50, .ok resp⟩ :: es) =
        replyEntries resp := by
      change replyEntries resp ++ handedOut es = _
      rw [hes, List.append_nil]
    refine ⟨_ :: es, zs, List.append_assoc _ _ _, (Judging.aside rfl).append hjudging, ?_, ?_⟩
    · rw [hgiven]
      exact hprefix.sublist
    · rw [hgiven]
      rcases hend with ⟨-, hall⟩ | ⟨-, hinterrupted⟩
      · exact .inl hall
      · exact .inr (hinterrupted.later [_])
  · exact ⟨[_], [], rfl, .aside rfl, List.nil_sublist _, .inl rfl⟩

theorem Serves.pass {chat : String} {p : Prog Notifier Unit} (hp : Serves chat p) :
    Serves chat (p.handle notifierHandler) := by
  intro log
  refine (Prog.meets_handle _ _ _).mpr ((hp log).mono ?_)
  rintro (x | u) _ ⟨es, zs, rfl, hjudging, hsub, hend⟩
  · change Prog.Meets _ _ (notifierHandler x) _ _
    unfold notifierHandler
    split
    · rename_i hx
      refine (Prog.meets_call _ _).mpr fun a _ => ⟨rfl, ?_⟩
      have hgiven : handedOut (es ++ [⟨.sleep 1, a⟩]) = handedOut es := by
        rw [handedOut_append]
        exact List.append_nil _
      have hjudging' := hjudging.append (@Judging.aside _ _ chat ⟨.sleep 1, a⟩ rfl)
      rw [List.append_nil] at hjudging'
      refine ⟨es ++ [⟨.sleep 1, a⟩], zs, List.append_assoc _ _ _, hjudging', ?_, ?_⟩
      · rw [hgiven]
        exact hsub
      · rw [hgiven]
        rcases hend with hall | ⟨y, hy, hcancelled⟩ | ⟨e, he, hfails⟩
        · exact .inl hall
        · cases hy
          rw [hx] at hcancelled
          cases hcancelled
        · exact .inr (.inr ⟨e, List.mem_append_left _ he, hfails⟩)
    · exact ⟨es, zs, rfl, hjudging, hsub, hend⟩
  · exact ⟨es, zs, rfl, hjudging, hsub, hend⟩

theorem Serves.next {chat : String} {p q : Prog Notifier Unit} (hp : Serves chat p)
    (hq : Serves chat q) : Serves chat (p >>= fun _ => q) := by
  intro log
  rw [Prog.meets_bind]
  refine (hp log).mono ?_
  rintro (x | u) _ ⟨es, zs, rfl, hjudging, hsub, hend⟩
  · exact ⟨es, zs, rfl, hjudging, hsub, hend⟩
  · refine (hq _).mono ?_
    rintro r _ ⟨fs, ys, rfl, hjudging', hsub', hend'⟩
    refine ⟨es ++ fs, zs ++ ys, List.append_assoc _ _ _, hjudging.append hjudging', ?_, ?_⟩
    · rw [handedOut_append, List.map_append]
      exact hsub.append hsub'
    · rw [handedOut_append, List.map_append]
      rcases hend with hall | hinterrupted
      · rcases hend' with hall' | hinterrupted
        · exact .inl (by rw [hall, hall'])
        · exact .inr (hinterrupted.later es)
      · exact .inr (hinterrupted.append fs r)

theorem notifierLoop_serves (chat : String) (n : ℕ) : Serves chat (notifierLoop chat n) := by
  induction n with
  | zero =>
    exact fun log => ⟨[], [], (List.append_nil log).symm, .nil, List.nil_sublist _, .inl rfl⟩
  | succ n ih => exact (notifierBody_serves chat).pass.next ih

end

/-- The chats and the texts of the queue, the newest first. -/
def NotifierWorld.messages (w : NotifierWorld) : List (String × String) :=
  (w.queue.lists queueKey).map fun p => (p.chatId, p.text)

def carriedPush (e : Event Notifier) : Option (String × String) :=
  match e.reply with
  | .ok _ => attempted e
  | .error x => if x.served then attempted e else none

theorem serve_suppressed (c : NotifierCall) (w : NotifierWorld) :
    (NotifierWorld.serve c w).2.tradesSuppressed =
      w.tradesSuppressed + if countsSuppressed ⟨c, (NotifierWorld.serve c w).1⟩ then 1 else 0 := by
  unfold NotifierWorld.serve
  cases c with
  | countSuppressed => rfl
  | _ =>
    split
    · rfl
    · split <;> rfl

theorem serve_messages {c : NotifierCall} (hc : c.onlyPushes = true) (w : NotifierWorld) :
    (NotifierWorld.serve c w).2.messages =
      (carriedPush ⟨c, (NotifierWorld.serve c w).1⟩).toList ++ w.messages := by
  cases c with
  | telegram c =>
    have hserve : NotifierWorld.serve (.telegram c) w = ((QueueWorld.serve c w.queue).1,
        (w.arrive.effect (.telegram c)).next) := rfl
    rw [hserve]
    cases c with
    | time => rfl
    | lpush key p =>
      obtain rfl : key = queueKey := by simpa [NotifierCall.onlyPushes] using hc
      change ((QueueWorld.serve (.lpush queueKey p) w.queue).2.lists queueKey).map _ = _
      unfold QueueWorld.serve
      cases hfault : w.queue.fault (.lpush queueKey p) with
      | none => simp [QueueWorld.effect, QueueWorld.next, carriedPush, attempted, NotifierWorld.messages]
      | some x =>
        cases hserved : x.served with
        | true =>
          simp [QueueWorld.effect, QueueWorld.next, carriedPush, attempted, NotifierWorld.messages,
            hserved]
        | false => simp [QueueWorld.next, carriedPush, NotifierWorld.messages, hserved]
    | _ => cases hc
  | _ =>
    unfold NotifierWorld.serve
    split
    · rfl
    · rename_i x hx
      cases hserved : x.served <;> simp [carriedPush, attempted, hserved] <;> rfl

theorem follows_suppressed {w w' : NotifierWorld} {es : List (Event Notifier)}
    (h : Follows NotifierWorld.serve w es w') :
    w'.tradesSuppressed = w.tradesSuppressed + es.countP countsSuppressed := by
  induction es generalizing w with
  | nil =>
    cases h
    rfl
  | cons e es ih =>
    obtain ⟨c, a⟩ := e
    obtain ⟨hr, h⟩ := h
    change a = (NotifierWorld.serve c w).1 at hr
    subst hr
    rw [ih h, List.countP_cons]
    change (NotifierWorld.serve c w).2.tradesSuppressed + _ = _
    rw [serve_suppressed c w]
    omega

theorem follows_messages {w w' : NotifierWorld} {es : List (Event Notifier)}
    (h : Follows NotifierWorld.serve w es w') (hes : ∀ e ∈ es, e.call.onlyPushes = true) :
    w'.messages = (es.filterMap carriedPush).reverse ++ w.messages := by
  induction es generalizing w with
  | nil =>
    cases h
    rfl
  | cons e es ih =>
    obtain ⟨c, a⟩ := e
    obtain ⟨hr, h⟩ := h
    change a = (NotifierWorld.serve c w).1 at hr
    subst hr
    rw [ih h fun d hd => hes d (List.mem_cons_of_mem _ hd), List.filterMap_cons]
    change _ ++ (NotifierWorld.serve c w).2.messages = _
    rw [serve_messages (hes _ List.mem_cons_self) w]
    cases carriedPush ⟨c, (NotifierWorld.serve c w).1⟩ <;> simp

theorem gives_answering {c : NotifierCall} {a : Except PyExc c.Reply}
    (h : Gives NotifierWorld.serve c a) : Answering c a := by
  obtain ⟨w, rfl⟩ := h
  intro hc
  cases c with
  | telegram c =>
    cases c with
    | time => exact ⟨_, rfl⟩
    | _ => cases hc
  | spreadThreshold => exact ⟨_, rfl⟩
  | tradeMinPnl => exact ⟨_, rfl⟩
  | countSuppressed => exact ⟨_, rfl⟩
  | _ => cases hc

theorem notes_accepts {log es : List (Event Notifier)} (h : notes.Accepts log es) :
    ∀ e ∈ es, e.call.onlyPushes = true := by
  induction es generalizing log with
  | nil => simp
  | cons e es ih =>
    intro d hd
    rcases List.mem_cons.mp hd with rfl | hd
    · exact h.1
    · exact ih h.2 d hd

/-- Every entry that is handed out is measured against the threshold that is in force when its
turn comes, in the order in which the entries were handed out, and only those that reach it are
pushed, once each. Only a cancellation or an acknowledgement that raises leaves entries out. -/
theorem alerts_exact [PyText] [PyFormat] (chat : String) (n : ℕ) (w : NotifierWorld) :
    let es := (notifierLoop chat n).trace NotifierWorld.serve w
    let out := (notifierLoop chat n).run NotifierWorld.serve w
    ∃ zs : List Judged, Judging chat zs es ∧ (zs.map Judged.entry).Sublist (handedOut es) ∧
      (zs.map Judged.entry = handedOut es ∨ Interrupted es out.1) ∧
      out.2.tradesSuppressed = w.tradesSuppressed + zs.countP Judged.suppressed ∧
      out.2.messages = (es.filterMap carriedPush).reverse ++ w.messages := by
  intro es out
  have hfollows := (notifierLoop chat n).follows_trace NotifierWorld.serve w
  have hends := (notifierLoop chat n).ends_trace NotifierWorld.serve w
  obtain ⟨haccepts, es', zs, hlog, hjudging, hsub, hend⟩ := (notifierLoop_serves chat n []).ends hends
    fun e he => gives_answering (hfollows.gives e he)
  rw [Monitor.history_after, List.nil_append, List.nil_append] at hlog
  subst hlog
  refine ⟨zs, hjudging, hsub, hend, ?_, follows_messages hfollows (notes_accepts haccepts)⟩
  rw [follows_suppressed hfollows, hjudging.suppressed]

end CriptoParser
