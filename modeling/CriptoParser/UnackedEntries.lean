import CriptoParser.BalanceLedger
import CriptoParser.ExecutorLoop
import CriptoParser.NotifierLoop
import CriptoParser.PendingEntries
import CriptoParser.ScannerStores

/-!
The four consumer loops: what an iteration that raises leaves unacknowledged is never read again,
since every read asks for `>` only.
-/

set_option autoImplicit false

namespace CriptoParser

open Await Streams

def Call.onGroup (group : String) : Call → StreamCall
  | .xreadgroup g _ _ => if g = group then .read else .other
  | .xack stream g ids => if g = group then .ack stream ids else .other
  | _ => .other

theorem Call.onGroup_ack {group stream : String} {ids : List ℕ} {c : Call}
    (h : c.onGroup group = .ack stream ids) : c = .xack stream group ids := by
  cases c with
  | xack name g ids' =>
    by_cases hg : g = group
    · subst hg
      have hack : StreamCall.ack name ids' = .ack stream ids := by simpa [Call.onGroup] using h
      cases hack
      rfl
    · simp [Call.onGroup, hg] at h
  | xreadgroup g names count =>
    by_cases hg : g = group
    · simp [Call.onGroup, hg] at h
    · simp [Call.onGroup, hg] at h
  | _ => cases h

theorem Call.onGroup_read {group : String} {c : Call} (h : c.onGroup group = .read) :
    ∃ names count, c = .xreadgroup group names count := by
  cases c with
  | xreadgroup g names count =>
    by_cases hg : g = group
    · subst hg
      exact ⟨names, count, rfl⟩
    · simp [Call.onGroup, hg] at h
  | xack name g ids =>
    by_cases hg : g = group
    · simp [Call.onGroup, hg] at h
    · simp [Call.onGroup, hg] at h
  | _ => cases h

def Call.fresh (group : String) : Call → World → Batch
  | .xreadgroup _ names count, w => Batch.ofReply (newEntries w.arrive.streams group names count)
  | _, _ => []

def Call.returned : (c : Call) → c.Reply → Batch
  | .xreadgroup _ _ _, reply => Batch.ofReply reply
  | _, _ => []

namespace World

def groupsOf (group : String) (w : World) : String → Group := fun s => (w.streams s).groups group

theorem serve_state (c : Call) (w : World) :
    (World.serve c w).2 =
      if carriedBy PyExc.served (World.serve c w).1 = true then (w.arrive.effect c).next
      else w.arrive.next := by
  have hcarried : carriedOut ⟨c, (World.serve c w).1⟩ =
      carriedBy PyExc.served (World.serve c w).1 := by
    cases h : (World.serve c w).1 with
    | ok v => rfl
    | error x => rfl
  rw [serve_snd, hcarried]

theorem effect_groups (group : String) {c : Call} (w : World)
    (h : c.onGroup group = .other) : (w.effect c).groupsOf group = w.groupsOf group := by
  funext stream
  cases c with
  | xadd name fields =>
    by_cases hname : stream = name
    · subst hname
      simp [groupsOf, effect, setStream]
    · simp [groupsOf, effect, setStream, Function.update_of_ne hname]
  | xreadgroup g names count =>
    have hg : group ≠ g := by
      rintro rfl
      simp [Call.onGroup] at h
    simp only [groupsOf, effect, deliverAll]
    split
    · exact groups_deliver_other _ g group count hg
    · rfl
  | xack name g ids =>
    have hg : group ≠ g := by
      rintro rfl
      simp [Call.onGroup] at h
    by_cases hname : stream = name
    · subst hname
      simp [groupsOf, effect, setStream, Log.ack, Log.setGroup, Function.update_of_ne hg]
    · simp [groupsOf, effect, setStream, Function.update_of_ne hname]
  | _ => rfl

theorem serve_groups (group : String) {c : Call} (w : World)
    (h : c.onGroup group = .other) :
    ((World.serve c w).2).groupsOf group = w.groupsOf group := by
  rw [serve_state]
  split
  · exact effect_groups group w.arrive h
  · rfl

end World

/-- A service of the shared world that consumes through `group`. -/
def serviceConsumer (group : String) : Consumer Service World where
  serve := World.serve
  groups := World.groupsOf group
  kind := Call.onGroup group
  fresh := Call.fresh group
  returned := Call.returned
  served := PyExc.served
  other_groups := fun c w h => World.serve_groups group w h
  lost_groups := fun c w h => by
    rw [World.serve_state, h]
    rfl
  ack_groups := fun c w stream ids hkind h => by
    rw [World.serve_state, if_pos h]
    obtain rfl := Call.onGroup_ack hkind
    exact groups_acked w.arrive.streams group stream ids
  read_groups := fun c w hkind h => by
    rw [World.serve_state, if_pos h]
    obtain ⟨names, count, rfl⟩ := Call.onGroup_read hkind
    funext stream
    exact groups_delivered w.arrive.streams group names count stream
  fresh_ids := fun c w stream => by
    cases c with
    | xreadgroup g names count => exact newEntries_ids w.arrive.streams group names count stream
    | _ => rfl
  fresh_ne := fun c w b hb => by
    cases c with
    | xreadgroup g names count =>
      obtain ⟨r, hr, rfl⟩ := List.mem_map.mp hb
      simpa using newEntries_ne _ _ hr
    | _ => cases hb
  returned_fresh := fun c w v hkind hv => by
    obtain ⟨names, count, rfl⟩ := Call.onGroup_read hkind
    unfold World.serve at hv
    split at hv
    · cases hv
      rfl
    · cases hv

def Call.offGroups : Call → Prop
  | .xreadgroup _ _ _ | .xack _ _ _ => False
  | _ => True

theorem Call.offGroups.other {c : Call} (h : c.offGroups) (group : String) :
    c.onGroup group = .other := by
  cases c with
  | xreadgroup g names count => exact h.elim
  | xack name g ids => exact h.elim
  | _ => rfl

theorem loopHandler_off (x : PyExc) : (loopHandler x).Uses Call.offGroups := by
  unfold loopHandler
  split
  · exact (Prog.uses_call (S := Service) _).mpr trivial
  · exact Prog.uses_lift _

theorem kind_read (group : String) (names : List String) (count : ℕ) :
    (serviceConsumer group).kind (.xreadgroup group names count) = .read := if_pos rfl

theorem kind_ack (group stream : String) (ids : List ℕ) :
    (serviceConsumer group).kind (.xack stream group ids) = .ack stream ids := if_pos rfl

theorem consumes_read {group stream : String} {count : ℕ} {w m : World}
    {fs gs : List (Event Service)} {v : List (String × List (Entry Fields))}
    {r : Except PyExc Unit} (hfs : (serviceConsumer group).Quiet fs)
    (hm : Follows World.serve m (⟨.xreadgroup group [stream] count, .ok v⟩ :: gs) w)
    (hnone : v = [] → gs = [] ∧ r = .ok ())
    (hbatch : ∀ entries, v = [(stream, entries)] → entries ≠ [] →
      (serviceConsumer group).Settling [(stream, entries.map Entry.id)] gs r) :
    (serviceConsumer group).Consumes (fs ++ ⟨.xreadgroup group [stream] count, .ok v⟩ :: gs) r := by
  have hkind := kind_read group [stream] count
  have hv : v = newEntries m.arrive.streams group [stream] count := by
    have hreply : (World.serve (.xreadgroup group [stream] count) m).1 = .ok v := hm.1.symm
    unfold World.serve at hreply
    split at hreply
    · exact (Except.ok.inj hreply).symm
    · cases hreply
  by_cases hempty : (m.arrive.streams stream).fresh group count = []
  · have hnil : v = [] := by simp [hv, newEntries, hempty]
    obtain ⟨rfl, rfl⟩ := hnone hnil
    subst hnil
    exact .settles hfs hkind List.nodup_nil .done
  · have hone : v = [(stream, (m.arrive.streams stream).fresh group count)] := by
      simp [hv, newEntries, hempty]
    have hsettling := hbatch _ hone hempty
    subst hone
    exact .settles hfs hkind (List.nodup_singleton _) hsettling

theorem ends_ack {group stream : String} {entries : List (Entry Fields)} (hne : entries ≠ [])
    {gs : List (Event Service)} {r : Except PyExc Unit}
    (h : (awaitIf (!entries.isEmpty) (Prog.call (S := Service)
      (.xack stream group (entries.map Entry.id)))).Ends gs r) :
    (∃ v gs', gs = ⟨.xack stream group (entries.map Entry.id), .ok v⟩ :: gs' ∧
        (serviceConsumer group).Settling [] gs' r) ∨
      ∃ x, gs = [⟨.xack stream group (entries.map Entry.id), .error x⟩] ∧ r = .error x := by
  have hsome : (!entries.isEmpty) = true := by simpa using hne
  rw [hsome] at h
  obtain ⟨a, gs', rfl, rfl, rfl⟩ := h
  cases r with
  | ok u => exact .inl ⟨u, [], rfl, .done⟩
  | error x => exact .inr ⟨x, rfl, rfl⟩

section
variable [PyText]

theorem scanBatch_off (ttl : ℚ) (entries : List (Entry Fields)) :
    (scanBatch ttl entries).Uses Call.offGroups := by
  refine scanBatch_uses ttl entries (fun _ _ _ => trivial) fun c hc => ?_
  cases c <;> first | exact hc.elim | trivial

theorem scanTicks_settling {ttl : ℚ} {entries : List (Entry Fields)} (hne : entries ≠ [])
    {gs : List (Event Service)} {r : Except PyExc Unit} (h : (scanTicks ttl entries).Ends gs r) :
    (serviceConsumer scannerGroup).Settling [(pricesStream, entries.map Entry.id)] gs r := by
  rw [scanTicks, Prog.bind_eq, Prog.ends_bind] at h
  have hquiet : ∀ {es : List (Event Service)} {q : Except PyExc (List Opportunity)},
      (scanBatch ttl entries).Ends es q → (serviceConsumer scannerGroup).Quiet es :=
    fun hes e he => ((scanBatch_off ttl entries).ends hes e he).other scannerGroup
  rcases h with ⟨found, es₁, es₂, rfl, h₁, h₂⟩ | ⟨x, h₁, rfl⟩
  · refine Consumer.Settling.quiet_append (hquiet h₁) ?_
    refine Consumer.Settling.of_bind ?_ (kind_ack _ _ _) (fun u gs r h => ends_ack hne h) h₂
    have hstore : (publishAndStore found).Uses Call.offGroups :=
      publishAndStore_uses found (fun _ => trivial) fun _ => trivial
    exact (awaitIf_uses _ hstore).mono fun _ hc => hc.other scannerGroup
  · exact .raised x (hquiet h₁)

theorem scanOnce_consumes {ttl : ℚ} {w w' : World} {es : List (Event Service)}
    {r : Except PyExc Unit} (h : (scanOnce ttl).Ends es r) (hf : Follows World.serve w es w') :
    (serviceConsumer scannerGroup).Consumes es r := by
  have hquiet : (serviceConsumer scannerGroup).Quiet [] := by simp [Consumer.Quiet]
  rcases (Prog.ends_call_bind _ _ _ _).mp h with ⟨v, gs, rfl, hrest⟩ | ⟨x, rfl, rfl⟩
  · refine consumes_read hquiet hf (fun hv => ?_) fun entries hv hne => ?_
    · subst hv
      exact (Prog.ends_pure _ _ _).mp hrest
    · subst hv
      exact scanTicks_settling hne hrest
  · exact .lost x hquiet (kind_read _ _ _)

def scannerConsumer (ttl : ℚ) : ConsumerLoop Service World where
  toConsumer := serviceConsumer scannerGroup
  body := scanOnce ttl
  handler := loopHandler
  loop := scanLoop ttl
  loop_zero := rfl
  loop_succ := fun _ => rfl
  handler_quiet := fun x => (loopHandler_off x).mono fun _ hc => hc.other scannerGroup
  body_consumes := fun _ _ _ _ h hf => scanOnce_consumes h hf

theorem executeAll_off (engine : Engine) (entries : List (Entry Fields)) :
    (executeAll engine entries).Uses Call.offGroups := by
  refine executeAll_allowed engine entries (fun _ => trivial) fun c hc => ?_
  cases c <;> first | exact absurd hc Bool.false_ne_true | trivial

theorem handleBatch_settling {engine : Engine} {entries : List (Entry Fields)}
    (hne : entries ≠ []) {gs : List (Event Service)} {r : Except PyExc Unit}
    (h : (handleBatch engine entries).Ends gs r) :
    (serviceConsumer executorGroup).Settling [(opportunitiesStream, entries.map Entry.id)]
      gs r := by
  rw [handleBatch, Prog.bind_eq, Prog.ends_bind] at h
  have hquiet : ∀ {es : List (Event Service)} {q : Except PyExc (List ExecutionResult)},
      (executeAll engine entries).Ends es q → (serviceConsumer executorGroup).Quiet es :=
    fun hes e he => ((executeAll_off engine entries).ends hes e he).other executorGroup
  rcases h with ⟨results, es₁, es₂, rfl, h₁, h₂⟩ | ⟨x, h₁, rfl⟩
  · refine Consumer.Settling.quiet_append (hquiet h₁) ?_
    refine Consumer.Settling.of_bind ?_ (kind_ack _ _ _) (fun u gs r h => ends_ack hne h) h₂
    have hpersist : (persist results).Uses Call.offGroups :=
      persist_allowed results (fun _ => trivial) (fun _ => trivial) fun _ => trivial
    exact (awaitIf_uses _ hpersist).mono fun _ hc => hc.other executorGroup
  · exact .raised x (hquiet h₁)

theorem consumeOnce_consumes {engine : Engine} {w w' : World} {es : List (Event Service)}
    {r : Except PyExc Unit} (h : (consumeOnce engine).Ends es r)
    (hf : Follows World.serve w es w') : (serviceConsumer executorGroup).Consumes es r := by
  have hget : ∀ v, (serviceConsumer executorGroup).Quiet [⟨.get killSwitchKey, v⟩] := by
    intro v e he
    rw [List.mem_singleton.mp he]
    rfl
  rcases (Prog.ends_call_bind _ _ _ _).mp h with ⟨value, es₁, rfl, h₁⟩ | ⟨x, rfl, rfl⟩
  · have hset : ∀ v, (serviceConsumer executorGroup).Quiet
        [⟨.get killSwitchKey, .ok value⟩, ⟨.setKillSwitch (value = some "1"), v⟩] := by
      intro v e he
      simp only [List.mem_cons, List.not_mem_nil, or_false] at he
      rcases he with rfl | rfl <;> rfl
    rcases (Prog.ends_call_bind _ _ _ _).mp h₁ with ⟨u, es₂, rfl, h₂⟩ | ⟨x, rfl, rfl⟩
    · rcases (Prog.ends_call_bind _ _ _ _).mp h₂ with ⟨v, gs, rfl, hrest⟩ | ⟨x, rfl, rfl⟩
      · refine consumes_read (hset _) hf.2.2 (fun hv => ?_) fun entries hv hne => ?_
        · subst hv
          exact (Prog.ends_pure _ _ _).mp hrest
        · subst hv
          exact handleBatch_settling hne hrest
      · exact .lost x (hset _) (kind_read _ _ _)
    · exact .unread x (hset _)
  · exact .unread x (hget _)

def executorConsumer (engine : Engine) : ConsumerLoop Service World where
  toConsumer := serviceConsumer executorGroup
  body := consumeOnce engine
  handler := loopHandler
  loop := consumeLoop engine
  loop_zero := rfl
  loop_succ := fun _ => rfl
  handler_quiet := fun x => (loopHandler_off x).mono fun _ hc => hc.other executorGroup
  body_consumes := fun _ _ _ _ h hf => consumeOnce_consumes h hf

end

namespace WriterWorld

def logs (w : WriterWorld) (stream : String) : Log Fields :=
  if stream = pricesStream then w.stream else ⟨[], fun _ => ⟨0, []⟩⟩

def groupsOf (w : WriterWorld) : String → Group := fun s => (w.logs s).groups writerGroup

theorem serve_state (c : WriterCall) (w : WriterWorld) :
    (WriterWorld.serve c w).2 =
      if carriedBy PyExc.served (WriterWorld.serve c w).1 = true then (w.arrive.effect c).next
      else w.arrive.next := by
  unfold WriterWorld.serve
  cases w.fault c with
  | none => rfl
  | some x => rfl

theorem groupsOf_stream {w w' : WriterWorld} (h : w'.stream.groups = w.stream.groups) :
    w'.groupsOf = w.groupsOf := by
  funext stream
  unfold groupsOf logs
  split
  · rw [h]
  · rfl

theorem groupsOf_arrive (w : WriterWorld) : w.arrive.groupsOf = w.groupsOf :=
  groupsOf_stream rfl

end WriterWorld

def WriterCall.onGroup : WriterCall → StreamCall
  | .xreadgroup _ => .read
  | .xack ids => .ack pricesStream ids
  | _ => .other

def writerReply (entries : List (Entry Fields)) : List (String × List (Entry Fields)) :=
  if entries = [] then [] else [(pricesStream, entries)]

def WriterCall.fresh : WriterCall → WriterWorld → Batch
  | .xreadgroup count, w =>
    Batch.ofReply (newEntries w.arrive.logs writerGroup [pricesStream] count)
  | _, _ => []

def WriterCall.returned : (c : WriterCall) → c.Reply → Batch
  | .xreadgroup _, entries => Batch.ofReply (writerReply entries)
  | _, _ => []

namespace WriterWorld

theorem effect_groups {c : WriterCall} (w : WriterWorld) (h : c.onGroup = .other) :
    (w.effect c).groupsOf = w.groupsOf := by
  cases c with
  | xreadgroup count => cases h
  | xack ids => cases h
  | copyPrices rows =>
    simp only [effect]
    split
    · exact groupsOf_stream rfl
    · rfl
  | insertPrice row =>
    simp only [effect]
    split
    · exact groupsOf_stream rfl
    · rfl
  | addWritten n => exact groupsOf_stream rfl
  | sleep seconds => rfl

theorem serve_groups {c : WriterCall} (w : WriterWorld) (h : c.onGroup = .other) :
    ((WriterWorld.serve c w).2).groupsOf = w.groupsOf := by
  rw [serve_state]
  split
  · exact (effect_groups w.arrive h).trans (groupsOf_arrive w)
  · exact groupsOf_arrive w

theorem read_groups (w : WriterWorld) (count : ℕ) :
    (w.effect (.xreadgroup count)).groupsOf = fun stream => (w.groupsOf stream).give
      ((Batch.ofReply (newEntries w.logs writerGroup [pricesStream] count)).of stream) := by
  funext stream
  have hgive := groups_delivered w.logs writerGroup [pricesStream] count stream
  by_cases hstream : stream = pricesStream
  · subst hstream
    simpa [groupsOf, logs, effect] using hgive
  · simpa [groupsOf, logs, effect, hstream] using hgive

theorem newEntries_logs (w : WriterWorld) (count : ℕ) :
    newEntries w.logs writerGroup [pricesStream] count =
      writerReply (w.stream.fresh writerGroup count) := by
  by_cases hempty : w.stream.fresh writerGroup count = []
  · simp [newEntries, writerReply, logs, hempty]
  · simp [newEntries, writerReply, logs, hempty]

theorem ack_groups (w : WriterWorld) (ids : List ℕ) :
    (w.effect (.xack ids)).groupsOf =
      Function.update w.groupsOf pricesStream ((w.groupsOf pricesStream).ack ids) := by
  have hack := groups_acked w.logs writerGroup pricesStream ids
  funext stream
  have hat := congrFun hack stream
  by_cases hstream : stream = pricesStream
  · subst hstream
    simpa [groupsOf, logs, effect] using hat
  · simp [groupsOf, logs, hstream]

end WriterWorld

def ticksConsumer : Consumer Writer WriterWorld where
  serve := WriterWorld.serve
  groups := WriterWorld.groupsOf
  kind := WriterCall.onGroup
  fresh := WriterCall.fresh
  returned := WriterCall.returned
  served := PyExc.served
  other_groups := fun c w h => WriterWorld.serve_groups w h
  lost_groups := fun c w h => by
    rw [WriterWorld.serve_state, h]
    exact WriterWorld.groupsOf_arrive w
  ack_groups := fun c w stream ids hkind h => by
    rw [WriterWorld.serve_state, if_pos h]
    cases c with
    | xack ids' =>
      cases hkind
      have hack := WriterWorld.ack_groups w.arrive ids
      rw [WriterWorld.groupsOf_arrive] at hack
      exact hack
    | _ => cases hkind
  read_groups := fun c w hkind h => by
    rw [WriterWorld.serve_state, if_pos h]
    cases c with
    | xreadgroup count =>
      have hread := WriterWorld.read_groups w.arrive count
      rw [WriterWorld.groupsOf_arrive] at hread
      exact hread
    | _ => cases hkind
  fresh_ids := fun c w stream => by
    cases c with
    | xreadgroup count =>
      have hids := newEntries_ids w.arrive.logs writerGroup [pricesStream] count stream
      rw [← WriterWorld.groupsOf_arrive w]
      exact hids
    | _ => rfl
  fresh_ne := fun c w b hb => by
    cases c with
    | xreadgroup count =>
      obtain ⟨r, hr, rfl⟩ := List.mem_map.mp hb
      simpa using newEntries_ne _ _ hr
    | _ => cases hb
  returned_fresh := fun c w v hkind hv => by
    cases c with
    | xreadgroup count =>
      have hreply : v = w.arrive.stream.fresh writerGroup count := by
        unfold WriterWorld.serve at hv
        split at hv
        · exact (Except.ok.inj hv).symm
        · cases hv
      subst hreply
      exact congrArg Batch.ofReply (WriterWorld.newEntries_logs w.arrive count).symm
    | _ => cases hkind

theorem writeRows_off (rows : List PriceRow) :
    (writeRows rows).Uses fun c => ticksConsumer.kind c = .other := by
  have hinsert : ∀ (rows : List PriceRow) (ok : ℕ),
      (insertEach rows ok).Uses fun c => ticksConsumer.kind c = .other := by
    intro rows
    induction rows with
    | nil => exact fun ok => Prog.uses_pure _
    | cons row rest ih =>
      intro ok
      refine Prog.uses_bind (Prog.uses_handle ?_ fun x => ?_) fun ok => ih ok
      · exact Prog.uses_bind ((Prog.uses_call (S := Writer) _).mpr rfl) fun _ => Prog.uses_pure _
      · split
        · exact Prog.uses_pure _
        · exact Prog.uses_lift _
  unfold writeRows
  split
  · exact Prog.uses_pure _
  · refine Prog.uses_handle ?_ fun x => ?_
    · exact Prog.uses_bind ((Prog.uses_call (S := Writer) _).mpr rfl) fun _ =>
        (Prog.uses_call (S := Writer) _).mpr rfl
    · split
      · exact Prog.uses_bind (hinsert rows 0) fun _ => (Prog.uses_call (S := Writer) _).mpr rfl
      · exact Prog.uses_lift _

section
variable [PyText]

theorem flush_settling {entries : List (Entry Fields)} (hne : entries ≠ [])
    {gs : List (Event Writer)} {r : Except PyExc Unit} (h : (flush entries).Ends gs r) :
    ticksConsumer.Settling [(pricesStream, entries.map Entry.id)] gs r := by
  rw [flush, Prog.ends_lift_bind] at h
  rcases h with ⟨rows, -, h⟩ | ⟨x, -, rfl, rfl⟩
  · refine Consumer.Settling.of_bind (c := WriterCall.xack (entries.map Entry.id))
      (writeRows_off rows) rfl (fun u gs r h => ?_) h
    rw [if_neg hne] at h
    obtain ⟨a, gs', rfl, rfl, rfl⟩ := h
    cases r with
    | ok u => exact .inl ⟨u, [], rfl, .done⟩
    | error x => exact .inr ⟨x, rfl, rfl⟩
  · exact .raised x (by simp [Consumer.Quiet])

theorem writerBody_consumes {es : List (Event Writer)} {r : Except PyExc Unit}
    (h : writerBody.Ends es r) : ticksConsumer.Consumes es r := by
  have hquiet : ticksConsumer.Quiet [] := by simp [Consumer.Quiet]
  rcases (Prog.ends_call_bind _ _ _ _).mp h with ⟨entries, gs, rfl, hrest⟩ | ⟨x, rfl, rfl⟩
  · by_cases hempty : entries = []
    · subst hempty
      obtain ⟨rfl, rfl⟩ := (Prog.ends_pure _ _ _).mp hrest
      exact .settles hquiet rfl List.nodup_nil .done
    · have hreply : ticksConsumer.returned (.xreadgroup batchSize) entries =
          [(pricesStream, entries.map Entry.id)] := by
        change Batch.ofReply (writerReply entries) = _
        rw [writerReply, if_neg hempty]
        rfl
      rw [if_neg hempty] at hrest
      refine .settles hquiet rfl ?_ ?_
      · rw [hreply]
        exact List.nodup_singleton _
      · rw [hreply]
        exact flush_settling hempty hrest
  · exact .lost x hquiet rfl

def writerConsumer : ConsumerLoop Writer WriterWorld where
  toConsumer := ticksConsumer
  body := writerBody
  handler := writerHandler
  loop := writerLoop
  loop_zero := rfl
  loop_succ := fun _ => rfl
  handler_quiet := fun x => by
    unfold writerHandler
    split
    · exact (Prog.uses_call (S := Writer) _).mpr rfl
    · exact Prog.uses_lift _
  body_consumes := fun _ _ _ _ h _ => writerBody_consumes h

end

def NotifierCall.onGroup : NotifierCall → StreamCall
  | .xreadgroup _ _ => .read
  | .xack stream ids => .ack stream ids
  | _ => .other

def NotifierCall.fresh : NotifierCall → NotifierWorld → Batch
  | .xreadgroup names count, w =>
    Batch.ofReply (newEntries w.arrive.streams notifierGroup names count)
  | _, _ => []

def NotifierCall.returned : (c : NotifierCall) → c.Reply → Batch
  | .xreadgroup _ _, reply => Batch.ofReply reply
  | _, _ => []

namespace NotifierWorld

def groupsOf (w : NotifierWorld) : String → Group := fun s => (w.streams s).groups notifierGroup

theorem serve_groups {c : NotifierCall} (w : NotifierWorld) (h : c.onGroup = .other) :
    ((NotifierWorld.serve c w).2).groupsOf = w.groupsOf := by
  have heffect : (w.arrive.effect c).groupsOf = w.groupsOf := by
    cases c with
    | xreadgroup names count => cases h
    | xack stream ids => cases h
    | _ => rfl
  unfold NotifierWorld.serve
  split
  · exact heffect
  · split
    · exact heffect
    · rfl

theorem serve_stream {c : NotifierCall} (w : NotifierWorld) (h : c.onGroup ≠ .other) :
    (carriedBy PyExc.served (NotifierWorld.serve c w).1 = true ∧
        (NotifierWorld.serve c w).2 = (w.arrive.effect c).next) ∨
      (carriedBy PyExc.served (NotifierWorld.serve c w).1 = false ∧
        (NotifierWorld.serve c w).2 = w.arrive.next) := by
  unfold NotifierWorld.serve
  cases hf : w.fault c with
  | none =>
    cases c with
    | xreadgroup names count => exact .inl ⟨rfl, rfl⟩
    | xack stream ids => exact .inl ⟨rfl, rfl⟩
    | _ => exact absurd rfl h
  | some x =>
    cases hserved : x.served with
    | true => exact .inl ⟨hserved, if_pos hserved⟩
    | false => exact .inr ⟨hserved, by simp [hserved]⟩

theorem serve_carried {w : NotifierWorld} {c : NotifierCall} (hc : c.onGroup ≠ .other)
    (h : carriedBy PyExc.served (NotifierWorld.serve c w).1 = true) :
    (NotifierWorld.serve c w).2 = (w.arrive.effect c).next := by
  rcases serve_stream w hc with ⟨-, heq⟩ | ⟨hlost, -⟩
  · exact heq
  · rw [hlost] at h
    cases h

end NotifierWorld

def notificationsConsumer : Consumer Notifier NotifierWorld where
  serve := NotifierWorld.serve
  groups := NotifierWorld.groupsOf
  kind := NotifierCall.onGroup
  fresh := NotifierCall.fresh
  returned := NotifierCall.returned
  served := PyExc.served
  other_groups := fun c w h => NotifierWorld.serve_groups w h
  lost_groups := fun c w h => by
    by_cases hc : c.onGroup = .other
    · exact NotifierWorld.serve_groups w hc
    · rcases NotifierWorld.serve_stream w hc with ⟨hcarried, -⟩ | ⟨-, heq⟩
      · rw [hcarried] at h
        cases h
      · rw [heq]
        rfl
  ack_groups := fun c w stream ids hkind h => by
    rw [NotifierWorld.serve_carried (by rw [hkind]; nofun) h]
    cases c with
    | xack name ids' =>
      cases hkind
      exact groups_acked w.arrive.streams notifierGroup stream ids
    | _ => cases hkind
  read_groups := fun c w hkind h => by
    rw [NotifierWorld.serve_carried (by rw [hkind]; nofun) h]
    cases c with
    | xreadgroup names count =>
      funext stream
      exact groups_delivered w.arrive.streams notifierGroup names count stream
    | _ => cases hkind
  fresh_ids := fun c w stream => by
    cases c with
    | xreadgroup names count =>
      exact newEntries_ids w.arrive.streams notifierGroup names count stream
    | _ => rfl
  fresh_ne := fun c w b hb => by
    cases c with
    | xreadgroup names count =>
      obtain ⟨r, hr, rfl⟩ := List.mem_map.mp hb
      simpa using newEntries_ne _ _ hr
    | _ => cases hb
  returned_fresh := fun c w v hkind hv => by
    cases c with
    | xreadgroup names count =>
      unfold NotifierWorld.serve at hv
      split at hv
      · cases hv
        rfl
      · cases hv
    | _ => cases hkind

theorem overQueue_off {α : Type} (p : Prog Telegram α) :
    (overQueue p).Uses fun c => notificationsConsumer.kind c = .other := by
  induction p with
  | done r => trivial
  | await c k ih => exact ⟨rfl, ih⟩

section
variable [PyText] [PyFormat]

theorem handleEntries_off (defaultChat stream : String) (entries : List (Entry Fields)) :
    (handleEntries defaultChat stream entries).Uses
      fun c => notificationsConsumer.kind c = .other := by
  have hentry : ∀ fields, (handleEntry defaultChat stream fields).Uses
      fun c => notificationsConsumer.kind c = .other := by
    intro fields
    refine Prog.uses_handle ?_ fun x => ?_
    · split
      · refine Prog.uses_bind (Prog.uses_lift _) fun opp => ?_
        refine Prog.uses_bind ((Prog.uses_call (S := Notifier) _).mpr rfl) fun threshold => ?_
        split
        · exact Prog.uses_bind (Prog.uses_lift _) fun text =>
            Prog.uses_bind (overQueue_off _) fun _ => Prog.uses_pure _
        · exact Prog.uses_pure _
      · split
        · refine Prog.uses_bind (Prog.uses_lift _) fun trade => ?_
          refine Prog.uses_bind ((Prog.uses_call (S := Notifier) _).mpr rfl) fun minPnl => ?_
          split
          · exact Prog.uses_bind (overQueue_off _) fun _ => Prog.uses_pure _
          · exact (Prog.uses_call (S := Notifier) _).mpr rfl
        · exact Prog.uses_pure _
    · split
      · exact Prog.uses_pure _
      · exact Prog.uses_lift _
  induction entries with
  | nil => exact Prog.uses_pure _
  | cons entry rest ih => exact Prog.uses_bind (hentry entry.payload) fun _ => ih

theorem handleStreams_settling {defaultChat : String} {reply : List (String × List (Entry Fields))}
    (hne : ∀ r ∈ reply, r.2 ≠ []) {gs : List (Event Notifier)} {r : Except PyExc Unit}
    (h : (handleStreams defaultChat reply).Ends gs r) :
    notificationsConsumer.Settling (Batch.ofReply reply) gs r := by
  induction reply generalizing gs r with
  | nil =>
    obtain ⟨rfl, rfl⟩ := (Prog.ends_pure _ _ _).mp h
    exact .done
  | cons read rest ih =>
    obtain ⟨stream, entries⟩ := read
    have hentries : entries ≠ [] := hne (stream, entries) List.mem_cons_self
    rw [handleStreams, if_neg hentries] at h
    refine Consumer.Settling.of_bind (c := NotifierCall.xack stream (entries.map Entry.id))
      (handleEntries_off defaultChat stream entries) rfl (fun u gs r h => ?_) h
    rcases (Prog.ends_call_bind _ _ _ _).mp h with ⟨v, gs', rfl, hrest⟩ | hx
    · exact .inl ⟨v, gs', rfl, ih (fun r hr => hne r (List.mem_cons_of_mem _ hr)) hrest⟩
    · exact .inr hx

theorem notifierBody_consumes {defaultChat : String} {w w' : NotifierWorld}
    {es : List (Event Notifier)} {r : Except PyExc Unit} (h : (notifierBody defaultChat).Ends es r)
    (hf : Follows NotifierWorld.serve w es w') : notificationsConsumer.Consumes es r := by
  have hquiet : notificationsConsumer.Quiet [] := by simp [Consumer.Quiet]
  rcases (Prog.ends_call_bind _ _ _ _).mp h with ⟨reply, gs, rfl, hrest⟩ | ⟨x, rfl, rfl⟩
  · have hreply : reply = newEntries w.arrive.streams notifierGroup
        [opportunitiesStream, tradesStream] 50 := by
      have hserve : (NotifierWorld.serve (.xreadgroup [opportunitiesStream, tradesStream] 50)
        w).1 = .ok reply := hf.1.symm
      unfold NotifierWorld.serve at hserve
      split at hserve
      · exact (Except.ok.inj hserve).symm
      · cases hserve
    have hnodup : ((Batch.ofReply reply).map Prod.fst).Nodup := by
      have hsub := newEntries_streams w.arrive.streams notifierGroup
        [opportunitiesStream, tradesStream] 50
      rw [← hreply] at hsub
      have hnames : [opportunitiesStream, tradesStream].Nodup := by decide
      simpa [Batch.ofReply, Function.comp_def] using hnames.sublist hsub
    refine .settles hquiet rfl hnodup ?_
    change notificationsConsumer.Settling (Batch.ofReply reply) gs r
    by_cases hempty : reply = []
    · rw [if_pos hempty] at hrest
      obtain ⟨rfl, rfl⟩ := (Prog.ends_pure _ _ _).mp hrest
      rw [hempty]
      exact .done
    · rw [if_neg hempty] at hrest
      refine handleStreams_settling (fun r hr => ?_) hrest
      rw [hreply] at hr
      exact newEntries_ne _ _ hr
  · exact .lost x hquiet rfl

def notifierConsumer (defaultChat : String) : ConsumerLoop Notifier NotifierWorld where
  toConsumer := notificationsConsumer
  body := notifierBody defaultChat
  handler := notifierHandler
  loop := notifierLoop defaultChat
  loop_zero := rfl
  loop_succ := fun _ => rfl
  handler_quiet := fun x => by
    unfold notifierHandler
    split
    · exact (Prog.uses_call (S := Notifier) _).mpr rfl
    · exact Prog.uses_lift _
  body_consumes := fun _ _ _ _ h hf => notifierBody_consumes h hf

/-- Each loop drops no entry exactly if nothing is pending when it starts and every iteration is
safe: it raises nothing, or is handed nothing, or what raises is its last acknowledgement, carried
out all the same; or no iteration follows it. -/
theorem entries_kept_iff (ttl : ℚ) (engine : Engine) (defaultChat : String) :
    (∀ w, writerConsumer.Wf w → (writerConsumer.Keeps w ↔ writerConsumer.Safe w)) ∧
      (∀ w, (scannerConsumer ttl).Wf w →
        ((scannerConsumer ttl).Keeps w ↔ (scannerConsumer ttl).Safe w)) ∧
      (∀ w, (executorConsumer engine).Wf w →
        ((executorConsumer engine).Keeps w ↔ (executorConsumer engine).Safe w)) ∧
      (∀ w, (notifierConsumer defaultChat).Wf w →
        ((notifierConsumer defaultChat).Keeps w ↔ (notifierConsumer defaultChat).Safe w)) :=
  ⟨fun _ hwf => ConsumerLoop.keeps_iff hwf, fun _ hwf => ConsumerLoop.keeps_iff hwf,
    fun _ hwf => ConsumerLoop.keeps_iff hwf, fun _ hwf => ConsumerLoop.keeps_iff hwf⟩

end

def tickedWriter : WriterWorld where
  stream := ⟨[], fun _ => ⟨0, []⟩⟩
  prices := []
  rowsWritten := 0
  outside := fun n => ⟨none, if n = 0 then [(tick "kucoin" "99.0" "100.0").2] else []⟩
  tick := 0

def waitingExecutor : World :=
  sampleWorld sampleOutside (balanceExchanges.map fun ex => (ex, 10000))
    [sampleOpportunity "gateio" "binance" (3 / 10) (1 / 10)]

@[reducible] def bareFormat : PyFormat where
  title s := s
  fixed _ _ := ""
  grouped _ _ := ""
  utcText _ := ""

/-- Two opportunities wait; a trade that cannot be read arrives before the second iteration. -/
def waitingNotifier : NotifierWorld where
  queue := ⟨fun _ => [], [], 0, fun _ => ⟨none, none, 0⟩, 0⟩
  streams stream :=
    if stream = opportunitiesStream then
      ⟨[@Opportunity.toRedis sampleText (sampleOpportunity "gateio" "binance" (3 / 10) (1 / 10)),
        @Opportunity.toRedis sampleText (sampleOpportunity "bybit" "gateio" (1 / 10) (1 / 10))],
        fun _ => ⟨0, []⟩⟩
    else ⟨[], fun _ => ⟨0, []⟩⟩
  tradesSuppressed := 0
  outside n := ⟨none, .finite (1 / 2), .finite 5, if n = 1 then [(tradesStream, [])] else []⟩
  tick := 0

theorem entries_kept_iff_waiting :
    ((@writerConsumer quoteText).Keeps tickedWriter ↔
        (@writerConsumer quoteText).Safe tickedWriter) ∧
      ((@scannerConsumer quoteText 5).Keeps scanWorld ↔
        (@scannerConsumer quoteText 5).Safe scanWorld) ∧
      ((@executorConsumer sampleText ⟨10, 100⟩).Keeps waitingExecutor ↔
        (@executorConsumer sampleText ⟨10, 100⟩).Safe waitingExecutor) ∧
      ((@notifierConsumer sampleText bareFormat "7").Keeps waitingNotifier ↔
        (@notifierConsumer sampleText bareFormat "7").Safe waitingNotifier) ∧
      ((((@consumeLoop sampleText ⟨10, 100⟩ 1).run World.serve waitingExecutor).2.streams
        opportunitiesStream).groups executorGroup) = ⟨1, []⟩ ∧
      ((((@notifierLoop sampleText bareFormat "7" 2).run NotifierWorld.serve
        waitingNotifier).2.streams opportunitiesStream).groups notifierGroup) = ⟨2, []⟩ ∧
      ((((@notifierLoop sampleText bareFormat "7" 2).run NotifierWorld.serve
        waitingNotifier).2.streams tradesStream).groups notifierGroup) = ⟨1, []⟩ := by
  obtain ⟨hwriter, hscanner, -, -⟩ := @entries_kept_iff quoteText bareFormat 5 ⟨10, 100⟩ "7"
  obtain ⟨-, -, hexecutor, hnotifier⟩ := @entries_kept_iff sampleText bareFormat 5 ⟨10, 100⟩ "7"
  refine ⟨hwriter _ (Consumer.Clear.wf fun stream => ?_),
    hscanner _ (Consumer.Clear.wf fun _ => rfl),
    hexecutor _ (Consumer.Clear.wf fun stream => ?_),
    hnotifier _ (Consumer.Clear.wf fun stream => ?_),
    by decide +kernel, by decide +kernel, by decide +kernel⟩
  · change ((tickedWriter.logs stream).groups writerGroup).pending = []
    unfold WriterWorld.logs
    split
    · rfl
    · rfl
  · change ((if stream = "opportunities" then _ else _ : Log Fields).groups
      executorGroup).pending = []
    split
    · rfl
    · rfl
  · change ((if stream = opportunitiesStream then _ else _ : Log Fields).groups
      notifierGroup).pending = []
    split
    · rfl
    · rfl

/-- The scanner raises in the first iteration: its two ticks are pending when the second one
starts, and no read returns them. -/
theorem entries_dropped : ¬(@scannerConsumer quoteText 5).Keeps unpublishedWorld := by
  intro hkeeps
  have hrun : ((@scanLoop quoteText 5 1).run World.serve unpublishedWorld).1 = .ok () := by
    decide +kernel
  have hkept := hkeeps 1 _ (Prod.ext hrun rfl)
  have hwf := (@scanLoop quoteText 5 1).run_preserves World.serve
    (fun _ _ h => Consumer.serve_wf (C := serviceConsumer scannerGroup) h) unpublishedWorld
    (fun _ _ hid => (List.not_mem_nil hid).elim)
  have hclear := (ConsumerLoop.keptAt_iff hwf).mp hkept pricesStream
  have hpending : ((((@scanLoop quoteText 5 1).run World.serve unpublishedWorld).2.streams
      pricesStream).groups scannerGroup).pending = [0, 1] := by decide +kernel
  have hnil : ([0, 1] : List ℕ) = [] := hpending.symm.trans hclear
  cases hnil

end CriptoParser
