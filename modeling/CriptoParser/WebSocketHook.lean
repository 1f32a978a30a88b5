import CriptoParser.BrowserEvents
import Mathlib.Algebra.GroupWithZero.Nat
import Mathlib.Data.Int.Notation
import Mathlib.Tactic.Common

set_option autoImplicit false

namespace CriptoParser

open Browser

def maxBackoffMs : ℕ := 30000

def livenessTimeoutMs : ℤ := 45000

inductive Job where
  | connect (delay : ℕ)
  | ping (ws : ℕ)
  | watchdog (ws : ℕ)
  deriving DecidableEq, Repr

def Job.isConnect : Job → Bool
  | .connect _ => true
  | .ping _ | .watchdog _ => false

/-- The refs of an instance, and what it has in the browser; a socket is known by its place. -/
structure Hook where
  sockets : List ReadyState
  timers : Timers Job
  wsRef : Option ℕ
  attemptRef : ℕ
  closedRef : Bool
  timerRef : Option ℕ
  pingRef : Option ℕ
  watchdogRef : Option ℕ
  lastActivityRef : ℤ

namespace Hook

def create (now : ℤ) : Hook := ⟨[], .empty, none, 0, false, none, none, none, now⟩

def clearTimers (h : Hook) : Hook :=
  { h with timers := (h.timers.clear h.pingRef).clear h.watchdogRef }

def connect (h : Hook) : Hook :=
  { h with sockets := h.sockets ++ [.connecting], wsRef := some h.sockets.length }

def mount (h : Hook) : Hook := { h with closedRef := false }.connect

def unmount (h : Hook) : Hook :=
  let h := { h with closedRef := true }.clearTimers
  { h with
    timers := h.timers.clear h.timerRef
    sockets := h.wsRef.elim h.sockets fun k => closeSocket k h.sockets }

def onopen (h : Hook) (k : ℕ) (now : ℤ) : Hook :=
  let pings := h.timers.set (.ping k)
  let watched := pings.set (.watchdog k)
  { h with
    attemptRef := 0
    lastActivityRef := now
    timers := watched
    pingRef := some pings.issued
    watchdogRef := some watched.issued }

def onclose (h : Hook) : Hook :=
  let h := h.clearTimers
  if h.closedRef then h
  else
    let timers := h.timers.set (.connect (min maxBackoffMs (1000 * 2 ^ h.attemptRef)))
    { h with
      attemptRef := h.attemptRef + 1
      timers := timers
      timerRef := some timers.issued }

end Hook

/-- What the browser does: an event of a socket, or a timer that is due. -/
inductive HookEvent where
  | open_ (k : ℕ) (now : ℤ)
  | message (k : ℕ) (now : ℤ)
  | error (k : ℕ)
  | close (k : ℕ)
  | timer (id : ℕ) (now : ℤ)
  deriving DecidableEq, Repr

namespace Hook

def step (h : Hook) : HookEvent → Option Hook
  | .open_ k now =>
    if h.sockets[k]? = some .connecting then
      some ({ h with sockets := h.sockets.set k .open_ }.onopen k now)
    else none
  | .message k now =>
    if h.sockets[k]? = some .open_ then some { h with lastActivityRef := now } else none
  | .error k => some { h with sockets := closeSocket k h.sockets }
  | .close k =>
    if h.sockets[k]? = none ∨ h.sockets[k]? = some .closed then none
    else some { h with sockets := h.sockets.set k .closed }.onclose
  | .timer id now =>
    match h.timers.job id with
    | none => none
    | some (.connect _) => some { h with timers := h.timers.clear (some id) }.connect
    | some (.ping _) => some h
    | some (.watchdog k) =>
      if livenessTimeoutMs < now - h.lastActivityRef then
        some { h with sockets := closeSocket k h.sockets }
      else some h

def openings (h : Hook) : ℕ :=
  (liveSockets h.sockets).length + (h.timers.idsOf Job.isConnect).length

def Beats (h : Hook) (k : ℕ) : Prop :=
  (∃ id, (id, Job.ping k) ∈ h.timers.running) ∧ ∃ id, (id, Job.watchdog k) ∈ h.timers.running

end Hook

namespace Hook

inductive Steps (h : Hook) : HookEvent → Hook → Prop
  | opened {k : ℕ} {now : ℤ} (hk : h.sockets[k]? = some .connecting) :
      Steps h (.open_ k now) ({ h with sockets := h.sockets.set k .open_ }.onopen k now)
  | message {k : ℕ} {now : ℤ} (hk : h.sockets[k]? = some .open_) :
      Steps h (.message k now) { h with lastActivityRef := now }
  | closing {e : HookEvent} (k : ℕ) : Steps h e { h with sockets := closeSocket k h.sockets }
  | closed {k : ℕ} {s : ReadyState} (hk : h.sockets[k]? = some s) (hne : s ≠ .closed) :
      Steps h (.close k) { h with sockets := h.sockets.set k .closed }.onclose
  | due {id : ℕ} {now : ℤ} {delay : ℕ} (hjob : (id, Job.connect delay) ∈ h.timers.running) :
      Steps h (.timer id now) { h with timers := h.timers.clear (some id) }.connect
  | still {e : HookEvent} : Steps h e h

theorem step_steps {h h' : Hook} {e : HookEvent} (hstep : h.step e = some h') : h.Steps e h' := by
  cases e with
  | open_ k now =>
    simp only [step, Option.ite_none_right_eq_some] at hstep
    obtain ⟨hk, hh'⟩ := hstep
    obtain rfl := Option.some.inj hh'
    exact .opened hk
  | message k now =>
    simp only [step, Option.ite_none_right_eq_some] at hstep
    obtain ⟨hk, hh'⟩ := hstep
    obtain rfl := Option.some.inj hh'
    exact .message hk
  | error k =>
    obtain rfl := Option.some.inj hstep
    exact .closing k
  | close k =>
    simp only [step, Option.ite_none_left_eq_some, not_or] at hstep
    obtain ⟨⟨hsome, hne⟩, hh'⟩ := hstep
    obtain ⟨s, hk⟩ := Option.ne_none_iff_exists'.mp hsome
    obtain rfl := Option.some.inj hh'
    exact .closed hk fun hs => hne (hs ▸ hk)
  | timer id now =>
    simp only [step] at hstep
    split at hstep
    · cases hstep
    · rename_i hjob
      obtain rfl := Option.some.inj hstep
      exact .due (Timers.mem_of_job hjob)
    · obtain rfl := Option.some.inj hstep
      exact .still
    · split at hstep
      · obtain rfl := Option.some.inj hstep
        exact .closing _
      · obtain rfl := Option.some.inj hstep
        exact .still

/-- Nothing is open or scheduled, and no close event will schedule anything. -/
structure Idle (h : Hook) : Prop where
  closed : h.closedRef = true
  dead : ∀ (k : ℕ) (s : ReadyState), h.sockets[k]? = some s → s.live = false
  unscheduled : ∀ t ∈ h.timers.running, t.2.isConnect = false

/-- The socket in `wsRef` or the timer in `timerRef` is all there is; the timer waits after the
close event of the socket. -/
structure Busy (h : Hook) : Prop where
  started : h.closedRef = false
  current : ∀ (k : ℕ) (s : ReadyState), h.sockets[k]? = some s → s.live = true → h.wsRef = some k
  scheduled : ∀ t ∈ h.timers.running, t.2.isConnect = true → h.timerRef = some t.1
  waits : ∀ t ∈ h.timers.running, t.2.isConnect = true → ∀ k, h.wsRef = some k →
    h.sockets[k]? = some .closed
  beats : ∀ k, h.sockets[k]? = some .open_ → h.Beats k

variable {h h' : Hook}

@[simp] theorem mem_clearTimers {t : ℕ × Job} :
    t ∈ h.clearTimers.timers.running ↔
      (t ∈ h.timers.running ∧ h.pingRef ≠ some t.1) ∧ h.watchdogRef ≠ some t.1 := by
  simp [clearTimers]

theorem Idle.openings (hidle : h.Idle) : h.openings = 0 := by
  rw [Hook.openings, liveSockets_eq_nil.mpr hidle.dead, Timers.idsOf_eq_nil.mpr hidle.unscheduled]
  rfl

theorem Busy.alone (hbusy : h.Busy) {t : ℕ × Job} (ht : t ∈ h.timers.running)
    (hconnect : t.2.isConnect = true) {k : ℕ} {s : ReadyState} (hs : h.sockets[k]? = some s) :
    s.live = false := by
  by_contra hlive
  rw [Bool.not_eq_false] at hlive
  have hclosed := hbusy.waits t ht hconnect k (hbusy.current k s hs hlive)
  rw [hs] at hclosed
  obtain rfl := Option.some.inj hclosed
  cases hlive

theorem Busy.openings (hbusy : h.Busy) : h.openings ≤ 1 := by
  have hids : (h.timers.idsOf Job.isConnect).length ≤ 1 := by
    refine length_le_one_of_ref (r := h.timerRef) (h.timers.idsOf_nodup _) fun id hid => ?_
    obtain ⟨a, ha, hconnect⟩ := Timers.mem_idsOf.mp hid
    exact hbusy.scheduled _ ha hconnect
  have hsockets : (liveSockets h.sockets).length ≤ 1 := by
    refine length_le_one_of_ref (r := h.wsRef) (liveSockets_nodup _) fun k hk => ?_
    obtain ⟨s, hs, hlive⟩ := mem_liveSockets.mp hk
    exact hbusy.current k s hs hlive
  have hone : h.timers.idsOf Job.isConnect = [] ∨ liveSockets h.sockets = [] := by
    cases hscheduled : h.timers.idsOf Job.isConnect with
    | nil => exact .inl rfl
    | cons id rest =>
      obtain ⟨a, ha, hconnect⟩ := Timers.mem_idsOf.mp (hscheduled ▸ List.mem_cons_self)
      exact .inr (liveSockets_eq_nil.mpr fun k s hs => hbusy.alone ha hconnect hs)
  unfold Hook.openings
  rcases hone with hnil | hnil <;> rw [hnil, List.length_nil] <;> omega

theorem connect_busy (hstarted : h.closedRef = false)
    (hdead : ∀ (k : ℕ) (s : ReadyState), h.sockets[k]? = some s → s.live = false)
    (hnone : ∀ t ∈ h.timers.running, t.2.isConnect = false) : h.connect.Busy := by
  have hconnect : ∀ t ∈ h.timers.running, t.2.isConnect ≠ true := fun t ht hc =>
    Bool.false_ne_true ((hnone t ht).symm.trans hc)
  refine ⟨hstarted, fun k s hs hlive => ?_, fun t ht hc => absurd hc (hconnect t ht),
    fun t ht hc => absurd hc (hconnect t ht), fun k hk => ?_⟩
  · rcases create_at hs with hs | ⟨rfl, -⟩
    · rw [hdead k s hs] at hlive
      cases hlive
    · rfl
  · rcases create_at hk with hs | ⟨-, hs⟩
    · exact absurd (hdead k _ hs) (by decide)
    · cases hs

theorem create_busy (now : ℤ) : (create now).mount.Busy :=
  connect_busy rfl (fun _ _ hs => (by cases hs)) (fun _ ht => (by cases ht))

theorem Idle.mount (hidle : h.Idle) : h.mount.Busy := connect_busy rfl hidle.dead hidle.unscheduled

theorem Busy.unmount (hbusy : h.Busy) : h.unmount.Idle := by
  refine ⟨rfl, fun k s hs => ?_, fun t ht => ?_⟩
  · change (h.wsRef.elim h.sockets fun k => closeSocket k h.sockets)[k]? = some s at hs
    by_contra hlive
    rw [Bool.not_eq_false] at hlive
    cases hws : h.wsRef with
    | none =>
      rw [hws] at hs
      cases hws.symm.trans (hbusy.current k s hs hlive)
    | some j =>
      rw [hws] at hs
      obtain ⟨hne, hs⟩ := live_closeSocket hs hlive
      exact hne (Option.some.inj (hws.symm.trans (hbusy.current k s hs hlive)))
  · change t ∈ (h.clearTimers.timers.clear h.timerRef).running at ht
    rw [Timers.mem_clear, mem_clearTimers] at ht
    by_contra hconnect
    rw [Bool.not_eq_false] at hconnect
    exact ht.2 (hbusy.scheduled t ht.1.1.1 hconnect)

theorem Idle.closeSocket (hidle : h.Idle) (k : ℕ) :
    Idle { h with sockets := Browser.closeSocket k h.sockets } := by
  refine ⟨hidle.closed, fun j s hs => ?_, hidle.unscheduled⟩
  by_contra hlive
  rw [Bool.not_eq_false] at hlive
  have hdead := hidle.dead j s (live_closeSocket hs hlive).2
  rw [hlive] at hdead
  cases hdead

theorem Busy.closeSocket (hbusy : h.Busy) (k : ℕ) :
    Busy { h with sockets := Browser.closeSocket k h.sockets } := by
  refine ⟨hbusy.started, fun j s hs hlive => ?_, hbusy.scheduled, fun t ht hconnect j hj => ?_,
    fun j hj => ?_⟩
  · exact hbusy.current j s (live_closeSocket hs hlive).2 hlive
  · exact closed_closeSocket.mpr (hbusy.waits t ht hconnect j hj)
  · exact hbusy.beats j (live_closeSocket hj rfl).2

theorem Idle.step (hidle : h.Idle) {e : HookEvent} (hstep : h.step e = some h') : h'.Idle := by
  cases step_steps hstep with
  | opened hk => exact absurd (hidle.dead _ _ hk) (by decide)
  | message hk => exact absurd (hidle.dead _ _ hk) (by decide)
  | closing k => exact hidle.closeSocket k
  | @closed k s hk hne =>
    have hquiet : { h with sockets := h.sockets.set k .closed }.onclose =
        { h with sockets := h.sockets.set k .closed }.clearTimers := if_pos hidle.closed
    rw [hquiet]
    refine ⟨hidle.closed, fun j s hs => ?_, fun t ht => ?_⟩
    · rcases set_at hs with ⟨-, rfl⟩ | ⟨-, hs⟩
      · rfl
      · exact hidle.dead j s hs
    · rw [mem_clearTimers] at ht
      exact hidle.unscheduled t ht.1.1
  | due hjob => cases hidle.unscheduled _ hjob
  | still => exact hidle

theorem mem_onopen {k : ℕ} {now : ℤ} {t : ℕ × Job} :
    t ∈ (h.onopen k now).timers.running ↔ (t ∈ h.timers.running ∨
      t = (h.timers.issued + 1, .ping k)) ∨ t = (h.timers.issued + 2, .watchdog k) := by
  simp [onopen, Timers.set, or_assoc]

theorem Busy.step (hbusy : h.Busy) {e : HookEvent} (hstep : h.step e = some h')
    (hturn : ∀ k, e = .close k → h.wsRef = some k) : h'.Busy := by
  cases step_steps hstep with
  | @opened k now hk =>
    have hws := hbusy.current k _ hk rfl
    have hnone : ∀ t ∈ ({ h with sockets := h.sockets.set k .open_ }.onopen k now).timers.running,
        t.2.isConnect = true → False := by
      intro t ht hconnect
      rcases mem_onopen.mp ht with (ht | rfl) | rfl
      · exact absurd (hbusy.alone ht hconnect hk) (by decide)
      · cases hconnect
      · cases hconnect
    have hlive : ∀ (j : ℕ) (s : ReadyState), (h.sockets.set k .open_)[j]? = some s →
        s.live = true → k = j := by
      intro j s hs hlive
      rcases set_at hs with ⟨hj, -⟩ | ⟨-, hs⟩
      · exact hj
      · exact Option.some.inj (hws.symm.trans (hbusy.current j s hs hlive))
    refine ⟨hbusy.started, fun j s hs hl => ?_, fun t ht hc => (hnone t ht hc).elim,
      fun t ht hc => (hnone t ht hc).elim, fun j hj => ?_⟩
    · rw [← hlive j s hs hl]
      exact hws
    · rw [← hlive j _ hj rfl]
      exact ⟨⟨_, mem_onopen.mpr (.inl (.inr rfl))⟩, ⟨_, mem_onopen.mpr (.inr rfl)⟩⟩
  | message hk => exact ⟨hbusy.started, hbusy.current, hbusy.scheduled, hbusy.waits, hbusy.beats⟩
  | closing k => exact hbusy.closeSocket k
  | @closed k s hk hne =>
    have hws := hturn k rfl
    have hdead : ∀ (j : ℕ) (s : ReadyState), (h.sockets.set k .closed)[j]? = some s →
        s.live = false := by
      intro j s hs
      rcases set_at hs with ⟨-, rfl⟩ | ⟨hj, hs⟩
      · rfl
      · by_contra hlive
        rw [Bool.not_eq_false] at hlive
        exact hj (Option.some.inj (hws.symm.trans (hbusy.current j s hs hlive)))
    have honly : ∀ t ∈ h.timers.running, t.2.isConnect = true → False := by
      intro t ht hconnect
      have hclosed := hbusy.waits t ht hconnect k hws
      rw [hk] at hclosed
      exact hne (Option.some.inj hclosed)
    have hscheduled : { h with sockets := h.sockets.set k .closed }.onclose =
        { h.clearTimers with
          sockets := h.sockets.set k .closed
          attemptRef := h.attemptRef + 1
          timers := h.clearTimers.timers.set
            (.connect (min maxBackoffMs (1000 * 2 ^ h.attemptRef)))
          timerRef := some (h.timers.issued + 1) } := by
      rw [Hook.onclose]
      exact if_neg (by rw [clearTimers, hbusy.started]; exact Bool.false_ne_true)
    rw [hscheduled]
    refine ⟨hbusy.started, fun j s hs hlive => ?_, fun t ht hconnect => ?_,
      fun t ht hconnect j hj => ?_, fun j hj => ?_⟩
    · rw [hdead j s hs] at hlive
      cases hlive
    · rcases Timers.mem_set.mp ht with ht | rfl
      · exact (honly t (mem_clearTimers.mp ht).1.1 hconnect).elim
      · rfl
    · obtain rfl := Option.some.inj (hws.symm.trans hj)
      exact List.getElem?_set_self (List.getElem?_eq_some_iff.mp hk).1
    · exact absurd (hdead j _ hj) (by decide)
  | @due id now delay hjob =>
    refine connect_busy hbusy.started (fun k s hs => hbusy.alone hjob rfl hs) fun t ht => ?_
    rw [Timers.mem_clear] at ht
    by_contra hconnect
    rw [Bool.not_eq_false] at hconnect
    have hid := hbusy.scheduled _ hjob rfl
    exact ht.2 (hid.symm.trans (hbusy.scheduled t ht.1 hconnect))
  | still => exact hbusy

end Hook

end CriptoParser
