import CriptoParser.CollectorSockets

set_option autoImplicit false

namespace CriptoParser

open Await

structure Dialing where
  connected : Bool
  holds : Bool
  deriving DecidableEq, Repr

def Dialing.step (q : Dialing) : Event Sockets → Dialing
  | ⟨.acquire, .ok _⟩ => { q with holds := true }
  | ⟨.release, _⟩ => { q with holds := false }
  | ⟨.watchOrderBook _, .ok _⟩ => { q with connected := true }
  | ⟨.setStatus .reconnecting, _⟩ => { q with connected := false }
  | _ => q

/-- A task that is not connected asks for a book only while it holds a permit. -/
abbrev dialing : Monitor (Event Sockets) where
  State := Dialing
  next := Dialing.step
  allows q e := match e.call with
    | .acquire => q.holds = false
    | .release => q.holds = true
    | .watchOrderBook _ => q.connected = false → q.holds = true
    | _ => True

def SocketCall.plain : SocketCall → Prop
  | .acquire | .release | .watchOrderBook _ | .setStatus _ => False
  | _ => True

theorem dialing_plain (q : Dialing) (q' : dialing.State) (c : SocketCall)
    (a : Except PyExc c.Reply) (hq : q' = q) (hc : c.plain) :
    dialing.allows q' ⟨c, a⟩ ∧ dialing.next q' ⟨c, a⟩ = q := by
  subst hq
  cases c <;> first | exact hc.elim | exact ⟨trivial, rfl⟩

theorem backoffDelay_uses (attempt : ℤ) : (backoffDelay attempt).Uses SocketCall.plain :=
  Prog.uses_bind ((Prog.uses_call _).mpr trivial) fun _ => Prog.uses_pure _

section
variable {can : (c : SocketCall) → Except PyExc c.Reply → Prop}

theorem reconnect_dialing (attempt : ℤ) (x : PyExc) (q : Dialing) :
    (reconnect attempt x).Meets dialing can q fun r q' =>
      q'.holds = q.holds ∧ ∀ a, r = .ok a → q' = ⟨false, q.holds⟩ := by
  unfold reconnect
  split
  · rw [Prog.meets_call_bind]
    refine ⟨fun _ _ => ⟨trivial, ?_⟩, fun x _ => ⟨trivial, rfl, fun a h => (by cases h)⟩⟩
    have hrest : (do
        let delay ← backoffDelay attempt
        Prog.call (S := Sockets) (.sleep delay)
        return attempt + 1 : Prog Sockets ℤ).Uses SocketCall.plain :=
      Prog.uses_bind (backoffDelay_uses attempt) fun delay =>
        Prog.uses_bind ((Prog.uses_call _).mpr trivial) fun _ => Prog.uses_pure _
    refine (hrest.meets (dialing_plain _) rfl).mono fun r q' hq => ?_
    subst hq
    exact ⟨rfl, fun _ _ => rfl⟩
  · exact ⟨rfl, fun a h => (by cases h)⟩

theorem awaitBook_dialing (symbol : String) (connected : Bool) :
    (awaitBook symbol connected).Meets dialing can ⟨connected, false⟩ fun r q' =>
      q'.holds = false ∧ ∀ b, r = .ok b → q' = ⟨true, false⟩ := by
  unfold awaitBook
  split
  · rename_i hc
    subst hc
    rintro (x | b) -
    · exact ⟨fun h => (by cases h), rfl, fun b h => (by cases h)⟩
    · exact ⟨fun h => (by cases h), rfl, fun _ _ => rfl⟩
  · rw [Prog.meets_call_bind]
    refine ⟨fun _ _ => ⟨rfl, ?_⟩, fun x _ => ⟨rfl, rfl, fun b h => (by cases h)⟩⟩
    rw [Prog.meets_ensure]
    rintro (x | b) -
    · refine ⟨fun _ => rfl, ?_⟩
      rintro (y | _) -
      · exact ⟨rfl, rfl, fun b h => (by cases h)⟩
      · exact ⟨rfl, rfl, fun b h => (by cases h)⟩
    · refine ⟨fun _ => rfl, ?_⟩
      rintro (y | _) -
      · exact ⟨rfl, rfl, fun b h => (by cases h)⟩
      · exact ⟨rfl, rfl, fun _ _ => rfl⟩

variable [PyText]

theorem symbolPass_dialing (name symbol : String) (attempt : ℤ) (connected : Bool) :
    (symbolPass name symbol attempt connected).Meets dialing can ⟨connected, false⟩ fun r q' =>
      q'.holds = false ∧ ∀ ac, r = .ok ac → q' = ⟨ac.2, false⟩ := by
  have hfailed : ∀ (attempt : ℤ) (x : PyExc) (q : Dialing), q.holds = false →
      (do return (← reconnect attempt x, false) : Prog Sockets (ℤ × Bool)).Meets dialing can q
        fun r q' => q'.holds = false ∧ ∀ ac, r = .ok ac → q' = ⟨ac.2, false⟩ := by
    intro attempt x q hq
    rw [Prog.meets_bind]
    refine (reconnect_dialing attempt x q).mono ?_
    rintro (y | a) q' ⟨hholds, hok⟩
    · exact ⟨hholds.trans hq, fun ac h => (by cases h)⟩
    · refine ⟨hholds.trans hq, fun ac h => ?_⟩
      cases h
      rw [hok a rfl, hq]
  unfold symbolPass
  rw [Prog.meets_bind, Prog.meets_attempt]
  refine (awaitBook_dialing symbol connected).mono ?_
  rintro (x | book) q ⟨hholds, hok⟩
  · exact hfailed attempt x q hholds
  · obtain rfl := hok book rfl
    refine (Prog.meets_call_bind _ _ _).mpr ⟨fun _ _ => ⟨trivial, ?_⟩,
      fun y _ => ⟨trivial, rfl, fun ac h => (by cases h)⟩⟩
    rw [Prog.meets_bind, Prog.meets_attempt]
    have hplain := (handleOrderBook_uses name symbol book).mono fun c hc =>
      show c.plain by cases c <;> first | exact hc.elim | exact trivial
    refine (hplain.meets (dialing_plain _) rfl).mono ?_
    rintro (x | _) q' rfl
    · exact hfailed 0 x _ rfl
    · exact ⟨rfl, fun ac h => by cases h; rfl⟩

theorem symbolLoop_dialing (name symbol : String) (n : ℕ) (attempt : ℤ) (connected : Bool) :
    (symbolLoop name symbol n attempt connected).Meets dialing can ⟨connected, false⟩
      fun _ q' => q'.holds = false := by
  induction n generalizing attempt connected with
  | zero => exact rfl
  | succ n ih =>
    unfold symbolLoop
    rw [Prog.meets_call_bind]
    refine ⟨fun b _ => ⟨trivial, ?_⟩, fun x _ => ⟨trivial, rfl⟩⟩
    cases b with
    | false => exact rfl
    | true =>
      simp only [if_true]
      rw [Prog.meets_bind]
      refine (symbolPass_dialing name symbol attempt connected).mono ?_
      rintro (x | ac) q ⟨hholds, hok⟩
      · exact hholds
      · rw [hok ac rfl]
        exact ih ac.1 ac.2

theorem symbolTasks_dialing (name : String) (symbols : List String) (n : ℕ)
    (i : Fin symbols.length) :
    (symbolTasks name symbols n i).Meets dialing can ⟨false, false⟩
      fun _ q' => q'.holds = false := by
  unfold symbolTasks watchSymbol
  split
  · rw [Prog.meets_call_bind]
    exact ⟨fun _ _ => ⟨trivial, symbolLoop_dialing name _ n 0 false⟩, fun x _ => ⟨trivial, rfl⟩⟩
  · exact symbolLoop_dialing name _ n 0 false

end

def Dialing.permit (q : Dialing) : ℕ := if q.holds then 1 else 0

def SocketCall.elsewhere : SocketCall → Prop
  | .acquire | .release => False
  | _ => True

theorem serve_elsewhere {c : SocketCall} (hc : c.elsewhere) (w : SocketWorld) :
    (SocketWorld.serve c w).2.permits = w.permits := by
  have heffect : (w.effect c).permits = w.permits := by
    cases c <;> first | exact hc.elim | rfl
  have hfailed : ∀ x, (w.failed c x).permits = w.permits := by
    intro x
    cases c <;> first | exact hc.elim | (simp only [SocketWorld.failed]; split <;> rfl)
  unfold SocketWorld.serve
  split
  · exact heffect
  · exact hfailed _

theorem step_elsewhere {c : SocketCall} (hc : c.elsewhere) (q : Dialing)
    (a : Except PyExc c.Reply) : (q.step ⟨c, a⟩).permit = q.permit := by
  cases c with
  | acquire => exact hc.elim
  | release => exact hc.elim
  | watchOrderBook symbol => cases a <;> rfl
  | setStatus status => cases status <;> rfl
  | _ => rfl

theorem serve_permits (c : SocketCall) (w : SocketWorld) (q : Dialing)
    (hready : w.ready c = true) (hq : dialing.allows q ⟨c, (SocketWorld.serve c w).1⟩) :
    (SocketWorld.serve c w).2.permits + (q.step ⟨c, (SocketWorld.serve c w).1⟩).permit =
      w.permits + q.permit := by
  cases c with
  | acquire =>
    have hfree : q.holds = false := hq
    cases hfault : w.now.fault with
    | none =>
      have hpermits : 0 < w.permits := by simpa [SocketWorld.ready, hfault] using hready
      simp only [SocketWorld.serve, SocketWorld.fault, hfault, SocketWorld.effect,
        SocketWorld.next, Dialing.step, Dialing.permit, hfree, if_true, Bool.false_eq_true,
        if_false]
      omega
    | some x =>
      simp only [SocketWorld.serve, SocketWorld.fault, hfault, SocketWorld.failed,
        SocketWorld.next, Dialing.step]
  | release =>
    have hheld : q.holds = true := hq
    simp [SocketWorld.serve, SocketWorld.fault, SocketWorld.effect, SocketWorld.next,
      Dialing.step, Dialing.permit, hheld]
  | _ =>
    refine congrArg₂ (· + ·) (serve_elsewhere ?_ w) (step_elsewhere ?_ q _)
    all_goals exact trivial

/-- The task waits for the first book of a socket that is not up. -/
def Handshaking (es : List (Event Sockets)) (p : Prog Sockets Unit) : Prop :=
  (dialing.after ⟨false, false⟩ es).connected = false ∧
    ∃ symbol k, p = .await (.watchOrderBook symbol) k

section
variable [PyText]

/-- At most `HANDSHAKE_CONCURRENCY` sockets are being opened at a time, whatever fails or is
cancelled. No permit is lost on the way: the tasks never wait for one another for ever, and once
all have ended the semaphore is as it was. -/
theorem handshakes_bounded (name : String) (symbols : List String) (n : ℕ)
    (prices : List Fields) (strings : String → Option String) (outside : ℕ → SocketOutside)
    (schedule : List (Fin symbols.length)) (opening : Finset (Fin symbols.length)) :
    let run := runReady (fun c w => w.ready c) SocketWorld.serve schedule
      (symbolTasks name symbols n) (SocketWorld.start prices strings outside)
    ((∀ i ∈ opening, Handshaking (own i run.log) (run.tasks i)) →
      opening.card ≤ handshakeConcurrency) ∧
    ((∀ i, (run.tasks i).isDone = true) → run.state.permits = handshakeConcurrency) ∧
    ((∃ i, (run.tasks i).isDone = false) →
      ∃ i c k, run.tasks i = .await c k ∧ run.state.ready c = true) := by
  intro run
  have htask : ∀ i, dialing.Accepts ⟨false, false⟩ (own i run.log) ∧
      (run.tasks i).Meets dialing (Gives SocketWorld.serve)
        (dialing.after ⟨false, false⟩ (own i run.log)) fun _ q' => q'.holds = false :=
    fun i => meets_runReady _ _ schedule _ _ i (symbolTasks_dialing name symbols n i)
  have hkept : run.state.permits +
      ∑ i, Dialing.permit (dialing.after ⟨false, false⟩ (own i run.log)) =
        handshakeConcurrency := by
    have h := shares_kept dialing SocketWorld.permits Dialing.permit
      (fun c s q hready hq => serve_permits c s q hready hq)
      (followsReady_runReady (fun c w => SocketWorld.ready c w) SocketWorld.serve schedule
        (symbolTasks name symbols n) (SocketWorld.start prices strings outside))
      (fun i => (htask i).1)
    rw [h]
    simp [SocketWorld.start, Dialing.permit]
  have hdone : ∀ i, (run.tasks i).isDone = true →
      (dialing.after ⟨false, false⟩ (own i run.log) : Dialing).holds = false := by
    intro i hi
    have hmeets := (htask i).2
    cases hp : run.tasks i with
    | done r =>
      rw [hp] at hmeets
      exact hmeets
    | await c k => simp [hp, Prog.isDone] at hi
  refine ⟨?_, ?_, ?_⟩
  · intro hopening
    have hone : ∀ i ∈ opening,
        1 ≤ Dialing.permit (dialing.after ⟨false, false⟩ (own i run.log)) := by
      intro i hi
      obtain ⟨hoff, symbol, k, hp⟩ := hopening i hi
      have hmeets := (htask i).2
      rw [hp] at hmeets
      have hholds : (dialing.after ⟨false, false⟩ (own i run.log) : Dialing).holds = true :=
        (hmeets _ ⟨run.state, rfl⟩).1 hoff
      rw [Dialing.permit, if_pos hholds]
    calc opening.card ≤ ∑ i ∈ opening, Dialing.permit (dialing.after ⟨false, false⟩ (own i run.log)) := by
          have h := Finset.card_nsmul_le_sum opening _ 1 hone
          simpa using h
      _ ≤ ∑ i, Dialing.permit (dialing.after ⟨false, false⟩ (own i run.log)) :=
          Finset.sum_le_sum_of_subset (Finset.subset_univ opening)
      _ ≤ handshakeConcurrency := by omega
  · intro hall
    have hzero : ∑ i, Dialing.permit (dialing.after ⟨false, false⟩ (own i run.log)) = 0 := by
      refine Finset.sum_eq_zero fun i _ => ?_
      simp [Dialing.permit, hdone i (hall i)]
    omega
  · rintro ⟨i, hi⟩
    have hawaits : ∀ j, (run.tasks j).isDone = false → ∃ c k, run.tasks j = .await c k := by
      intro j hj
      cases hp : run.tasks j with
      | done r => simp [hp, Prog.isDone] at hj
      | await c k => exact ⟨c, k, rfl⟩
    by_cases hfree : 0 < run.state.permits
    · obtain ⟨c, k, hp⟩ := hawaits i hi
      refine ⟨i, c, k, hp, ?_⟩
      cases c <;> simp [SocketWorld.ready, hfree]
    · -- every permit is out: a task that has one waits for something else
      obtain ⟨j, -, hj⟩ := Finset.exists_ne_zero_of_sum_ne_zero
        (show ∑ i, Dialing.permit (dialing.after ⟨false, false⟩ (own i run.log)) ≠ 0 by
          simp only [handshakeConcurrency] at hkept
          omega)
      have hholds : (dialing.after ⟨false, false⟩ (own j run.log) : Dialing).holds = true := by
        by_contra hnot
        exact hj (by simp [Dialing.permit, hnot])
      obtain ⟨c, k, hp⟩ := hawaits j (by
        by_contra hnot
        rw [hdone j (by simpa using hnot)] at hholds
        cases hholds)
      refine ⟨j, c, k, hp, ?_⟩
      have hmeets := (htask j).2
      rw [hp] at hmeets
      cases c with
      | acquire =>
        have hnone : (dialing.after ⟨false, false⟩ (own j run.log) : Dialing).holds = false :=
          (hmeets _ ⟨run.state, rfl⟩).1
        rw [hholds] at hnone
        cases hnone
      | _ => rfl

end

end CriptoParser
