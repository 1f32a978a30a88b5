import CriptoParser.CollectorSockets
import Mathlib.Algebra.BigOperators.Intervals
import Mathlib.Algebra.Order.BigOperators.Group.Finset
import Mathlib.Algebra.Order.Ring.Rat
import Mathlib.Tactic.Linarith
import Mathlib.Tactic.NormNum

set_option autoImplicit false

namespace CriptoParser

open Await

theorem backoffBase_cases (k : ℕ) :
    (k = 0 ∧ backoffBase k = 1) ∨ (k = 1 ∧ backoffBase k = 5) ∨ (k = 2 ∧ backoffBase k = 15) ∨
      (k = 3 ∧ backoffBase k = 30) ∨ (4 ≤ k ∧ backoffBase k = 60) := by
  rcases (by omega : k = 0 ∨ k = 1 ∨ k = 2 ∨ k = 3 ∨ 4 ≤ k) with rfl | rfl | rfl | rfl | hk
  · exact .inl ⟨rfl, by rfl⟩
  · exact .inr (.inl ⟨rfl, by rfl⟩)
  · exact .inr (.inr (.inl ⟨rfl, by rfl⟩))
  · exact .inr (.inr (.inr (.inl ⟨rfl, by rfl⟩)))
  · refine .inr (.inr (.inr (.inr ⟨hk, ?_⟩)))
    have hmin : min (k : ℤ) ((backoffDelays.length : ℤ) - 1) = 4 := by
      simp only [backoffDelays, List.length_cons, List.length_nil]
      omega
    rw [backoffBase, if_neg (by omega), hmin]
    rfl

theorem backoffBase_mono {k l : ℕ} (h : k ≤ l) : backoffBase k ≤ backoffBase l := by
  rcases backoffBase_cases k with ⟨hk, hk'⟩ | ⟨hk, hk'⟩ | ⟨hk, hk'⟩ | ⟨hk, hk'⟩ | ⟨hk, hk'⟩ <;>
    rcases backoffBase_cases l with ⟨hl, hl'⟩ | ⟨hl, hl'⟩ | ⟨hl, hl'⟩ | ⟨hl, hl'⟩ | ⟨hl, hl'⟩ <;>
    first | omega | (rw [hk', hl'] <;> norm_num)

theorem backoffBase_bounds (k : ℕ) : 1 ≤ backoffBase k ∧ backoffBase k ≤ 60 := by
  rcases backoffBase_cases k with ⟨-, h⟩ | ⟨-, h⟩ | ⟨-, h⟩ | ⟨-, h⟩ | ⟨-, h⟩ <;>
    rw [h] <;> norm_num

theorem gives_uniform {a : Except PyExc ℚ}
    (h : Gives SocketWorld.serve (.uniform (1 - jitter) (1 + jitter)) a) :
    ∃ u, a = .ok u ∧ 4 / 5 ≤ u ∧ u ≤ 6 / 5 := by
  obtain ⟨w, rfl⟩ := h
  obtain ⟨hlow, hhigh⟩ := w.now.draw.2
  refine ⟨_, rfl, ?_, ?_⟩
  · simp only [SocketWorld.answer, jitter]
    linarith
  · simp only [SocketWorld.answer, jitter]
    linarith

structure Pacing where
  /-- The delays since the last book. -/
  failures : ℕ
  /-- The jitter of the delay to come. -/
  drawn : Option ℚ
  /-- The last attempt failed and no delay has followed. -/
  due : Bool
  started : Bool
  deriving DecidableEq

def Pacing.start : Pacing := ⟨0, none, false, false⟩

def Pacing.step (q : Pacing) : Event Sockets → Pacing
  | ⟨.watchOrderBook _, .ok _⟩ | ⟨.watchOrderBookForSymbols _, .ok _⟩ => ⟨0, none, false, true⟩
  | ⟨.watchOrderBook _, .error _⟩ | ⟨.watchOrderBookForSymbols _, .error _⟩ =>
    { q with due := true, started := true }
  | ⟨.uniform _ _, .ok u⟩ => { q with drawn := some u, started := true }
  | ⟨.sleep _, .ok _⟩ =>
    if q.drawn.isSome then ⟨q.failures + 1, none, false, true⟩ else { q with started := true }
  | _ => { q with started := true }

/-- The delay is the one of the failures so far; only the first call may be a sleep of its own. -/
def Pacing.mayPause (q : Pacing) (seconds : ℚ) : Prop :=
  match q.drawn with
  | some u => seconds = backoffBase q.failures * u ∧ 4 / 5 ≤ u ∧ u ≤ 6 / 5
  | none => q = Pacing.start ∧ 0 ≤ seconds

abbrev pacing : Monitor (Event Sockets) where
  State := Pacing
  next := Pacing.step
  allows q e := match e.call with
    | .watchOrderBook _ | .watchOrderBookForSymbols _ => q.due = false
    | .sleep seconds => q.mayPause seconds
    | _ => True

def SocketCall.watches : SocketCall → Bool
  | .watchOrderBook _ | .watchOrderBookForSymbols _ => true
  | _ => false

def attempts (es : List (Event Sockets)) : ℕ := es.countP fun e => e.call.watches

def pause : Event Sockets → ℚ
  | ⟨.sleep seconds, .ok _⟩ => seconds
  | _ => 0

def slept (es : List (Event Sockets)) : ℚ := (es.map pause).sum

def Bookless (es : List (Event Sockets)) : Prop :=
  ∀ e ∈ es, e.call.watches = true → ∃ x, e.reply = .error x

section
variable {q : Pacing} {e : Event Sockets} {es : List (Event Sockets)}

@[simp] theorem slept_nil : slept [] = 0 := rfl

theorem slept_cons (e : Event Sockets) (es : List (Event Sockets)) :
    slept (e :: es) = pause e + slept es := by
  simp [slept]

theorem attempts_cons (e : Event Sockets) (es : List (Event Sockets)) :
    attempts (e :: es) = attempts es + if e.call.watches then 1 else 0 := by
  simp only [attempts, List.countP_cons]

/-- The delays that are due between `n` attempts after `k` failures. -/
def delays (k n : ℕ) : ℚ := 4 / 5 * ∑ j ∈ Finset.range n, backoffBase ((k + j : ℕ) : ℤ)

theorem delays_nonneg (k n : ℕ) : 0 ≤ delays k n := by
  refine mul_nonneg (by norm_num) (Finset.sum_nonneg fun j _ => ?_)
  linarith [(backoffBase_bounds (k + j)).1]

theorem delays_succ (k n : ℕ) : delays k (n + 1) = 4 / 5 * backoffBase k + delays (k + 1) n := by
  simp only [delays, Finset.sum_range_succ', Nat.add_zero, ← Nat.add_assoc, Nat.add_right_comm k _ 1]
  ring

theorem delays_mono {k l : ℕ} (h : k ≤ l) (n : ℕ) : delays k n ≤ delays l n := by
  refine mul_le_mul_of_nonneg_left (Finset.sum_le_sum fun j _ => ?_) (by norm_num)
  exact backoffBase_mono (by omega)

theorem delays_shorter (k : ℕ) {m n : ℕ} (h : m ≤ n) : delays k m ≤ delays k n := by
  refine mul_le_mul_of_nonneg_left ?_ (by norm_num)
  refine Finset.sum_le_sum_of_subset_of_nonneg (Finset.range_mono h) fun j _ _ => ?_
  linarith [(backoffBase_bounds (k + j)).1]

def Pacing.spared (q : Pacing) : ℕ := if q.due then 0 else 1

theorem step_delays (n : ℕ) (hq : pacing.allows q e)
    (hbook : e.call.watches = true → ∃ x, e.reply = .error x) :
    delays q.failures (n + (if e.call.watches then 1 else 0) - q.spared) ≤
      pause e + delays (q.step e).failures (n - (q.step e).spared) := by
  obtain ⟨c, a⟩ := e
  have hfailed : ∀ q' : Pacing, q'.failures = q.failures → q'.due = true → q.due = false →
      delays q.failures (n + 1 - q.spared) ≤ 0 + delays q'.failures (n - q'.spared) := by
    intro q' hfailures hdue hidle
    simp [Pacing.spared, hfailures, hdue, hidle]
  have hsame : ∀ q' : Pacing, q'.failures = q.failures → q'.due = q.due →
      delays q.failures (n + 0 - q.spared) ≤ 0 + delays q'.failures (n - q'.spared) := by
    intro q' hfailures hdue
    simp [Pacing.spared, hfailures, hdue]
  cases c with
  | watchOrderBook symbol =>
    cases a with
    | ok book =>
      obtain ⟨x, hx⟩ := hbook rfl
      cases hx
    | error x => exact hfailed { q with due := true, started := true } rfl rfl hq
  | watchOrderBookForSymbols symbols =>
    cases a with
    | ok book =>
      obtain ⟨x, hx⟩ := hbook rfl
      cases hx
    | error x => exact hfailed { q with due := true, started := true } rfl rfl hq
  | sleep seconds =>
    cases a with
    | error x => exact hsame { q with started := true } rfl rfl
    | ok _ =>
      have hpause : q.mayPause seconds := hq
      unfold Pacing.mayPause at hpause
      cases hdrawn : q.drawn with
      | none =>
        rw [hdrawn] at hpause
        obtain ⟨rfl, hseconds⟩ := hpause
        have h := hsame { Pacing.start with started := true } rfl rfl
        refine h.trans ?_
        have hstep : Pacing.start.step ⟨.sleep seconds, .ok ()⟩ =
          { Pacing.start with started := true } := rfl
        rw [hstep]
        exact add_le_add_left hseconds _
      | some u =>
        rw [hdrawn] at hpause
        obtain ⟨rfl, hlow, -⟩ := hpause
        have hbase := (backoffBase_bounds q.failures).1
        have hsleep : 4 / 5 * backoffBase q.failures ≤ backoffBase q.failures * u := by
          rw [mul_comm]
          exact mul_le_mul_of_nonneg_left hlow (by linarith)
        have hnext : q.step ⟨.sleep (backoffBase q.failures * u), .ok ()⟩ =
            ⟨q.failures + 1, none, false, true⟩ := by simp [Pacing.step, hdrawn]
        rw [hnext]
        simp only [SocketCall.watches, Pacing.spared, pause, Bool.false_eq_true, if_false,
          Nat.add_zero]
        cases hdue : q.due with
        | true =>
          simp only [if_true, Nat.sub_zero]
          cases n with
          | zero =>
            have h := delays_nonneg (q.failures + 1) (0 - 1)
            have h0 : delays q.failures 0 = 0 := by simp [delays]
            linarith
          | succ n =>
            rw [delays_succ, Nat.add_sub_cancel]
            linarith
        | false =>
          simp only [Bool.false_eq_true, if_false]
          have h := delays_mono (Nat.le_succ q.failures) (n - 1)
          linarith
  | uniform low high =>
    cases a with
    | error x => exact hsame { q with started := true } rfl rfl
    | ok u => exact hsame { q with drawn := some u, started := true } rfl rfl
  | _ => exact hsame { q with started := true } rfl rfl

theorem bookless_delays (hacc : pacing.Accepts q es) (hes : Bookless es) :
    delays q.failures (attempts es - q.spared) ≤ slept es := by
  induction es generalizing q with
  | nil => simp [attempts, delays]
  | cons e es ih =>
    have hrest := ih hacc.2 fun d hd => hes d (List.mem_cons_of_mem _ hd)
    have hone := step_delays (attempts es) hacc.1 (hes e List.mem_cons_self)
    rw [attempts_cons, slept_cons]
    linarith

end

/-- Between two attempts: `k` delays since the last book, and none is due. -/
def Pacing.At (k : ℕ) (q : Pacing) : Prop := q.failures = k ∧ q.drawn = none ∧ q.due = false

def SocketCall.aside : SocketCall → Prop
  | .watchOrderBook _ | .watchOrderBookForSymbols _ | .uniform _ _ | .sleep _ => False
  | _ => True

theorem pacing_aside {I : Pacing → Prop} (hI : ∀ q : Pacing, I q → I { q with started := true })
    (q : pacing.State) (c : SocketCall) (a : Except PyExc c.Reply) (hq : I q) (hc : c.aside) :
    pacing.allows q ⟨c, a⟩ ∧ I (pacing.next q ⟨c, a⟩) := by
  cases c <;> first | exact hc.elim | exact ⟨trivial, hI q hq⟩

theorem reconnect_pacing (k : ℕ) (x : PyExc) (q : Pacing) (hk : q.failures = k) :
    (reconnect k x).Meets pacing (Gives SocketWorld.serve) q fun r q' =>
      ∀ a, r = .ok a → a = (k + 1 : ℕ) ∧ q'.At (k + 1) := by
  unfold reconnect
  split
  · refine (Prog.meets_call_bind _ _ _).mpr
      ⟨fun _ _ => ⟨trivial, ?_⟩, fun x _ => ⟨trivial, fun a h => (by cases h)⟩⟩
    unfold backoffDelay
    rw [Prog.meets_bind]
    refine (Prog.meets_call_bind _ _ _).mpr ⟨fun u hu => ⟨trivial, ?_⟩,
      fun x _ => ⟨trivial, fun a h => (by cases h)⟩⟩
    obtain ⟨v, hv, hlow, hhigh⟩ := gives_uniform hu
    cases hv
    have hpause : ({ q with started := true, drawn := some u } : Pacing).mayPause
        (backoffBase k * u) := ⟨by rw [hk], hlow, hhigh⟩
    refine (Prog.meets_call_bind _ _ _).mpr ⟨fun _ _ => ⟨hpause, fun a h => ?_⟩,
      fun x _ => ⟨hpause, fun a h => (by cases h)⟩⟩
    cases h
    exact ⟨by push_cast; rfl, by rw [← hk]; rfl, rfl, rfl⟩
  · exact fun a h => (by cases h)

theorem awaitBook_pacing (symbol : String) (connectedOnce : Bool) (k : ℕ) (q : Pacing)
    (hq : q.At k) :
    (awaitBook symbol connectedOnce).Meets pacing (Gives SocketWorld.serve) q fun r q' =>
      match r with
      | .ok _ => q'.At 0
      | .error _ => q'.failures = k := by
  obtain ⟨hk, hdrawn, hdue⟩ := hq
  unfold awaitBook
  split
  · rintro (x | b) -
    · exact ⟨hdue, hk⟩
    · exact ⟨hdue, rfl, rfl, rfl⟩
  · refine (Prog.meets_call_bind _ _ _).mpr ⟨fun _ _ => ⟨trivial, ?_⟩, fun x _ => ⟨trivial, hk⟩⟩
    rw [Prog.meets_ensure]
    rintro (x | b) -
    · refine ⟨hdue, ?_⟩
      rintro (y | _) -
      · exact ⟨trivial, hk⟩
      · exact ⟨trivial, hk⟩
    · refine ⟨hdue, ?_⟩
      rintro a ⟨w, rfl⟩
      exact ⟨trivial, rfl, rfl, rfl⟩

theorem handled_pacing {β : Type} (p : Prog Sockets Unit) (hp : p.Uses SocketCall.publishing)
    (next : Except PyExc Unit → Prog Sockets β) (post : Except PyExc β → Pacing → Prop)
    (q : Pacing) (hq : q.At 0) (hpost : ∀ x q', post (.error x) q')
    (hnext : ∀ r q', q'.At 0 → (next r).Meets pacing (Gives SocketWorld.serve) q' post) :
    (do
      Prog.call (S := Sockets) (.setStatus .connected)
      let handled ← p.attempt
      next handled).Meets pacing (Gives SocketWorld.serve) q post := by
  refine (Prog.meets_call_bind _ _ _).mpr ⟨fun _ _ => ⟨trivial, ?_⟩,
    fun x _ => ⟨trivial, hpost x _⟩⟩
  rw [Prog.meets_bind, Prog.meets_attempt]
  have haside := hp.mono fun c hc =>
    show c.aside by cases c <;> first | exact hc.elim | exact trivial
  have hnow : Pacing.At 0 (q.step ⟨.setStatus .connected, .ok ()⟩) := hq
  refine (haside.meets (pacing_aside fun q hq => hq) hnow).mono ?_
  exact fun r q' hq' => hnext r q' hq'

section
variable [PyText]

theorem symbolPass_pacing (name symbol : String) (connectedOnce : Bool) (k : ℕ) (q : Pacing)
    (hq : q.At k) :
    (symbolPass name symbol k connectedOnce).Meets pacing (Gives SocketWorld.serve) q
      fun r q' => ∀ ac, r = .ok ac → ∃ l : ℕ, ac.1 = l ∧ q'.At l := by
  have hfailed : ∀ (k : ℕ) (x : PyExc) (q : Pacing), q.failures = k →
      (do return (← reconnect k x, false) : Prog Sockets (ℤ × Bool)).Meets pacing
        (Gives SocketWorld.serve) q fun r q' => ∀ ac, r = .ok ac → ∃ l : ℕ, ac.1 = l ∧ q'.At l := by
    intro k x q hk
    rw [Prog.meets_bind]
    refine (reconnect_pacing k x q hk).mono ?_
    rintro (y | a) q' h
    · exact fun ac h => (by cases h)
    · rintro ac ⟨⟩
      exact ⟨k + 1, h a rfl⟩
  unfold symbolPass
  rw [Prog.meets_bind, Prog.meets_attempt]
  refine (awaitBook_pacing symbol connectedOnce k q hq).mono ?_
  rintro (x | book) q' hq'
  · exact hfailed k x q' hq'
  · refine handled_pacing _ (handleOrderBook_uses name symbol book) _ _ q' hq'
      (fun x q' ac h => (by cases h)) ?_
    rintro (x | _) q'' hq''
    · exact hfailed 0 x q'' hq''.1
    · rintro ac ⟨⟩
      exact ⟨0, rfl, hq''⟩

theorem multiplexedPass_pacing (name : String) (symbols : List String) (k : ℕ) (q : Pacing)
    (hq : q.At k) :
    (multiplexedPass name symbols k).Meets pacing (Gives SocketWorld.serve) q
      fun r q' => ∀ a, r = .ok a → ∃ l : ℕ, a = l ∧ q'.At l := by
  have hfailed : ∀ (k : ℕ) (x : PyExc) (q : Pacing), q.failures = k →
      (reconnect k x).Meets pacing (Gives SocketWorld.serve) q
        fun r q' => ∀ a, r = .ok a → ∃ l : ℕ, a = l ∧ q'.At l :=
    fun k x q hk => (reconnect_pacing k x q hk).mono fun r q' h a ha => ⟨k + 1, h a ha⟩
  obtain ⟨hk, hdrawn, hdue⟩ := hq
  unfold multiplexedPass
  rw [Prog.meets_bind, Prog.meets_attempt]
  rintro (x | book) -
  · exact ⟨hdue, hfailed k x _ hk⟩
  · refine ⟨hdue, handled_pacing _ ?_ _ _ _ ⟨rfl, rfl, rfl⟩ (fun x q' a h => (by cases h)) ?_⟩
    · split
      · exact Prog.uses_pure ()
      · exact Prog.uses_pure ()
      · exact handleOrderBook_uses name _ book
    · rintro (x | _) q'' hq''
      · exact hfailed 0 x q'' hq''.1
      · rintro a ⟨⟩
        exact ⟨0, rfl, hq''⟩

theorem symbolLoop_pacing (name symbol : String) (n k : ℕ) (connectedOnce : Bool) (q : Pacing)
    (hq : q.At k) :
    (symbolLoop name symbol n k connectedOnce).Meets pacing (Gives SocketWorld.serve) q
      fun _ _ => True := by
  induction n generalizing k connectedOnce q with
  | zero => trivial
  | succ n ih =>
    unfold symbolLoop
    refine (Prog.meets_call_bind _ _ _).mpr ⟨fun b _ => ⟨trivial, ?_⟩, fun x _ => ⟨trivial, trivial⟩⟩
    cases b with
    | false => trivial
    | true =>
      simp only [if_true]
      have hnow : (q.step ⟨.running, .ok true⟩).At k := hq
      rw [Prog.meets_bind]
      refine (symbolPass_pacing name symbol connectedOnce k _ hnow).mono ?_
      rintro (x | ⟨attempt, connected⟩) q' h
      · trivial
      · obtain ⟨l, rfl, hl⟩ := h _ rfl
        exact ih l connected q' hl

theorem watchMultiplexed_pacing (name : String) (symbols : List String) (n k : ℕ) (q : Pacing)
    (hq : q.At k) :
    (watchMultiplexed name symbols n k).Meets pacing (Gives SocketWorld.serve) q
      fun _ _ => True := by
  induction n generalizing k q with
  | zero => trivial
  | succ n ih =>
    unfold watchMultiplexed
    refine (Prog.meets_call_bind _ _ _).mpr ⟨fun b _ => ⟨trivial, ?_⟩, fun x _ => ⟨trivial, trivial⟩⟩
    cases b with
    | false => trivial
    | true =>
      simp only [if_true]
      have hnow : (q.step ⟨.running, .ok true⟩).At k := hq
      rw [Prog.meets_bind]
      refine (multiplexedPass_pacing name symbols k _ hnow).mono ?_
      rintro (x | attempt) q' h
      · trivial
      · obtain ⟨l, rfl, hl⟩ := h _ rfl
        exact ih l q' hl

theorem startTasks_pacing (multiplexed : Bool) (name : String) (symbols : List String) (n : ℕ)
    (i : Fin (taskCount multiplexed name symbols)) :
    (startTasks multiplexed name symbols n i).Meets pacing (Gives SocketWorld.serve) Pacing.start
      fun _ _ => True := by
  have hstart : Pacing.start.At 0 := ⟨rfl, rfl, rfl⟩
  cases multiplexed with
  | true => exact watchMultiplexed_pacing name _ n 0 _ hstart
  | false =>
    simp only [startTasks, symbolTasks, watchSymbol]
    split
    · rename_i hdelay
      have hpause : Pacing.start.mayPause (i.val * staggerDelaySec) := ⟨rfl, hdelay.le⟩
      refine (Prog.meets_call_bind _ _ _).mpr ⟨fun _ _ => ⟨hpause, ?_⟩,
        fun x _ => ⟨hpause, trivial⟩⟩
      exact symbolLoop_pacing name _ n 0 false _ ⟨rfl, rfl, rfl⟩
    · exact symbolLoop_pacing name _ n 0 false _ hstart

end

theorem after_started (q : Pacing) (es : List (Event Sockets)) (h : es ≠ []) :
    (pacing.after q es : Pacing).started = true := by
  have hstep : ∀ (q : Pacing) e, (q.step e).started = true := by
    intro q e
    unfold Pacing.step
    split
    · rfl
    · rfl
    · rfl
    · rfl
    · rfl
    · split <;> rfl
    · rfl
  rw [← List.dropLast_append_getLast h, Monitor.after_append]
  exact hstep _ _

/-- However the tasks are interleaved and whatever fails, a socket without a book is tried again
only after the delays of `backoff_delay`: 0.8 s at first, and at least 48 s from the fifth failure
on. And no delay is longer than 72 s. -/
theorem reconnects_paced [PyText] (multiplexed : Bool) (name : String) (symbols : List String)
    (n : ℕ) (w : SocketWorld) (schedule : List (Fin (taskCount multiplexed name symbols)))
    (i : Fin (taskCount multiplexed name symbols)) :
    let run := runReady (fun c w => w.ready c) SocketWorld.serve schedule
      (startTasks multiplexed name symbols n) w
    (∀ before during rest, own i run.log = before ++ during ++ rest → Bookless during →
      delays 0 (attempts during - 1) ≤ slept during) ∧
    ∀ before seconds a rest, own i run.log = before ++ ⟨.sleep seconds, a⟩ :: rest →
      before ≠ [] → 4 / 5 ≤ seconds ∧ seconds ≤ 72 := by
  intro run
  have hacc : pacing.Accepts Pacing.start (own i run.log) :=
    (meets_runReady _ _ schedule _ _ i (startTasks_pacing multiplexed name symbols n i)).1
  constructor
  · intro before during rest hlog hbookless
    rw [hlog, Monitor.accepts_append, Monitor.accepts_append] at hacc
    have h := bookless_delays hacc.1.2 hbookless
    refine le_trans ?_ h
    calc delays 0 (attempts during - 1) ≤ delays 0 (attempts during - _) :=
          delays_shorter 0 (Nat.sub_le_sub_left (by unfold Pacing.spared; split <;> omega) _)
      _ ≤ _ := delays_mono (Nat.zero_le _) _
  · intro before seconds a rest hlog hbefore
    rw [hlog, Monitor.accepts_append] at hacc
    have hpause : (pacing.after Pacing.start before : Pacing).mayPause seconds := hacc.2.1
    have hstarted := after_started Pacing.start before hbefore
    unfold Pacing.mayPause at hpause
    split at hpause
    · obtain ⟨rfl, hlow, hhigh⟩ := hpause
      obtain ⟨hone, hsixty⟩ :=
        backoffBase_bounds (pacing.after Pacing.start before : Pacing).failures
      constructor
      · nlinarith
      · nlinarith
    · rw [hpause.1] at hstarted
      cases hstarted

end CriptoParser
