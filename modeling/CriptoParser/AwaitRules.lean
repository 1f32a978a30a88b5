import CriptoParser.AwaitTasks
import Mathlib.Algebra.BigOperators.Group.Finset.Basic
import Mathlib.Data.Fintype.Basic

/-!
Pre- and postconditions of one task against a monitor, with one rule for each way of composing
programs. Calls that wait until the state lets them go on, and what such a state shares out among
the tasks.
-/

set_option autoImplicit false

namespace CriptoParser.Await

namespace Prog
variable {S : Signature} {α β : Type}

/-- From the state `q` the monitor allows every path of the program on which the calls are
answered as `can` says, and `post` holds of the result and the state where a path ends. -/
def Meets (M : Monitor (Event S)) (can : (c : S.Call) → Except S.Exc (S.Reply c) → Prop) :
    Prog S α → M.State → (Except S.Exc α → M.State → Prop) → Prop
  | done r, q, post => post r q
  | await c k, q, post =>
    ∀ a, can c a → M.allows q ⟨c, a⟩ ∧ (k a).Meets M can (M.next q ⟨c, a⟩) post

variable {M : Monitor (Event S)} {can : (c : S.Call) → Except S.Exc (S.Reply c) → Prop}
  {q : M.State}

@[simp] theorem meets_lift (r : Except S.Exc α) (post : Except S.Exc α → M.State → Prop) :
    (lift r).Meets M can q post ↔ post r q := Iff.rfl

theorem Meets.mono {p : Prog S α} {post post' : Except S.Exc α → M.State → Prop}
    (h : p.Meets M can q post) (hpost : ∀ r q', post r q' → post' r q') :
    p.Meets M can q post' := by
  induction p generalizing q with
  | done r => exact hpost r q h
  | await c k ih => exact fun a ha => ⟨(h a ha).1, ih a (h a ha).2⟩

theorem meets_bind (p : Prog S α) (f : α → Prog S β)
    (post : Except S.Exc β → M.State → Prop) :
    (p >>= f).Meets M can q post ↔
      p.Meets M can q fun r q' => match r with
        | .ok a => (f a).Meets M can q' post
        | .error x => post (.error x) q' := by
  rw [bind_eq]
  induction p generalizing q with
  | done r => cases r <;> rfl
  | await c k ih =>
    exact forall_congr' fun a => imp_congr_right fun _ => and_congr_right fun _ => ih a

theorem meets_handle (p : Prog S α) (f : S.Exc → Prog S α)
    (post : Except S.Exc α → M.State → Prop) :
    (p.handle f).Meets M can q post ↔
      p.Meets M can q fun r q' => match r with
        | .ok a => post (.ok a) q'
        | .error x => (f x).Meets M can q' post := by
  induction p generalizing q with
  | done r => cases r <;> rfl
  | await c k ih =>
    exact forall_congr' fun a => imp_congr_right fun _ => and_congr_right fun _ => ih a

theorem meets_call (c : S.Call) (post : Except S.Exc (S.Reply c) → M.State → Prop) :
    (call c).Meets M can q post ↔
      ∀ a, can c a → M.allows q ⟨c, a⟩ ∧ post a (M.next q ⟨c, a⟩) := Iff.rfl

theorem meets_call_bind (c : S.Call) (f : S.Reply c → Prog S β)
    (post : Except S.Exc β → M.State → Prop) :
    (@Bind.bind (Prog S) _ (no_index (S.Reply c)) β (call c) f).Meets M can q post ↔
      (∀ v, can c (.ok v) →
        M.allows q ⟨c, .ok v⟩ ∧ (f v).Meets M can (M.next q ⟨c, .ok v⟩) post) ∧
        ∀ x, can c (.error x) →
          M.allows q ⟨c, .error x⟩ ∧ post (.error x) (M.next q ⟨c, .error x⟩) := by
  rw [meets_bind, meets_call]
  constructor
  · intro h
    exact ⟨fun v => h (.ok v), fun x => h (.error x)⟩
  · rintro ⟨hok, herror⟩ a
    cases a with
    | ok v => exact hok v
    | error x => exact herror x

/-- Holds of a result that is none, and where there is one of it and the state. -/
def OnOk {ε σ : Type} (post : α → σ → Prop) : Except ε α → σ → Prop
  | .ok a, q => post a q
  | .error _, _ => True

theorem Meets.next {p : Prog S α} {f : α → Prog S β} {mid : α → M.State → Prop}
    {post : β → M.State → Prop} (hp : p.Meets M can q (OnOk mid))
    (hf : ∀ a q', mid a q' → (f a).Meets M can q' (OnOk post)) :
    (p >>= f).Meets M can q (OnOk post) := by
  rw [meets_bind]
  refine hp.mono ?_
  rintro (x | a) q' hmid
  · trivial
  · exact hf a q' hmid

theorem Meets.reaches {p p' : Prog S α} {post : Except S.Exc α → M.State → Prop}
    {es : List (Event S)} (h : p.Meets M can q post) (hr : p.Reaches es p')
    (hes : ∀ e ∈ es, can e.call e.reply) :
    M.Accepts q es ∧ p'.Meets M can (M.after q es) post := by
  induction es generalizing p q with
  | nil =>
    cases hr
    exact ⟨trivial, h⟩
  | cons e es ih =>
    obtain ⟨c, a⟩ := e
    obtain ⟨k, rfl, hr⟩ := hr
    have ha := h a (hes _ List.mem_cons_self)
    obtain ⟨haccepts, hrest⟩ := ih ha.2 hr fun d hd => hes d (List.mem_cons_of_mem _ hd)
    exact ⟨⟨ha.1, haccepts⟩, hrest⟩

theorem Meets.ends {p : Prog S α} {post : Except S.Exc α → M.State → Prop}
    {es : List (Event S)} {r : Except S.Exc α} (h : p.Meets M can q post) (he : p.Ends es r)
    (hes : ∀ e ∈ es, can e.call e.reply) : M.Accepts q es ∧ post r (M.after q es) :=
  h.reaches ((ends_iff_reaches p es r).mp he) hes

theorem Uses.meets {allowed : S.Call → Prop} {I : M.State → Prop} {p : Prog S α}
    (hp : p.Uses allowed)
    (h : ∀ q c a, I q → allowed c → M.allows q ⟨c, a⟩ ∧ I (M.next q ⟨c, a⟩)) (hq : I q) :
    p.Meets M can q fun _ q' => I q' := by
  induction p generalizing q with
  | done r => exact hq
  | await c k ih =>
    intro a _
    obtain ⟨hallows, hnext⟩ := h q c a hq hp.1
    exact ⟨hallows, ih a (hp.2 a) hnext⟩

def attempt : Prog S α → Prog S (Except S.Exc α)
  | done r => done (.ok r)
  | await c k => await c fun a => (k a).attempt

def ensure (p : Prog S α) (f : Prog S Unit) : Prog S α := do
  let r ← p.attempt
  f
  lift r

theorem meets_attempt (p : Prog S α) (post : Except S.Exc (Except S.Exc α) → M.State → Prop) :
    p.attempt.Meets M can q post ↔ p.Meets M can q fun r q' => post (.ok r) q' := by
  induction p generalizing q with
  | done r => rfl
  | await c k ih =>
    exact forall_congr' fun a => imp_congr_right fun _ => and_congr_right fun _ => ih a

theorem meets_ensure (p : Prog S α) (f : Prog S Unit)
    (post : Except S.Exc α → M.State → Prop) :
    (p.ensure f).Meets M can q post ↔
      p.Meets M can q fun r q' => f.Meets M can q' fun r' q'' => match r' with
        | .ok _ => post r q''
        | .error x => post (.error x) q'' := by
  simp only [ensure, meets_bind, meets_attempt, meets_lift]
  constructor
  · intro h
    exact h.mono fun r q' hf => hf.mono fun r' q'' => by cases r' <;> exact id
  · intro h
    exact h.mono fun r q' hf => hf.mono fun r' q'' => by cases r' <;> exact id

end Prog

def Gives {S : Signature} {σ : Type} (serve : Server S σ) (c : S.Call)
    (a : Except S.Exc (S.Reply c)) : Prop := ∃ s, (serve c s).1 = a

theorem Follows.gives {S : Signature} {σ : Type} {serve : Server S σ} {s s' : σ}
    {es : List (Event S)} (h : Follows serve s es s') : ∀ e ∈ es, Gives serve e.call e.reply := by
  induction es generalizing s with
  | nil => simp
  | cons e es ih =>
    intro d hd
    rcases List.mem_cons.mp hd with rfl | hd
    · exact ⟨s, h.1.symm⟩
    · exact ih h.2 d hd

section
variable {S : Signature} {σ ι α : Type} [DecidableEq ι]

/-- As `runTasks`; a step given to a task whose call has to wait does nothing. -/
def runReady (ready : S.Call → σ → Bool) (serve : Server S σ) :
    List ι → (ι → Prog S α) → σ → Interleaved S σ ι α
  | [], ts, s => ⟨[], ts, s⟩
  | i :: rest, ts, s =>
    match ts i with
    | .done _ => runReady ready serve rest ts s
    | .await c k =>
      if ready c s then
        let after := runReady ready serve rest (Function.update ts i (k (serve c s).1))
          (serve c s).2
        { after with log := (i, ⟨c, (serve c s).1⟩) :: after.log }
      else runReady ready serve rest ts s

/-- As `Follows`, and no call was answered before it was ready. -/
def FollowsReady (ready : S.Call → σ → Bool) (serve : Server S σ) :
    σ → List (Event S) → σ → Prop
  | s, [], s' => s' = s
  | s, e :: es, s' => ready e.call s = true ∧ e.reply = (serve e.call s).1 ∧
      FollowsReady ready serve (serve e.call s).2 es s'

variable (ready : S.Call → σ → Bool) (serve : Server S σ)

theorem followsReady_runReady (schedule : List ι) (ts : ι → Prog S α) (s : σ) :
    FollowsReady ready serve s (merged (runReady ready serve schedule ts s).log)
      (runReady ready serve schedule ts s).state := by
  induction schedule generalizing ts s with
  | nil => rfl
  | cons i rest ih =>
    unfold runReady
    split
    · exact ih ts s
    · split
      · rename_i hready
        exact ⟨hready, rfl, ih _ _⟩
      · exact ih ts s

theorem runReady_eq (schedule : List ι) (ts : ι → Prog S α) (s : σ) :
    ∃ steps, runReady ready serve schedule ts s = runTasks serve steps ts s := by
  induction schedule generalizing ts s with
  | nil => exact ⟨[], rfl⟩
  | cons i rest ih =>
    unfold runReady
    split
    · exact ih ts s
    · rename_i c k hawait
      split
      · obtain ⟨steps, hsteps⟩ := ih (Function.update ts i (k (serve c s).1)) (serve c s).2
        refine ⟨i :: steps, ?_⟩
        simp only [runTasks, hawait, hsteps]
      · exact ih ts s

/-- Where its program meets a condition, a task of a run has kept to it so far and what is left
of it meets it too. -/
theorem meets_runReady {M : Monitor (Event S)} {q : M.State}
    {post : Except S.Exc α → M.State → Prop} (schedule : List ι) (ts : ι → Prog S α) (s : σ)
    (i : ι) (h : (ts i).Meets M (Gives serve) q post) :
    M.Accepts q (own i (runReady ready serve schedule ts s).log) ∧
      ((runReady ready serve schedule ts s).tasks i).Meets M (Gives serve)
        (M.after q (own i (runReady ready serve schedule ts s).log)) post := by
  obtain ⟨steps, hsteps⟩ := runReady_eq ready serve schedule ts s
  rw [hsteps]
  exact h.reaches (reaches_runTasks serve steps ts s i) fun e he =>
    (follows_runTasks serve steps ts s).gives e (own_subset i _ e he)

variable {ready serve}

theorem FollowsReady.follows {s s' : σ} {es : List (Event S)}
    (h : FollowsReady ready serve s es s') : Follows serve s es s' := by
  induction es generalizing s with
  | nil => exact h
  | cons e es ih => exact ⟨h.2.1, ih h.2.2⟩

end

namespace Monitor
variable {ε : Type} {allowed : List ε → ε → Prop}

abbrev free (ε : Type) : Monitor ε := ⟨Unit, fun _ _ => (), fun _ _ => True⟩

theorem free_accepts (es : List ε) : (free ε).Accepts () es := by
  induction es with
  | nil => trivial
  | cons e es ih => exact ⟨trivial, ih⟩

/-- Remembers every event; `allowed` says what may follow on what. -/
abbrev history (allowed : List ε → ε → Prop) : Monitor ε where
  State := List ε
  next log e := log ++ [e]
  allows := allowed

theorem history_after (log es : List ε) : (history allowed).after log es = log ++ es := by
  induction es generalizing log with
  | nil => exact (List.append_nil log).symm
  | cons e es ih =>
    refine (ih (log ++ [e])).trans ?_
    rw [List.append_assoc]
    rfl

theorem history_split {log before rest : List ε} {e : ε}
    (h : (history allowed).Accepts log (before ++ e :: rest)) : allowed (log ++ before) e := by
  have hlater := ((accepts_append (history allowed) log before (e :: rest)).mp h).2
  rw [history_after] at hlater
  exact hlater.1

end Monitor

theorem sum_update {ι A B : Type} [DecidableEq ι] [Fintype ι] [AddCommMonoid A] (f : B → A)
    (q : ι → B) (i : ι) (b : B) :
    ∑ j, f (Function.update q i b j) + f (q i) = ∑ j, f (q j) + f b := by
  have hothers : ∑ j ∈ Finset.univ.erase i, f (Function.update q i b j) =
      ∑ j ∈ Finset.univ.erase i, f (q j) := by
    refine Finset.sum_congr rfl fun j hj => ?_
    rw [Function.update_of_ne (Finset.ne_of_mem_erase hj)]
  rw [← Finset.add_sum_erase Finset.univ (fun j => f (q j)) (Finset.mem_univ i),
    ← Finset.add_sum_erase Finset.univ (fun j => f (Function.update q i b j)) (Finset.mem_univ i),
    hothers, Function.update_self, add_comm, add_left_comm, add_comm (f b), add_assoc]

section
variable {S : Signature} {σ ι A : Type} [DecidableEq ι] [Fintype ι] [AddCommMonoid A]

/-- Where every event moves something between the server and the task that makes it, nothing is
lost and nothing is made, however the tasks are interleaved. -/
theorem shares_kept {ready : S.Call → σ → Bool} {serve : Server S σ} (M : Monitor (Event S))
    (free : σ → A) (share : M.State → A)
    (hstep : ∀ c s q, ready c s = true → M.allows q ⟨c, (serve c s).1⟩ →
      free (serve c s).2 + share (M.next q ⟨c, (serve c s).1⟩) = free s + share q)
    {log : List (ι × Event S)} {s s' : σ} {q : ι → M.State}
    (hf : FollowsReady ready serve s (merged log) s')
    (hown : ∀ i, M.Accepts (q i) (own i log)) :
    free s' + ∑ i, share (M.after (q i) (own i log)) = free s + ∑ i, share (q i) := by
  induction log generalizing s q with
  | nil =>
    cases hf
    rfl
  | cons je log ih =>
    obtain ⟨i, c, v⟩ := je
    obtain ⟨hready, hr, hf⟩ := hf
    change v = (serve c s).1 at hr
    subst hr
    have hi := hown i
    rw [own_cons_self] at hi
    have hrest : ∀ j, M.Accepts
        (Function.update q i (M.next (q i) ⟨c, (serve c s).1⟩) j) (own j log) := by
      intro j
      by_cases hj : i = j
      · subst hj
        rw [Function.update_self]
        exact hi.2
      · rw [Function.update_of_ne (Ne.symm hj), ← own_cons_other hj]
        exact hown j
    have hafter : ∀ j, M.after (q j) (own j ((i, ⟨c, (serve c s).1⟩) :: log)) =
        M.after (Function.update q i (M.next (q i) ⟨c, (serve c s).1⟩) j) (own j log) := by
      intro j
      by_cases hj : i = j
      · subst hj
        rw [Function.update_self, own_cons_self]
        rfl
      · rw [Function.update_of_ne (Ne.symm hj), own_cons_other hj]
    have hrun := ih hf hrest
    have hone := hstep c s (q i) hready hi.1
    simp only [hafter]
    refine hrun.trans ?_
    have hothers : ∑ j ∈ Finset.univ.erase i,
        share (Function.update q i (M.next (q i) ⟨c, (serve c s).1⟩) j) =
          ∑ j ∈ Finset.univ.erase i, share (q j) := by
      refine Finset.sum_congr rfl fun j hj => ?_
      rw [Function.update_of_ne (Finset.ne_of_mem_erase hj)]
    rw [← Finset.add_sum_erase Finset.univ (fun j => share (q j)) (Finset.mem_univ i),
      ← Finset.add_sum_erase Finset.univ (fun j => share (Function.update q i _ j))
        (Finset.mem_univ i), hothers, Function.update_self, ← add_assoc, ← add_assoc, hone]

end

end CriptoParser.Await
