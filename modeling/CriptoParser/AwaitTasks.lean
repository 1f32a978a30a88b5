import CriptoParser.AwaitProgram
import Mathlib.Logic.Function.Basic

/-!
Several tasks over one server. A schedule names the task that goes on at each step;
a task goes on by the answer to the call it awaits. Every interleaving of the awaits
is some schedule. What holds of an interleaving is proved from a monitor for each task
and an invariant between their states.
-/

set_option autoImplicit false

namespace CriptoParser.Await

def Prog.isDone {S : Signature} {α : Type} : Prog S α → Bool
  | .done _ => true
  | .await _ _ => false

section
variable {S : Signature} {σ ι α : Type} [DecidableEq ι]

/-- What a schedule leaves: the answered calls, each with its task, the tasks and the state. -/
structure Interleaved (S : Signature) (σ ι α : Type) where
  log : List (ι × Event S)
  tasks : ι → Prog S α
  state : σ

def runTasks (serve : Server S σ) : List ι → (ι → Prog S α) → σ → Interleaved S σ ι α
  | [], ts, s => ⟨[], ts, s⟩
  | i :: rest, ts, s =>
    match ts i with
    | .done _ => runTasks serve rest ts s
    | .await c k =>
      let after := runTasks serve rest (Function.update ts i (k (serve c s).1)) (serve c s).2
      { after with log := (i, ⟨c, (serve c s).1⟩) :: after.log }

def own (i : ι) : List (ι × Event S) → List (Event S)
  | [] => []
  | (j, e) :: log => if j = i then e :: own i log else own i log

def merged (log : List (ι × Event S)) : List (Event S) := log.map Prod.snd

@[simp] theorem own_cons_self (i : ι) (e : Event S) (log : List (ι × Event S)) :
    own i ((i, e) :: log) = e :: own i log := if_pos rfl

theorem own_cons_other {i j : ι} (h : j ≠ i) (e : Event S) (log : List (ι × Event S)) :
    own i ((j, e) :: log) = own i log := if_neg h

theorem own_subset (i : ι) (log : List (ι × Event S)) : ∀ e ∈ own i log, e ∈ merged log := by
  induction log with
  | nil => simp [own]
  | cons je log ih =>
    obtain ⟨j, e⟩ := je
    intro d hd
    unfold own at hd
    split at hd
    · rcases List.mem_cons.mp hd with rfl | hd
      · exact List.mem_cons_self
      · exact List.mem_cons_of_mem _ (ih d hd)
    · exact List.mem_cons_of_mem _ (ih d hd)

theorem own_length (i : ι) (log : List (ι × Event S)) : (own i log).length ≤ log.length := by
  induction log with
  | nil => exact Nat.le_refl 0
  | cons je log ih =>
    obtain ⟨j, e⟩ := je
    unfold own
    split
    · exact Nat.succ_le_succ ih
    · exact Nat.le_succ_of_le ih

variable (serve : Server S σ)

theorem follows_runTasks (schedule : List ι) (ts : ι → Prog S α) (s : σ) :
    Follows serve s (merged (runTasks serve schedule ts s).log)
      (runTasks serve schedule ts s).state := by
  induction schedule generalizing ts s with
  | nil => rfl
  | cons i rest ih =>
    unfold runTasks
    split
    · exact ih ts s
    · exact ⟨rfl, ih _ _⟩

theorem runTasks_append (first later : List ι) (ts : ι → Prog S α) (s : σ) :
    runTasks serve (first ++ later) ts s =
      { runTasks serve later (runTasks serve first ts s).tasks (runTasks serve first ts s).state with
        log := (runTasks serve first ts s).log ++ (runTasks serve later
          (runTasks serve first ts s).tasks (runTasks serve first ts s).state).log } := by
  induction first generalizing ts s with
  | nil => rfl
  | cons i rest ih =>
    rw [List.cons_append, runTasks, runTasks]
    split
    · exact ih ts s
    · rw [ih]
      rfl

theorem runTasks_length (schedule : List ι) (ts : ι → Prog S α) (s : σ) :
    (runTasks serve schedule ts s).log.length ≤ schedule.length := by
  induction schedule generalizing ts s with
  | nil => exact Nat.le_refl 0
  | cons i rest ih =>
    unfold runTasks
    split
    · exact Nat.le_succ_of_le (ih ts s)
    · exact Nat.succ_le_succ (ih _ _)

theorem runTasks_replicate (k : ℕ) (i : ι) (ts : ι → Prog S α) (s : σ)
    (h : ((runTasks serve (List.replicate k i) ts s).tasks i).isDone = false) :
    ∃ es : List (Event S), (runTasks serve (List.replicate k i) ts s).log = es.map (Prod.mk i) ∧
      es.length = k := by
  induction k generalizing ts s with
  | zero => exact ⟨[], rfl, rfl⟩
  | succ k ih =>
    rw [List.replicate_succ] at h ⊢
    unfold runTasks at h ⊢
    split at h
    · rename_i r hdone
      have hkeep : ∀ k, (runTasks serve (List.replicate k i) ts s).tasks = ts := by
        intro k
        induction k with
        | zero => rfl
        | succ k ih =>
          rw [List.replicate_succ]
          unfold runTasks
          simp only [hdone, ih]
      rw [hkeep, hdone] at h
      cases h
    · rename_i c f hawait
      obtain ⟨es, hlog, hlength⟩ := ih _ _ h
      refine ⟨⟨c, (serve c s).1⟩ :: es, ?_, by rw [List.length_cons, hlength]⟩
      simp only [hlog, List.map_cons]

theorem reaches_runTasks (schedule : List ι) (ts : ι → Prog S α) (s : σ) (i : ι) :
    (ts i).Reaches (own i (runTasks serve schedule ts s).log)
      ((runTasks serve schedule ts s).tasks i) := by
  induction schedule generalizing ts s with
  | nil => rfl
  | cons j rest ih =>
    unfold runTasks
    split
    · exact ih ts s
    · rename_i c k hj
      have hrest := ih (Function.update ts j (k (serve c s).1)) (serve c s).2
      by_cases h : j = i
      · subst h
        rw [Function.update_self] at hrest
        simp only [own_cons_self]
        exact ⟨k, hj, hrest⟩
      · rw [Function.update_of_ne (Ne.symm h)] at hrest
        simp only [own_cons_other h]
        exact hrest

theorem ends_runTasks (schedule : List ι) (ts : ι → Prog S α) (s : σ) (i : ι) :
    ∃ rest s' r, Follows serve (runTasks serve schedule ts s).state rest s' ∧
      (ts i).Ends (own i (runTasks serve schedule ts s).log ++ rest) r := by
  have hreach := reaches_runTasks serve schedule ts s i
  generalize hq : (runTasks serve schedule ts s).tasks i = q at hreach
  generalize (runTasks serve schedule ts s).state = m
  refine ⟨q.trace serve m, (q.run serve m).2, (q.run serve m).1, q.follows_trace serve m, ?_⟩
  have hends := (Prog.ends_iff_reaches _ _ _).mp (q.ends_trace serve m)
  exact (Prog.ends_iff_reaches _ _ _).mpr (Prog.reaches_append _ _ _ _ _ hreach hends)

theorem ends_of_isDone (schedule : List ι) (ts : ι → Prog S α) (s : σ) (i : ι)
    (h : ((runTasks serve schedule ts s).tasks i).isDone = true) :
    ∃ r, (ts i).Ends (own i (runTasks serve schedule ts s).log) r := by
  have hreach := reaches_runTasks serve schedule ts s i
  cases hq : (runTasks serve schedule ts s).tasks i with
  | done r =>
    rw [hq] at hreach
    exact ⟨r, (Prog.ends_iff_reaches _ _ _).mpr hreach⟩
  | await c k => simp [hq, Prog.isDone] at h

end

structure Monitor (ε : Type) where
  State : Type
  next : State → ε → State
  allows : State → ε → Prop

namespace Monitor
variable {ε : Type} (M : Monitor ε)

def Accepts : M.State → List ε → Prop
  | _, [] => True
  | q, e :: es => M.allows q e ∧ Accepts (M.next q e) es

def after (q : M.State) (es : List ε) : M.State := es.foldl M.next q

instance decidableAccepts [∀ q e, Decidable (M.allows q e)] :
    (q : M.State) → (es : List ε) → Decidable (M.Accepts q es)
  | _, [] => isTrue trivial
  | q, e :: es => @instDecidableAnd _ _ _ (decidableAccepts (M.next q e) es)

theorem accepts_append (q : M.State) (es fs : List ε) :
    M.Accepts q (es ++ fs) ↔ M.Accepts q es ∧ M.Accepts (M.after q es) fs := by
  induction es generalizing q with
  | nil => simp [Accepts, after]
  | cons e es ih => simp [Accepts, after, ih, and_assoc]

theorem after_append (q : M.State) (es fs : List ε) :
    M.after q (es ++ fs) = M.after (M.after q es) fs := List.foldl_append ..

theorem accepts_still {q : M.State} {es : List ε}
    (h : ∀ e ∈ es, M.allows q e ∧ M.next q e = q) : M.Accepts q es ∧ M.after q es = q := by
  induction es with
  | nil => exact ⟨trivial, rfl⟩
  | cons e es ih =>
    obtain ⟨ha, hn⟩ := h e List.mem_cons_self
    have hrest := ih fun d hd => h d (List.mem_cons_of_mem _ hd)
    refine ⟨⟨ha, ?_⟩, ?_⟩
    · rw [hn]
      exact hrest.1
    · rw [after, List.foldl_cons, hn]
      exact hrest.2

end Monitor

section
variable {S : Signature} {σ ι α : Type} [DecidableEq ι]

/-- What the tasks guarantee together: the own events of each task pass its monitor, the
whole log passes `A`, and an invariant ties the states of the monitors to the server's. The
invariant also holds at the end. -/
theorem accepts_of_tasks (serve : Server S σ) (M : ι → Monitor (Event S))
    (A G : Monitor (ι × Event S))
    (inv : σ → ((i : ι) → (M i).State) → A.State → G.State → Prop)
    (step : ∀ s q a g i c, inv s q a g →
      (M i).allows (q i) ⟨c, (serve c s).1⟩ → A.allows a (i, ⟨c, (serve c s).1⟩) →
      G.allows g (i, ⟨c, (serve c s).1⟩) ∧
        inv (serve c s).2 (Function.update q i ((M i).next (q i) ⟨c, (serve c s).1⟩))
          (A.next a (i, ⟨c, (serve c s).1⟩)) (G.next g (i, ⟨c, (serve c s).1⟩)))
    {log : List (ι × Event S)} {s s' : σ} {q : (i : ι) → (M i).State} {a : A.State}
    {g : G.State} (hf : Follows serve s (merged log) s') (hinv : inv s q a g)
    (hown : ∀ i, (M i).Accepts (q i) (own i log)) (hA : A.Accepts a log) :
    G.Accepts g log ∧ ∃ q' a', inv s' q' a' (G.after g log) := by
  induction log generalizing s q a g with
  | nil =>
    cases hf
    exact ⟨trivial, q, a, hinv⟩
  | cons je log ih =>
    obtain ⟨i, c, v⟩ := je
    obtain ⟨hr, hf⟩ := hf
    change v = (serve c s).1 at hr
    subst hr
    have hi := hown i
    rw [own_cons_self] at hi
    obtain ⟨hg, hinv'⟩ := step s q a g i c hinv hi.1 hA.1
    have hrest : ∀ j, (M j).Accepts
        (Function.update q i ((M i).next (q i) ⟨c, (serve c s).1⟩) j) (own j log) := by
      intro j
      by_cases hj : i = j
      · subst hj
        rw [Function.update_self]
        exact hi.2
      · rw [Function.update_of_ne (Ne.symm hj), ← own_cons_other hj]
        exact hown j
    obtain ⟨hacc, hend⟩ := ih hf hinv' hrest hA.2
    exact ⟨⟨hg, hacc⟩, hend⟩

theorem states_of_tasks (serve : Server S σ) (M : ι → Monitor (Event S))
    (G : Monitor (ι × Event S)) (inv : σ → ((i : ι) → (M i).State) → G.State → Prop)
    (step : ∀ s q g i c, inv s q g → (M i).allows (q i) ⟨c, (serve c s).1⟩ →
      G.allows g (i, ⟨c, (serve c s).1⟩) ∧
        inv (serve c s).2 (Function.update q i ((M i).next (q i) ⟨c, (serve c s).1⟩))
          (G.next g (i, ⟨c, (serve c s).1⟩)))
    {log : List (ι × Event S)} {s s' : σ} {q : (i : ι) → (M i).State} {g : G.State}
    (hf : Follows serve s (merged log) s') (hinv : inv s q g)
    (hown : ∀ i, (M i).Accepts (q i) (own i log)) :
    G.Accepts g log ∧ inv s' (fun i => (M i).after (q i) (own i log)) (G.after g log) := by
  induction log generalizing s q g with
  | nil =>
    cases hf
    exact ⟨trivial, hinv⟩
  | cons je log ih =>
    obtain ⟨i, c, v⟩ := je
    obtain ⟨hr, hf⟩ := hf
    change v = (serve c s).1 at hr
    subst hr
    have hi := hown i
    rw [own_cons_self] at hi
    obtain ⟨hg, hinv'⟩ := step s q g i c hinv hi.1
    have hsplit : ∀ j, own j ((i, ⟨c, (serve c s).1⟩) :: log) =
        if i = j then ⟨c, (serve c s).1⟩ :: own j log else own j log := fun _ => rfl
    have hlater : ∀ j, (M j).Accepts
          (Function.update q i ((M i).next (q i) ⟨c, (serve c s).1⟩) j) (own j log) ∧
        (M j).after (q j) (own j ((i, ⟨c, (serve c s).1⟩) :: log)) =
          (M j).after (Function.update q i ((M i).next (q i) ⟨c, (serve c s).1⟩) j) (own j log) := by
      intro j
      rw [hsplit j]
      by_cases hj : i = j
      · subst hj
        rw [if_pos rfl, Function.update_self]
        exact ⟨hi.2, rfl⟩
      · rw [if_neg hj, Function.update_of_ne (Ne.symm hj)]
        refine ⟨?_, rfl⟩
        rw [← own_cons_other hj]
        exact hown j
    obtain ⟨haccepts, hend⟩ := ih hf hinv' fun j => (hlater j).1
    refine ⟨⟨hg, haccepts⟩, ?_⟩
    rw [show (fun j => (M j).after (q j) (own j ((i, ⟨c, (serve c s).1⟩) :: log))) =
      fun j => (M j).after (Function.update q i ((M i).next (q i) ⟨c, (serve c s).1⟩) j) (own j log)
      from funext fun j => (hlater j).2]
    exact hend

end

end CriptoParser.Await
