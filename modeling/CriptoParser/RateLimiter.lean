import Mathlib.Algebra.Order.Group.Defs
import Mathlib.Data.List.TakeWhile
import Mathlib.Data.Rat.Floor
import Mathlib.Tactic.Common
import Mathlib.Tactic.Linarith

set_option autoImplicit false

namespace CriptoParser

section
variable {κ K : Type} [DecidableEq κ] [AddCommGroup K] [LinearOrder K]

abbrev Hits (κ K : Type) := κ → List K

structure RateLimiter (K : Type) where
  maxRequests : ℕ
  windowSec : K

namespace RateLimiter

def check (l : RateLimiter K) (key : κ) (now : K) (h : Hits κ K) : Bool × Hits κ K :=
  let hits := (h key).dropWhile fun t => decide (t < now - l.windowSec)
  if l.maxRequests ≤ hits.length then (false, Function.update h key hits)
  else (true, Function.update h key (hits ++ [now]))

end RateLimiter

structure Answered (κ K : Type) where
  key : κ
  now : K
  allowed : Bool
  deriving DecidableEq, Repr

def Answered.call (c : Answered κ K) : κ × K := (c.key, c.now)

namespace RateLimiter

def answers (l : RateLimiter K) : Hits κ K → List (κ × K) → List (Answered κ K)
  | _, [] => []
  | h, (key, now) :: rest =>
    let (allowed, h) := l.check key now h
    ⟨key, now, allowed⟩ :: l.answers h rest

end RateLimiter

end

namespace SlidingWindow

section
variable {κ K : Type} [DecidableEq κ]

def allowedTimes (log : List (Answered κ K)) (key : κ) : List K :=
  (log.filter fun c => c.key = key ∧ c.allowed = true).map (·.now)

variable {log log' : List (Answered κ K)} {key : κ}

theorem allowedTimes_append : allowedTimes (log ++ log') key =
    allowedTimes log key ++ allowedTimes log' key := by
  simp [allowedTimes]

theorem allowedTimes_singleton (c : Answered κ K) :
    allowedTimes [c] key = if c.key = key ∧ c.allowed = true then [c.now] else [] := by
  unfold allowedTimes
  split
  · rename_i hc
    simp [hc]
  · rename_i hc
    rw [List.filter_cons_of_neg (by simpa using hc)]
    rfl

theorem allowedTimes_filter : allowedTimes (log.filter fun c => c.key = key) key =
    allowedTimes log key := by
  unfold allowedTimes
  rw [List.filter_filter]
  congr 1
  refine List.filter_congr fun c _ => ?_
  by_cases hc : c.key = key <;> simp [hc]

end

section
variable {κ K : Type} [DecidableEq κ] [LinearOrder K]

def allowedIn (log : List (Answered κ K)) (key : κ) (a b : K) : ℕ :=
  (allowedTimes log key).countP fun t => a ≤ t ∧ t ≤ b

variable {log log' : List (Answered κ K)} {key : κ} {a b : K}

theorem allowedIn_append : allowedIn (log ++ log') key a b =
    allowedIn log key a b + allowedIn log' key a b := by
  rw [allowedIn, allowedTimes_append, List.countP_append]
  rfl

end

section
variable {κ K : Type} [DecidableEq κ] [AddCommGroup K] [LinearOrder K]

def answer (l : RateLimiter K) (log : List (Answered κ K)) (key : κ) (now : K) : Answered κ K :=
  ⟨key, now, decide (allowedIn log key (now - l.windowSec) now < l.maxRequests)⟩

def answersFrom (l : RateLimiter K) : List (Answered κ K) → List (κ × K) → List (Answered κ K)
  | _, [] => []
  | log, (key, now) :: rest =>
    answer l log key now :: answersFrom l (log ++ [answer l log key now]) rest

end

section
variable {κ K : Type} [DecidableEq κ] [AddCommGroup K] [LinearOrder K]

section
variable {log log' : List (Answered κ K)} {key : κ}

theorem answer_congr (l : RateLimiter K) (h : allowedTimes log key = allowedTimes log' key)
    (now : K) : answer l log key now = answer l log' key now := by
  unfold answer allowedIn
  rw [h]

end

section
variable (l : RateLimiter K)

theorem answersFrom_append (log : List (Answered κ K)) (xs ys : List (κ × K)) :
    answersFrom l log (xs ++ ys) =
      answersFrom l log xs ++ answersFrom l (log ++ answersFrom l log xs) ys := by
  induction xs generalizing log with
  | nil => simp [answersFrom]
  | cons x xs ih =>
    obtain ⟨key, now⟩ := x
    simp only [List.cons_append, answersFrom, ih, List.append_assoc, List.nil_append]

theorem answersFrom_calls (log : List (Answered κ K)) (calls : List (κ × K)) :
    (answersFrom l log calls).map Answered.call = calls := by
  induction calls generalizing log with
  | nil => rfl
  | cons x rest ih =>
    obtain ⟨key, now⟩ := x
    rw [answersFrom, List.map_cons, ih]
    rfl

theorem answersFrom_split {log before after : List (Answered κ K)} {c : Answered κ K}
    {calls : List (κ × K)} (h : answersFrom l log calls = before ++ c :: after) :
    c = answer l (log ++ before) c.key c.now := by
  induction calls generalizing log before with
  | nil => simp [answersFrom] at h
  | cons x rest ih =>
    obtain ⟨key, now⟩ := x
    cases before with
    | nil =>
      obtain ⟨rfl, -⟩ := List.cons.inj h
      simp [answer]
    | cons d before =>
      obtain ⟨rfl, htail⟩ := List.cons.inj h
      simpa using ih htail

theorem answersFrom_congr {log log' : List (Answered κ K)}
    (h : ∀ key, allowedTimes log key = allowedTimes log' key) (calls : List (κ × K)) :
    answersFrom l log calls = answersFrom l log' calls := by
  induction calls generalizing log log' with
  | nil => rfl
  | cons x rest ih =>
    obtain ⟨key, now⟩ := x
    have hanswer := answer_congr l (h key) now
    rw [answersFrom, answersFrom, hanswer]
    congr 1
    apply ih
    intro k
    rw [allowedTimes_append, allowedTimes_append, h]

theorem answersFrom_filter (key : κ) (log : List (Answered κ K)) (calls : List (κ × K)) :
    (answersFrom l log calls).filter (fun c => c.key = key) =
      answersFrom l (log.filter fun c => c.key = key) (calls.filter fun x => x.1 = key) := by
  induction calls generalizing log with
  | nil => rfl
  | cons x rest ih =>
    obtain ⟨k, now⟩ := x
    have hkey : (answer l log k now).key = k := rfl
    rw [answersFrom, List.filter_cons, ih, hkey, List.filter_append]
    by_cases hk : k = key
    · subst hk
      have htimes : allowedTimes (log.filter fun c => c.key = k) k = allowedTimes log k :=
        allowedTimes_filter
      have hanswer := answer_congr l htimes now
      simp only [decide_true, if_true, List.filter_cons, answersFrom, hanswer, hkey,
        List.filter_nil]
    · simp only [hk, decide_false, Bool.false_eq_true, if_false, List.filter_cons, hkey,
        List.filter_nil, List.append_nil]

theorem answersFrom_rejected {before after : List (Answered κ K)} {c : Answered κ K}
    {calls : List (κ × K)} (h : answersFrom l [] calls = before ++ c :: after)
    (hc : c.allowed = false) :
    answersFrom l [] ((before ++ after).map Answered.call) = before ++ after := by
  have hcalls := answersFrom_calls l [] calls
  rw [h] at hcalls
  rw [← hcalls, List.map_append, List.map_cons, answersFrom_append, answersFrom] at h
  have hlength : (answersFrom l [] (before.map Answered.call)).length = before.length := by
    rw [← List.length_map (f := Answered.call), answersFrom_calls, List.length_map]
  obtain ⟨hbefore, hrest⟩ := List.append_inj h hlength
  obtain ⟨hanswer, hafter⟩ := List.cons.inj hrest
  rw [hanswer, hbefore, List.nil_append] at hafter
  have hsame : ∀ key, allowedTimes (before ++ [c]) key = allowedTimes before key := by
    intro key
    rw [allowedTimes_append, allowedTimes_singleton, if_neg (by simp [hc]), List.append_nil]
  rw [List.map_append, answersFrom_append, hbefore, List.nil_append,
    ← answersFrom_congr l hsame, hafter]

end

end

section
variable {κ K : Type} [DecidableEq κ] [AddCommGroup K] [LinearOrder K]

def Bounded (l : RateLimiter K) (log : List (Answered κ K)) : Prop :=
  ∀ key a, allowedIn log key a (a + l.windowSec) ≤ l.maxRequests

variable {l : RateLimiter K} {log : List (Answered κ K)}

theorem bounded_nil : Bounded l ([] : List (Answered κ K)) := fun _ _ => Nat.zero_le _

def InOrder (log : List (Answered κ K)) (calls : List (κ × K)) : Prop :=
  calls.Pairwise (fun x y => x.2 ≤ y.2) ∧ ∀ x ∈ calls, ∀ c ∈ log, c.now ≤ x.2

theorem InOrder.tail {key : κ} {now : K} {rest : List (κ × K)}
    (h : InOrder log ((key, now) :: rest)) : InOrder (log ++ [answer l log key now]) rest := by
  obtain ⟨hsorted, hlog⟩ := h
  obtain ⟨hfirst, hrest⟩ := List.pairwise_cons.mp hsorted
  refine ⟨hrest, fun x hx c hc => ?_⟩
  rcases List.mem_append.mp hc with hc | hc
  · exact hlog x (List.mem_cons_of_mem _ hx) c hc
  · rw [List.mem_singleton.mp hc]
    exact hfirst x hx

end

section
variable {κ K : Type} [DecidableEq κ] [AddCommGroup K] [LinearOrder K] [IsOrderedAddMonoid K]

variable {l : RateLimiter K} {log : List (Answered κ K)}

theorem Bounded.snoc (h : Bounded l log) {key : κ} {now : K} (hnow : ∀ c ∈ log, c.now ≤ now) :
    Bounded l (log ++ [answer l log key now]) := by
  intro k a
  rw [allowedIn_append]
  by_cases hroom : allowedIn log key (now - l.windowSec) now < l.maxRequests
  · by_cases hin : key = k ∧ a ≤ now ∧ now ≤ a + l.windowSec
    · obtain ⟨rfl, -, hend⟩ := hin
      have hcut : now - l.windowSec ≤ a := sub_le_iff_le_add.mpr hend
      have hold : allowedIn log key a (a + l.windowSec) ≤
          allowedIn log key (now - l.windowSec) now := by
        refine List.countP_mono_left fun t ht hwin => ?_
        simp only [decide_eq_true_eq] at hwin ⊢
        obtain ⟨c, hc, rfl⟩ := List.mem_map.mp ht
        exact ⟨hcut.trans hwin.1, hnow c (List.mem_of_mem_filter hc)⟩
      have hone : allowedIn [answer l log key now] key a (a + l.windowSec) ≤ 1 := by
        rw [allowedIn, allowedTimes_singleton]
        split
        · exact List.countP_le_length
        · exact Nat.zero_le 1
      omega
    · have hnone : allowedIn [answer l log key now] k a (a + l.windowSec) = 0 := by
        rw [allowedIn, allowedTimes_singleton]
        split
        · rename_i hc
          have hout : ¬(a ≤ now ∧ now ≤ a + l.windowSec) := fun hwin => hin ⟨hc.1, hwin⟩
          have hnow : (answer l log key now).now = now := rfl
          rw [List.countP_singleton, hnow, decide_eq_false hout]
          rfl
        · rfl
      rw [hnone]
      exact h k a
  · have hnone : allowedIn [answer l log key now] k a (a + l.windowSec) = 0 := by
      rw [allowedIn, allowedTimes_singleton, if_neg (by simp [answer, hroom])]
      rfl
    rw [hnone]
    exact h k a

theorem Bounded.answersFrom (h : Bounded l log) {calls : List (κ × K)} (ho : InOrder log calls) :
    Bounded l (log ++ answersFrom l log calls) := by
  induction calls generalizing log with
  | nil => simpa [SlidingWindow.answersFrom] using h
  | cons x rest ih =>
    obtain ⟨key, now⟩ := x
    have hstep : Bounded l (log ++ [answer l log key now]) :=
      h.snoc (ho.2 _ List.mem_cons_self)
    simpa [SlidingWindow.answersFrom] using ih hstep ho.tail

end

end SlidingWindow

section
variable {K : Type} [LinearOrder K]

theorem le_of_mem_dropWhile {ts : List K} (hs : ts.Pairwise (· ≤ ·)) {a : K} :
    ∀ t ∈ ts.dropWhile (fun t => decide (t < a)), a ≤ t := by
  induction ts with
  | nil => simp
  | cons u rest ih =>
    obtain ⟨hu, hrest⟩ := List.pairwise_cons.mp hs
    rw [List.dropWhile_cons]
    split
    · exact ih hrest
    · rename_i hlt
      intro t ht
      have hau : a ≤ u := not_lt.mp (by simpa using hlt)
      rcases List.mem_cons.mp ht with rfl | ht
      · exact hau
      · exact hau.trans (hu t ht)

theorem lt_of_mem_takeWhile {ts : List K} {a : K} :
    ∀ t ∈ ts.takeWhile (fun t => decide (t < a)), t < a :=
  fun _ ht => of_decide_eq_true (List.mem_takeWhile_imp (p := fun t => decide (t < a)) ht)

end

open SlidingWindow

section
variable {κ K : Type} [DecidableEq κ] [AddCommGroup K] [LinearOrder K]

/-- A deque holds the allowed calls of its key, but for some that no window will reach again. -/
structure Held (l : RateLimiter K) (h : Hits κ K) (log : List (Answered κ K)) : Prop where
  sorted : ∀ key, (allowedTimes log key).Pairwise (· ≤ ·)
  holds : ∀ key, ∃ gone, allowedTimes log key = gone ++ h key ∧
    ∀ t ∈ gone, ∃ c ∈ log, t < c.now - l.windowSec

variable {l : RateLimiter K}

theorem held_nil : Held l (fun _ => []) ([] : List (Answered κ K)) :=
  ⟨fun _ => List.Pairwise.nil, fun _ => ⟨[], rfl, by simp⟩⟩

end

section
variable {κ K : Type} [DecidableEq κ] [AddCommGroup K] [LinearOrder K] [IsOrderedAddMonoid K]

variable {l : RateLimiter K} {h : Hits κ K} {log : List (Answered κ K)}

theorem Held.parts (hh : Held l h log) (key : κ) {now : K} (hnow : ∀ c ∈ log, c.now ≤ now) :
    ∃ out, allowedTimes log key =
        out ++ (h key).dropWhile (fun t => decide (t < now - l.windowSec)) ∧
      (∀ t ∈ out, t < now - l.windowSec) ∧
      ∀ t ∈ (h key).dropWhile (fun t => decide (t < now - l.windowSec)),
        now - l.windowSec ≤ t := by
  obtain ⟨gone, hgone, hout⟩ := hh.holds key
  have hsorted := hh.sorted key
  rw [hgone] at hsorted
  refine ⟨gone ++ (h key).takeWhile fun t => decide (t < now - l.windowSec), ?_, ?_,
    le_of_mem_dropWhile (List.pairwise_append.mp hsorted).2.1⟩
  · rw [hgone, List.append_assoc, List.takeWhile_append_dropWhile]
  · intro t ht
    rcases List.mem_append.mp ht with ht | ht
    · obtain ⟨c, hc, hlt⟩ := hout t ht
      exact hlt.trans_le (sub_le_sub_right (hnow c hc) _)
    · exact lt_of_mem_takeWhile t ht

theorem Held.window (hh : Held l h log) (key : κ) {now : K} (hnow : ∀ c ∈ log, c.now ≤ now) :
    allowedIn log key (now - l.windowSec) now =
      ((h key).dropWhile fun t => decide (t < now - l.windowSec)).length := by
  obtain ⟨out, hparts, hout, hin⟩ := hh.parts key hnow
  have hlast : ∀ t ∈ allowedTimes log key, t ≤ now := by
    intro t ht
    obtain ⟨c, hc, rfl⟩ := List.mem_map.mp ht
    exact hnow c (List.mem_of_mem_filter hc)
  rw [hparts] at hlast
  rw [allowedIn, hparts, List.countP_append]
  have hzero : out.countP (fun t => now - l.windowSec ≤ t ∧ t ≤ now) = 0 := by
    rw [List.countP_eq_zero]
    intro t ht hwin
    exact absurd (of_decide_eq_true hwin).1 (not_le.mpr (hout t ht))
  rw [hzero, Nat.zero_add, List.countP_eq_length]
  intro t ht
  exact decide_eq_true ⟨hin t ht, hlast t (List.mem_append_right _ ht)⟩

theorem Held.check (hh : Held l h log) (key : κ) {now : K} (hnow : ∀ c ∈ log, c.now ≤ now) :
    answer l log key now = ⟨key, now, (l.check key now h).1⟩ ∧
      Held l (l.check key now h).2 (log ++ [answer l log key now]) := by
  have hwindow := hh.window key hnow
  obtain ⟨out, hparts, hout, -⟩ := hh.parts key hnow
  generalize hkept : (h key).dropWhile (fun t => decide (t < now - l.windowSec)) = kept at *
  have hlast : ∀ t ∈ allowedTimes log key, t ≤ now := by
    intro t ht
    obtain ⟨c, hc, rfl⟩ := List.mem_map.mp ht
    exact hnow c (List.mem_of_mem_filter hc)
  -- the deques of the other keys stay as they are
  have hothers : ∀ k ≠ key, allowedTimes (log ++ [answer l log key now]) k =
      allowedTimes log k := by
    intro k hk
    rw [allowedTimes_append, allowedTimes_singleton, if_neg fun hc => hk hc.1.symm,
      List.append_nil]
  have hself : allowedTimes (log ++ [answer l log key now]) key =
      out ++ (kept ++ if allowedIn log key (now - l.windowSec) now < l.maxRequests
        then [now] else []) := by
    rw [allowedTimes_append, allowedTimes_singleton, hparts, List.append_assoc]
    simp [answer]
  have hcheck : l.check key now h =
      (decide (allowedIn log key (now - l.windowSec) now < l.maxRequests),
        Function.update h key (kept ++ if allowedIn log key (now - l.windowSec) now <
          l.maxRequests then [now] else [])) := by
    unfold RateLimiter.check
    simp only [hkept, hwindow]
    by_cases hroom : l.maxRequests ≤ kept.length
    · simp [hroom, not_lt.mpr hroom]
    · simp [hroom, not_le.mp hroom]
  rw [hcheck]
  refine ⟨rfl, ?_⟩
  dsimp only
  refine ⟨fun k => ?_, fun k => ?_⟩
  · by_cases hk : k = key
    · subst hk
      rw [hself, ← List.append_assoc, ← hparts, List.pairwise_append]
      refine ⟨hh.sorted k, ?_, ?_⟩
      · split <;> simp
      · intro t ht u hu
        split at hu
        · rw [List.mem_singleton.mp hu]
          exact hlast t ht
        · cases hu
    · rw [hothers k hk]
      exact hh.sorted k
  · by_cases hk : k = key
    · subst hk
      refine ⟨out, ?_, fun t ht => ⟨answer l log k now, by simp, hout t ht⟩⟩
      rw [hself, Function.update_self]
    · obtain ⟨gone, hgone, hgoneOut⟩ := hh.holds k
      refine ⟨gone, ?_, fun t ht => ?_⟩
      · rw [hothers k hk, Function.update_of_ne hk]
        exact hgone
      · obtain ⟨c, hc, hlt⟩ := hgoneOut t ht
        exact ⟨c, List.mem_append_left _ hc, hlt⟩

theorem Held.answers (hh : Held l h log) {calls : List (κ × K)} (ho : InOrder log calls) :
    l.answers h calls = answersFrom l log calls := by
  induction calls generalizing h log with
  | nil => rfl
  | cons x rest ih =>
    obtain ⟨key, now⟩ := x
    have hnow : ∀ c ∈ log, c.now ≤ now := ho.2 (key, now) List.mem_cons_self
    obtain ⟨hanswer, hstep⟩ := hh.check key hnow
    have hrest := ih hstep ho.tail
    simp only [RateLimiter.answers, answersFrom]
    rw [hrest, hanswer]

structure Windowed (l : RateLimiter K) (calls : List (κ × K)) (log : List (Answered κ K)) :
    Prop where
  answers : l.answers (fun _ => []) calls = log
  inputs : log.map Answered.call = calls
  bounded : ∀ key a, allowedIn log key a (a + l.windowSec) ≤ l.maxRequests
  refused : ∀ before c after, log = before ++ c :: after →
    (c.allowed = false ↔
      allowedIn before c.key (c.now - l.windowSec) c.now = l.maxRequests)
  /-- Calls with other keys have no part in the answers of a key. -/
  others : ∀ key, l.answers (fun _ => []) (calls.filter fun x => x.1 = key) =
    log.filter fun c => c.key = key
  /-- Without a rejected call the other answers are the same. -/
  rejected : ∀ before c after, log = before ++ c :: after → c.allowed = false →
    l.answers (fun _ => []) ((before ++ after).map Answered.call) = before ++ after

/-- The limiter is a sliding window, at any limit and width. -/
theorem check_windowed (l : RateLimiter K) (calls : List (κ × K))
    (hsorted : calls.Pairwise fun x y => x.2 ≤ y.2) :
    Windowed l calls (l.answers (fun _ => []) calls) := by
  have ho : InOrder ([] : List (Answered κ K)) calls := ⟨hsorted, by simp⟩
  have hanswers := (held_nil (l := l)).answers ho
  have hcalls := answersFrom_calls l [] calls
  have hbounded := bounded_nil.answersFrom (l := l) ho
  rw [List.nil_append] at hbounded
  rw [hanswers]
  refine ⟨hanswers, hcalls, hbounded, ?_, fun key => ?_, ?_⟩
  · intro before c after hlog
    have hc := answersFrom_split l hlog
    rw [List.nil_append] at hc
    have hroom : allowedIn before c.key (c.now - l.windowSec) c.now ≤ l.maxRequests := by
      have hwhole := hbounded c.key (c.now - l.windowSec)
      rw [sub_add_cancel, hlog, allowedIn_append] at hwhole
      exact (Nat.le_add_right _ _).trans hwhole
    have hallowed : c.allowed =
        decide (allowedIn before c.key (c.now - l.windowSec) c.now < l.maxRequests) :=
      congrArg Answered.allowed hc
    rw [hallowed, decide_eq_false_iff_not, not_lt]
    exact ⟨fun hle => le_antisymm hroom hle, fun heq => heq.ge⟩
  · rw [held_nil.answers ⟨hsorted.sublist List.filter_sublist, by simp⟩]
    exact (answersFrom_filter l key [] calls).symm
  · intro before c after hlog hc
    have hsub : ((before ++ after).map Answered.call).Sublist calls := by
      rw [← hcalls, hlog]
      exact (List.Sublist.append_left (List.sublist_cons_self c after) before).map _
    rw [held_nil.answers ⟨hsorted.sublist hsub, by simp⟩]
    exact answersFrom_rejected l hlog hc

end

/-- Two requests a minute: the third within sixty seconds is refused, also at their end. -/
theorem check_windowed_minute :
    (RateLimiter.answers ⟨2, 60⟩ (fun _ => []) [("a", 0), ("a", 30), ("b", 30), ("a", 60),
      ("a", 61)] : List (Answered String ℚ)).map (·.allowed) = [true, true, true, false, true] ∧
    Windowed (⟨2, 60⟩ : RateLimiter ℚ) [("a", 0), ("a", 30), ("b", 30), ("a", 60), ("a", 61)]
      (RateLimiter.answers ⟨2, 60⟩ (fun _ => []) [("a", 0), ("a", 30), ("b", 30), ("a", 60),
        ("a", 61)]) :=
  ⟨by decide +kernel, check_windowed _ _ (by decide +kernel)⟩

end CriptoParser
