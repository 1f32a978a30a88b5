import Mathlib.Algebra.GroupWithZero.Nat
import Mathlib.Data.List.Perm.Basic
import Mathlib.Data.List.Range
import Mathlib.Tactic.Common

/-!
A queue whose items are tried a bounded number of times. Items are told apart by tags,
numbered in the order of arrival. An item that fails goes back behind the others; one that
has failed too often is given up.
-/

set_option autoImplicit false

namespace CriptoParser.Retry

variable {M : Type}

structure Ticket (M : Type) where
  item : M
  tag : ℕ
  retries : ℕ
  deriving DecidableEq, Repr

inductive Flight (M : Type) where
  | none
  | popped (t : Ticket M)
  | failed (t : Ticket M)
  deriving DecidableEq, Repr

/-- Every item that came, where it is, and every attempt made so far. The newest item waits
first; the other lists stand in the order of time. -/
structure Board (M : Type) where
  pushed : List M
  waiting : List (Ticket M)
  flight : Flight M
  attempts : List (Ticket M)
  failures : List (Ticket M)
  delivered : List (Ticket M)
  dead : List (Ticket M)
  deriving DecidableEq, Repr

namespace Board

def empty : Board M := ⟨[], [], .none, [], [], [], []⟩

def push (b : Board M) (item : M) : Board M :=
  { b with pushed := b.pushed ++ [item], waiting := ⟨item, b.pushed.length, 0⟩ :: b.waiting }

def pop (b : Board M) : Board M :=
  match b.flight, b.waiting.getLast? with
  | .none, some t => { b with waiting := b.waiting.dropLast, flight := .popped t }
  | _, _ => b

def deliver (b : Board M) : Board M :=
  match b.flight with
  | .popped t =>
    { b with flight := .none, attempts := b.attempts ++ [t], delivered := b.delivered ++ [t] }
  | _ => b

def fail (b : Board M) : Board M :=
  match b.flight with
  | .popped t =>
    { b with flight := .failed t, attempts := b.attempts ++ [t], failures := b.failures ++ [t] }
  | _ => b

def settle (limit : ℕ) (b : Board M) : Board M :=
  match b.flight with
  | .failed t =>
    if t.retries < limit then
      { b with flight := .none, waiting := { t with retries := t.retries + 1 } :: b.waiting }
    else { b with flight := .none, dead := b.dead ++ [t] }
  | _ => b

section Pushed
variable (b : Board M)

@[simp] theorem pushed_pop : b.pop.pushed = b.pushed := by
  unfold pop
  split <;> rfl

@[simp] theorem pushed_deliver : b.deliver.pushed = b.pushed := by
  unfold deliver
  split <;> rfl

@[simp] theorem pushed_fail : b.fail.pushed = b.pushed := by
  unfold fail
  split <;> rfl

@[simp] theorem pushed_settle (limit : ℕ) : (b.settle limit).pushed = b.pushed := by
  unfold settle
  split
  · split <;> rfl
  · rfl

end Pushed

def tries (b : Board M) (tag : ℕ) : ℕ := (b.attempts.map Ticket.tag).count tag

def fails (b : Board M) (tag : ℕ) : ℕ := (b.failures.map Ticket.tag).count tag

end Board

/-- An item with the attempts it should have had and those that should have failed. -/
structure Entry (M : Type) where
  item : M
  tag : ℕ
  tries : ℕ
  fails : ℕ

def Entry.key (e : Entry M) : M × ℕ := (e.item, e.tag)

def Ticket.waits (t : Ticket M) : Entry M := ⟨t.item, t.tag, t.retries, t.retries⟩

def Ticket.delivers (t : Ticket M) : Entry M := ⟨t.item, t.tag, t.retries + 1, t.retries⟩

def Ticket.fails (t : Ticket M) : Entry M := ⟨t.item, t.tag, t.retries + 1, t.retries + 1⟩

def Flight.entries : Flight M → List (Entry M)
  | .none => []
  | .popped t => [t.waits]
  | .failed t => [t.fails]

def Flight.tickets : Flight M → List (Ticket M)
  | .none => []
  | .popped t | .failed t => [t]

def Flight.left (limit : ℕ) : Flight M → ℕ
  | .none => 0
  | .popped t => limit + 1 - t.retries
  | .failed t => limit - t.retries

namespace Board

def entries (b : Board M) : List (Entry M) :=
  b.flight.entries ++ (b.waiting.map Ticket.waits ++
    (b.delivered.map Ticket.delivers ++ b.dead.map Ticket.fails))

def untried (b : Board M) : List (Ticket M) :=
  (match b.flight with
    | .popped t => [t].filter fun t => t.retries = 0
    | _ => []) ++ (b.waiting.filter fun t => t.retries = 0).reverse

def firsts (b : Board M) : List ℕ :=
  ((b.attempts.filter fun t => t.retries = 0) ++ b.untried).map Ticket.tag

/-- Every item is at exactly one place, unchanged, with as many attempts behind it as the place
says. -/
structure Sound (limit : ℕ) (b : Board M) : Prop where
  places : (b.entries.map Entry.key).Perm b.pushed.zipIdx
  tallied : ∀ e ∈ b.entries, b.tries e.tag = e.tries ∧ b.fails e.tag = e.fails
  unborn : ∀ tag, b.pushed.length ≤ tag → b.tries tag = 0 ∧ b.fails tag = 0
  bounded : ∀ t ∈ b.waiting ++ (b.flight.tickets ++ b.delivered), t.retries ≤ limit
  given : ∀ t ∈ b.dead, t.retries = limit
  order : b.firsts = List.range b.pushed.length

theorem empty_sound (limit : ℕ) : (empty : Board M).Sound limit where
  places := List.Perm.refl _
  tallied := by simp [entries, empty, Flight.entries]
  unborn := by simp [tries, fails, empty]
  bounded := by simp [empty, Flight.tickets]
  given := by simp [empty]
  order := by simp [firsts, untried, empty]

variable {limit : ℕ} {b : Board M}

theorem Sound.push (h : b.Sound limit) (item : M) : (b.push item).Sound limit := by
  have hentries : (b.push item).entries.Perm
      ((⟨item, b.pushed.length, 0, 0⟩ : Entry M) :: b.entries) := by
    simp only [Board.push, entries, List.map_cons, List.cons_append]
    exact List.perm_middle
  refine ⟨?_, ?_, ?_, ?_, h.given, ?_⟩
  · refine (hentries.map Entry.key).trans ?_
    rw [List.map_cons, Board.push, List.zipIdx_append, Nat.zero_add]
    exact (List.Perm.cons _ h.places).trans (List.perm_append_singleton _ _).symm
  · intro e he
    rcases List.mem_cons.mp (hentries.mem_iff.mp he) with rfl | he
    · exact h.unborn b.pushed.length (le_refl _)
    · exact h.tallied e he
  · intro tag htag
    refine h.unborn tag (Nat.le_of_succ_le ?_)
    simpa [Board.push] using htag
  · intro t ht
    rcases List.mem_cons.mp ht with rfl | ht
    · exact Nat.zero_le _
    · exact h.bounded t ht
  · have horder := h.order
    simp only [firsts, untried, Board.push, List.length_append, List.length_singleton] at horder ⊢
    rw [List.range_succ, ← horder]
    simp

theorem pop_eq {t : Ticket M} {rest : List (Ticket M)} (hflight : b.flight = .none)
    (hwaiting : b.waiting = rest ++ [t]) :
    b.pop = { b with waiting := rest, flight := .popped t } := by
  simp [Board.pop, hflight, hwaiting]

theorem Sound.pop (h : b.Sound limit) : b.pop.Sound limit := by
  unfold Board.pop
  split
  · rename_i t hflight hlast
    obtain ⟨rest, hrest⟩ := List.getLast?_eq_some_iff.mp hlast
    have hdrop : b.waiting.dropLast = rest := by rw [hrest, List.dropLast_concat]
    rw [hdrop]
    have hperm : ({ b with waiting := rest, flight := .popped t } : Board M).entries.Perm
        b.entries := by
      simp only [entries, hflight, hrest, Flight.entries, List.map_append, List.map_cons,
        List.map_nil, List.append_assoc, List.singleton_append, List.nil_append]
      exact List.perm_middle.symm
    refine ⟨(hperm.map Entry.key).trans h.places, ?_, h.unborn, ?_, h.given, ?_⟩
    · intro e he
      exact h.tallied e (hperm.mem_iff.mp he)
    · intro u hu
      refine h.bounded u ?_
      rw [hflight, hrest]
      simp only [Flight.tickets, List.mem_append, List.mem_singleton, List.not_mem_nil,
        false_or] at hu ⊢
      tauto
    · have horder := h.order
      have hone : ([t].filter fun t => t.retries = 0).reverse =
          [t].filter fun t => t.retries = 0 := by
        rw [List.filter_singleton]
        cases decide (t.retries = 0) <;> rfl
      simp only [firsts, untried, hflight, hrest, List.nil_append, List.filter_append,
        List.reverse_append, hone] at horder ⊢
      exact horder
  · exact h

theorem Sound.tags (h : b.Sound limit) :
    (b.entries.map Entry.tag).Perm (List.range b.pushed.length) := by
  have hmap := h.places.map Prod.snd
  rw [List.map_map] at hmap
  refine hmap.trans (List.Perm.of_eq ?_)
  simp [List.range_eq_range']

theorem Sound.retally (h : b.Sound limit) {b' : Board M} {e e' : Entry M}
    {rest : List (Entry M)} (hold : b.entries.Perm (e :: rest))
    (hnew : b'.entries.Perm (e' :: rest)) (hkey : e'.key = e.key) (hpushed : b'.pushed = b.pushed)
    (hothers : ∀ tag, tag ≠ e.tag → b'.tries tag = b.tries tag ∧ b'.fails tag = b.fails tag)
    (hself : b'.tries e.tag = e'.tries ∧ b'.fails e.tag = e'.fails) :
    (b'.entries.map Entry.key).Perm b'.pushed.zipIdx ∧
      (∀ d ∈ b'.entries, b'.tries d.tag = d.tries ∧ b'.fails d.tag = d.fails) ∧
      ∀ tag, b'.pushed.length ≤ tag → b'.tries tag = 0 ∧ b'.fails tag = 0 := by
  have hplaces : ((e :: rest).map Entry.key).Perm b.pushed.zipIdx :=
    (hold.map Entry.key).symm.trans h.places
  have htags : ((e :: rest).map Entry.tag).Perm (List.range b.pushed.length) :=
    (hold.map Entry.tag).symm.trans h.tags
  obtain ⟨hfresh, -⟩ := List.nodup_cons.mp (htags.nodup_iff.mpr List.nodup_range)
  have htag : e'.tag = e.tag := congrArg Prod.snd hkey
  refine ⟨?_, ?_, ?_⟩
  · rw [hpushed]
    refine (hnew.map Entry.key).trans ?_
    rw [List.map_cons, hkey]
    exact hplaces
  · intro d hd
    rcases List.mem_cons.mp (hnew.mem_iff.mp hd) with rfl | hd
    · rw [htag]
      exact hself
    · have hne : d.tag ≠ e.tag := fun heq => hfresh (heq ▸ List.mem_map_of_mem hd)
      obtain ⟨htries, hfails⟩ := hothers d.tag hne
      rw [htries, hfails]
      exact h.tallied d (hold.mem_iff.mpr (List.mem_cons_of_mem _ hd))
  · intro tag hle
    have hmem : e.tag ∈ List.range b.pushed.length := htags.mem_iff.mp List.mem_cons_self
    have hne : tag ≠ e.tag := by
      have hlt := List.mem_range.mp hmem
      rw [hpushed] at hle
      omega
    rw [(hothers tag hne).1, (hothers tag hne).2]
    exact h.unborn tag (hpushed ▸ hle)

theorem popped_entries {t : Ticket M} (hflight : b.flight = .popped t) :
    b.entries = t.waits :: (b.waiting.map Ticket.waits ++
      (b.delivered.map Ticket.delivers ++ b.dead.map Ticket.fails)) := by
  rw [entries, hflight]
  rfl

theorem Sound.deliver (h : b.Sound limit) : b.deliver.Sound limit := by
  unfold Board.deliver
  split
  · rename_i t hflight
    have hold := popped_entries hflight
    obtain ⟨htries, hfails⟩ := h.tallied t.waits (by simp [hold])
    have hle : t.retries ≤ limit := h.bounded t (by simp [hflight, Flight.tickets])
    have hnew : ({ b with
        flight := .none
        attempts := b.attempts ++ [t]
        delivered := b.delivered ++ [t] } : Board M).entries.Perm
        (t.delivers :: (b.waiting.map Ticket.waits ++
          (b.delivered.map Ticket.delivers ++ b.dead.map Ticket.fails))) := by
      have hsplit : ({ b with
          flight := .none
          attempts := b.attempts ++ [t]
          delivered := b.delivered ++ [t] } : Board M).entries =
          (b.waiting.map Ticket.waits ++ b.delivered.map Ticket.delivers) ++
            t.delivers :: b.dead.map Ticket.fails := by
        simp [entries, Flight.entries]
      rw [hsplit, ← List.append_assoc]
      exact List.perm_middle
    obtain ⟨hplaces, htallied, hunborn⟩ := h.retally (List.Perm.of_eq hold) hnew rfl rfl
      (fun tag htag => by
        have hne : ¬t.tag = tag := fun heq => htag heq.symm
        simp [tries, fails, hne])
      (by
        constructor
        · simpa [tries, List.count_singleton, Ticket.delivers, Ticket.waits] using htries
        · exact hfails)
    refine ⟨hplaces, htallied, hunborn, fun u hu => ?_, h.given, ?_⟩
    · simp only [Flight.tickets, List.mem_append, List.not_mem_nil, List.mem_singleton,
        false_or] at hu
      rcases hu with hu | hu | rfl
      · exact h.bounded u (by simp [hu])
      · exact h.bounded u (by simp [hu])
      · exact hle
    · have horder := h.order
      simp only [firsts, untried, hflight] at horder
      simpa [firsts, untried, List.filter_append] using horder
  · exact h

theorem Sound.fail (h : b.Sound limit) : b.fail.Sound limit := by
  unfold Board.fail
  split
  · rename_i t hflight
    have hold := popped_entries hflight
    obtain ⟨htries, hfails⟩ := h.tallied t.waits (by simp [hold])
    have hle : t.retries ≤ limit := h.bounded t (by simp [hflight, Flight.tickets])
    obtain ⟨hplaces, htallied, hunborn⟩ := h.retally (List.Perm.of_eq hold)
      (List.Perm.refl ({ b with
        flight := .failed t
        attempts := b.attempts ++ [t]
        failures := b.failures ++ [t] } : Board M).entries) rfl rfl
      (fun tag htag => by
        have hne : ¬t.tag = tag := fun heq => htag heq.symm
        simp [tries, fails, hne])
      (by
        constructor
        · simpa [tries, List.count_singleton, Ticket.fails, Ticket.waits] using htries
        · simpa [fails, List.count_singleton, Ticket.fails, Ticket.waits] using hfails)
    refine ⟨hplaces, htallied, hunborn, fun u hu => ?_, h.given, ?_⟩
    · refine h.bounded u ?_
      rw [hflight]
      exact hu
    · have horder := h.order
      simp only [firsts, untried, hflight] at horder
      simpa [firsts, untried, List.filter_append] using horder
  · exact h

theorem waiting_delivered {t : Ticket M} (ht : t ∈ b.waiting ++ b.delivered) :
    t ∈ b.waiting ++ (b.flight.tickets ++ b.delivered) := by
  rcases List.mem_append.mp ht with ht | ht <;> simp [ht]

theorem Sound.settle (h : b.Sound limit) : (b.settle limit).Sound limit := by
  unfold Board.settle
  split
  · rename_i t hflight
    have hold : b.entries = t.fails :: (b.waiting.map Ticket.waits ++
        (b.delivered.map Ticket.delivers ++ b.dead.map Ticket.fails)) := by
      rw [entries, hflight]
      rfl
    have hself := h.tallied t.fails (by simp [hold])
    have hle : t.retries ≤ limit := h.bounded t (by simp [hflight, Flight.tickets])
    split
    · rename_i hlt
      obtain ⟨hplaces, htallied, hunborn⟩ := h.retally (List.Perm.of_eq hold)
        (List.Perm.refl ({ b with
          flight := .none
          waiting := { t with retries := t.retries + 1 } :: b.waiting } : Board M).entries) rfl rfl
        (fun tag htag => ⟨rfl, rfl⟩) hself
      refine ⟨hplaces, htallied, hunborn, fun u hu => ?_, h.given, ?_⟩
      · rcases List.mem_cons.mp hu with rfl | hu
        · exact hlt
        · exact h.bounded u (waiting_delivered hu)
      · have horder := h.order
        simp only [firsts, untried, hflight] at horder
        simpa [firsts, untried] using horder
    · rename_i hnot
      have hnew : ({ b with flight := .none, dead := b.dead ++ [t] } : Board M).entries.Perm
          (t.fails :: (b.waiting.map Ticket.waits ++
            (b.delivered.map Ticket.delivers ++ b.dead.map Ticket.fails))) := by
        have hsplit : ({ b with flight := .none, dead := b.dead ++ [t] } : Board M).entries =
            (b.waiting.map Ticket.waits ++ (b.delivered.map Ticket.delivers ++
              b.dead.map Ticket.fails)) ++ [t.fails] := by
          simp [entries, Flight.entries]
        rw [hsplit]
        exact List.perm_append_singleton _ _
      obtain ⟨hplaces, htallied, hunborn⟩ := h.retally (List.Perm.of_eq hold) hnew rfl rfl
        (fun tag htag => ⟨rfl, rfl⟩) hself
      refine ⟨hplaces, htallied, hunborn, fun u hu => ?_, fun u hu => ?_, ?_⟩
      · exact h.bounded u (waiting_delivered hu)
      · rcases List.mem_append.mp hu with hu | hu
        · exact h.given u hu
        · rw [List.mem_singleton.mp hu]
          omega
      · have horder := h.order
        simp only [firsts, untried, hflight] at horder
        simpa [firsts, untried] using horder
  · exact h

def tickets (b : Board M) : List (Ticket M) :=
  b.flight.tickets ++ (b.waiting ++ (b.delivered ++ b.dead))

structure Lawful (limit : ℕ) (b : Board M) : Prop where
  /-- Every item, unchanged, is at exactly one place. -/
  once : (b.tickets.map fun t => (t.item, t.tag)).Perm b.pushed.zipIdx
  delivered : (b.delivered.map Ticket.tag).Nodup
  tries_le : ∀ tag, b.tries tag ≤ limit + 1
  dead : ∀ t ∈ b.dead, b.tries t.tag = limit + 1 ∧ b.fails t.tag = limit + 1
  /-- What has failed every time is given up, or about to be. -/
  given : ∀ tag, b.fails tag = limit + 1 →
    (∃ t ∈ b.dead, t.tag = tag) ∨ ∃ t, b.flight = .failed t ∧ t.tag = tag ∧ t.retries = limit
  /-- No item is tried before the ones that came before it. -/
  ordered : ∀ early late, early < late → 0 < b.tries late → 0 < b.tries early

theorem entries_key (b : Board M) :
    b.entries.map Entry.key = b.tickets.map fun t => (t.item, t.tag) := by
  unfold entries tickets
  cases b.flight <;> simp [Flight.entries, Flight.tickets, Entry.key, Ticket.waits,
    Ticket.fails] <;> rfl

theorem mem_entries {e : Entry M} : e ∈ b.entries ↔ e ∈ b.flight.entries ∨
    (∃ t ∈ b.waiting, t.waits = e) ∨ (∃ t ∈ b.delivered, t.delivers = e) ∨
      ∃ t ∈ b.dead, t.fails = e := by
  simp [entries]

theorem Sound.entry (h : b.Sound limit) {tag : ℕ} (hlt : tag < b.pushed.length) :
    ∃ e ∈ b.entries, e.tag = tag :=
  List.mem_map.mp (h.tags.mem_iff.mpr (List.mem_range.mpr hlt))

theorem Sound.born (h : b.Sound limit) {tag : ℕ} (hpos : 0 < b.tries tag) :
    tag < b.pushed.length := by
  by_contra hle
  rw [(h.unborn tag (not_lt.mp hle)).1] at hpos
  exact lt_irrefl 0 hpos

theorem Sound.in_flight (h : b.Sound limit) {e : Entry M} (he : e ∈ b.flight.entries) :
    ∃ t : Ticket M, t.retries ≤ limit ∧
      (b.flight = .popped t ∧ e = t.waits ∨ b.flight = .failed t ∧ e = t.fails) := by
  cases hflight : b.flight with
  | none => simp [hflight, Flight.entries] at he
  | popped t =>
    have hle : t.retries ≤ limit := h.bounded t (by simp [hflight, Flight.tickets])
    simp only [hflight, Flight.entries, List.mem_singleton] at he
    exact ⟨t, hle, .inl ⟨rfl, he⟩⟩
  | failed t =>
    have hle : t.retries ≤ limit := h.bounded t (by simp [hflight, Flight.tickets])
    simp only [hflight, Flight.entries, List.mem_singleton] at he
    exact ⟨t, hle, .inr ⟨rfl, he⟩⟩

theorem Sound.entry_le (h : b.Sound limit) {e : Entry M} (he : e ∈ b.entries) :
    e.tries ≤ limit + 1 := by
  rcases mem_entries.mp he with hf | ⟨t, ht, rfl⟩ | ⟨t, ht, rfl⟩ | ⟨t, ht, rfl⟩
  · obtain ⟨t, hle, ⟨-, rfl⟩ | ⟨-, rfl⟩⟩ := h.in_flight hf
    · exact Nat.le_succ_of_le hle
    · exact Nat.succ_le_succ hle
  · exact Nat.le_succ_of_le (h.bounded t (by simp [ht]))
  · exact Nat.succ_le_succ (h.bounded t (by simp [ht]))
  · exact Nat.succ_le_succ (h.given t ht).le

theorem Sound.given_up (h : b.Sound limit) {e : Entry M} (he : e ∈ b.entries)
    (hfails : e.fails = limit + 1) : (∃ t ∈ b.dead, t.tag = e.tag) ∨
      ∃ t, b.flight = .failed t ∧ t.tag = e.tag ∧ t.retries = limit := by
  have hretried : ∀ t : Ticket M, t.retries ≤ limit → t.retries ≠ limit + 1 := by
    intro t hle
    omega
  rcases mem_entries.mp he with hf | ⟨t, ht, rfl⟩ | ⟨t, ht, rfl⟩ | ⟨t, ht, rfl⟩
  · obtain ⟨t, hle, ⟨-, rfl⟩ | ⟨hflight, rfl⟩⟩ := h.in_flight hf
    · exact absurd hfails (hretried t hle)
    · exact .inr ⟨t, hflight, rfl, Nat.succ_injective hfails⟩
  · exact absurd hfails (hretried t (h.bounded t (by simp [ht])))
  · exact absurd hfails (hretried t (h.bounded t (by simp [ht])))
  · exact .inl ⟨t, ht, rfl⟩

theorem Sound.untried_zero (h : b.Sound limit) {t : Ticket M} (ht : t ∈ b.untried) :
    b.tries t.tag = 0 := by
  have hzero : ∀ u : Ticket M, u.waits ∈ b.entries → u.retries = 0 → b.tries u.tag = 0 := by
    intro u hu hretries
    exact (h.tallied u.waits hu).1.trans hretries
  rcases List.mem_append.mp ht with ht | ht
  · cases hflight : b.flight with
    | popped u =>
      simp only [hflight, List.mem_filter, List.mem_singleton, decide_eq_true_eq] at ht
      obtain ⟨rfl, hretries⟩ := ht
      exact hzero t (mem_entries.mpr (.inl (by simp [hflight, Flight.entries]))) hretries
    | _ => simp [hflight] at ht
  · simp only [List.mem_reverse, List.mem_filter, decide_eq_true_eq] at ht
    exact hzero t (mem_entries.mpr (.inr (.inl ⟨t, ht.1, rfl⟩))) ht.2

theorem Sound.ordered (h : b.Sound limit) {early late : ℕ} (hlt : early < late)
    (hlate : 0 < b.tries late) : 0 < b.tries early := by
  have hborn : late < b.pushed.length := h.born hlate
  have horder := h.order
  rw [firsts, List.map_append] at horder
  have hmem : ∀ tag < b.pushed.length, tag ∈ (b.attempts.filter fun t => t.retries = 0).map
      Ticket.tag ∨ tag ∈ b.untried.map Ticket.tag := by
    intro tag htag
    rw [← List.mem_append, horder]
    exact List.mem_range.mpr htag
  have hsorted := List.pairwise_append.mp (horder ▸ List.pairwise_lt_range)
  rcases hmem early (hlt.trans hborn) with hearly | hearly
  · obtain ⟨t, ht, rfl⟩ := List.mem_map.mp hearly
    exact List.count_pos_iff.mpr (List.mem_map_of_mem (List.mem_filter.mp ht).1)
  · rcases hmem late hborn with hin | hin
    · have hafter := hsorted.2.2 late hin early hearly
      omega
    · obtain ⟨t, ht, rfl⟩ := List.mem_map.mp hin
      rw [h.untried_zero ht] at hlate
      exact absurd hlate (lt_irrefl 0)

theorem Sound.lawful (h : b.Sound limit) : b.Lawful limit where
  once := by
    rw [← entries_key]
    exact h.places
  delivered := by
    have hnodup : (b.entries.map Entry.tag).Nodup := h.tags.nodup_iff.mpr List.nodup_range
    have hsub : (b.delivered.map Ticket.tag).Sublist (b.entries.map Entry.tag) := by
      have hlist : b.delivered.map Ticket.tag =
          (b.delivered.map Ticket.delivers).map Entry.tag := by
        rw [List.map_map]
        rfl
      rw [hlist]
      refine List.Sublist.map _ ?_
      exact (List.sublist_append_left _ _).trans
        ((List.sublist_append_right _ _).trans (List.sublist_append_right _ _))
    exact hnodup.sublist hsub
  tries_le tag := by
    by_cases hlt : tag < b.pushed.length
    · obtain ⟨e, he, rfl⟩ := h.entry hlt
      rw [(h.tallied e he).1]
      exact h.entry_le he
    · rw [(h.unborn tag (not_lt.mp hlt)).1]
      exact Nat.zero_le _
  dead t ht := by
    have htallied := h.tallied t.fails (mem_entries.mpr (.inr (.inr (.inr ⟨t, ht, rfl⟩))))
    have hretries : t.retries = limit := h.given t ht
    simpa [Ticket.fails, hretries] using htallied
  given tag hfails := by
    have hlt : tag < b.pushed.length := by
      by_contra hle
      rw [(h.unborn tag (not_lt.mp hle)).2] at hfails
      omega
    obtain ⟨e, he, rfl⟩ := h.entry hlt
    rw [(h.tallied e he).2] at hfails
    exact h.given_up he hfails
  ordered _ _ hlt hlate := h.ordered hlt hlate

def left (limit : ℕ) (b : Board M) : ℕ :=
  b.flight.left limit + (b.waiting.map fun t => limit + 1 - t.retries).sum

theorem left_push (item : M) : (b.push item).left limit = b.left limit + (limit + 1) := by
  simp only [left, Board.push, List.map_cons, List.sum_cons, Nat.sub_zero]
  omega

theorem left_pop : b.pop.left limit = b.left limit := by
  unfold Board.pop
  split
  · rename_i t hflight hlast
    obtain ⟨rest, hrest⟩ := List.getLast?_eq_some_iff.mp hlast
    simp only [left, hflight, hrest, Flight.left, List.dropLast_concat, List.map_append,
      List.map_singleton, List.sum_append, List.sum_singleton]
    omega
  · rfl

theorem left_deliver {t : Ticket M} (hflight : b.flight = .popped t) (hle : t.retries ≤ limit) :
    b.deliver.left limit + 1 ≤ b.left limit := by
  simp only [Board.deliver, hflight, left, Flight.left]
  omega

theorem left_fail {t : Ticket M} (hflight : b.flight = .popped t) (hle : t.retries ≤ limit) :
    b.fail.left limit + 1 = b.left limit := by
  simp only [Board.fail, hflight, left, Flight.left]
  omega

theorem left_settle : (b.settle limit).left limit = b.left limit := by
  unfold Board.settle
  split
  · rename_i t hflight
    split
    · simp only [left, hflight, Flight.left, List.map_cons, List.sum_cons]
      omega
    · simp only [left, hflight, Flight.left]
      omega
  · rfl

theorem Sound.waiting_nil (h : b.Sound limit) (hleft : b.left limit = 0) : b.waiting = [] := by
  cases hwaiting : b.waiting with
  | nil => rfl
  | cons t rest =>
    have hle : t.retries ≤ limit := h.bounded t (by simp [hwaiting])
    simp only [left, hwaiting, List.map_cons, List.sum_cons] at hleft
    omega

end Board

end CriptoParser.Retry
