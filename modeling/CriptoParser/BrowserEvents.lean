import Mathlib.Data.List.Nodup
import Mathlib.Data.List.Perm.Subperm

/-!
Sockets and timers as a browser keeps them for a page. A socket goes through its ready states
once; the id of a timer is given out once, and nothing of a cleared timer runs.
-/

set_option autoImplicit false

namespace Browser

inductive ReadyState where
  | connecting | open_ | closing | closed
  deriving DecidableEq, Repr

namespace ReadyState

def live : ReadyState → Bool
  | .connecting | .open_ => true
  | .closing | .closed => false

def close : ReadyState → ReadyState
  | .connecting | .open_ => .closing
  | .closing => .closing
  | .closed => .closed

@[simp] theorem live_close (s : ReadyState) : s.close.live = false := by cases s <;> rfl

@[simp] theorem close_eq_closed (s : ReadyState) : s.close = .closed ↔ s = .closed := by
  cases s <;> simp [close]

end ReadyState

section
variable {ss : List ReadyState} {k j : ℕ} {s : ReadyState}

def liveSockets (ss : List ReadyState) : List ℕ :=
  (List.range ss.length).filter fun k => ss[k]?.any ReadyState.live

theorem mem_liveSockets : k ∈ liveSockets ss ↔ ∃ s, ss[k]? = some s ∧ s.live = true := by
  rw [liveSockets, List.mem_filter, List.mem_range, Option.any_eq_true]
  constructor
  · exact And.right
  · rintro ⟨s, hs, hlive⟩
    exact ⟨(List.getElem?_eq_some_iff.mp hs).1, s, hs, hlive⟩

theorem liveSockets_eq_nil :
    liveSockets ss = [] ↔ ∀ (k : ℕ) (s : ReadyState), ss[k]? = some s → s.live = false := by
  rw [List.eq_nil_iff_forall_not_mem]
  constructor
  · intro h k s hs
    by_contra hlive
    rw [Bool.not_eq_false] at hlive
    exact h k (mem_liveSockets.mpr ⟨s, hs, hlive⟩)
  · intro h k hk
    obtain ⟨s, hs, hlive⟩ := mem_liveSockets.mp hk
    exact Bool.false_ne_true ((h k s hs).symm.trans hlive)

theorem liveSockets_nodup (ss : List ReadyState) : (liveSockets ss).Nodup :=
  List.nodup_range.filter _

def closeSocket (k : ℕ) (ss : List ReadyState) : List ReadyState := ss.modify k ReadyState.close

theorem closeSocket_at :
    (closeSocket k ss)[j]? = some s ↔
      ∃ s₀, ss[j]? = some s₀ ∧ s = if k = j then s₀.close else s₀ := by
  rw [closeSocket, List.getElem?_modify, Option.map_eq_map, Option.map_eq_some_iff]
  exact exists_congr fun s₀ => and_congr_right fun _ => eq_comm

theorem live_closeSocket (h : (closeSocket k ss)[j]? = some s) (hlive : s.live = true) :
    k ≠ j ∧ ss[j]? = some s := by
  obtain ⟨s₀, hs₀, rfl⟩ := closeSocket_at.mp h
  by_cases hk : k = j
  · simp [hk] at hlive
  · rw [if_neg hk] at hlive ⊢
    exact ⟨hk, hs₀⟩

theorem closed_closeSocket :
    (closeSocket k ss)[j]? = some .closed ↔ ss[j]? = some .closed := by
  rw [closeSocket_at]
  constructor
  · rintro ⟨s₀, hs₀, heq⟩
    split at heq
    · rwa [(s₀.close_eq_closed).mp heq.symm] at hs₀
    · rwa [← heq] at hs₀
  · intro h
    exact ⟨_, h, by split <;> rfl⟩

theorem set_at {s' : ReadyState} (h : (ss.set k s')[j]? = some s) :
    (k = j ∧ s = s') ∨ (k ≠ j ∧ ss[j]? = some s) := by
  rw [List.getElem?_set] at h
  split at h
  · rename_i hk
    split at h
    · exact .inl ⟨hk, (Option.some.inj h).symm⟩
    · cases h
  · rename_i hk
    exact .inr ⟨hk, h⟩

theorem create_at (h : (ss ++ [.connecting])[j]? = some s) :
    ss[j]? = some s ∨ (j = ss.length ∧ s = .connecting) := by
  rcases Nat.lt_or_ge j ss.length with hj | hj
  · rw [List.getElem?_append_left hj] at h
    exact .inl h
  · rw [List.getElem?_append_right hj, List.getElem?_singleton] at h
    split at h
    · obtain rfl := Option.some.inj h
      exact .inr ⟨by omega, rfl⟩
    · cases h

end

structure Timers (α : Type) where
  issued : ℕ
  running : List (ℕ × α)
  unique : (running.map Prod.fst).Nodup
  known : ∀ t ∈ running, t.1 ≤ issued

namespace Timers
variable {α : Type}

def empty : Timers α := ⟨0, [], List.nodup_nil, nofun⟩

/-- `setTimeout` or `setInterval`; the id is the number of timers set so far. -/
def set (ts : Timers α) (a : α) : Timers α where
  issued := ts.issued + 1
  running := ts.running ++ [(ts.issued + 1, a)]
  unique := by
    rw [List.map_append, List.nodup_append]
    refine ⟨ts.unique, List.nodup_singleton _, fun i hi j hj => ?_⟩
    obtain ⟨t, ht, rfl⟩ := List.mem_map.mp hi
    have hle := ts.known t ht
    simp only [List.map_cons, List.map_nil, List.mem_singleton] at hj
    omega
  known := by
    intro t ht
    rcases List.mem_append.mp ht with ht | ht
    · exact Nat.le_succ_of_le (ts.known t ht)
    · obtain rfl := List.mem_singleton.mp ht
      exact Nat.le_refl _

/-- `clearTimeout` or `clearInterval`, of an id that may be unset. -/
def clear (ts : Timers α) (id : Option ℕ) : Timers α where
  issued := ts.issued
  running := ts.running.filter fun t => id ≠ some t.1
  unique := ts.unique.sublist (List.filter_sublist.map Prod.fst)
  known := fun t ht => ts.known t (List.mem_of_mem_filter ht)

def job (ts : Timers α) (id : ℕ) : Option α := (ts.running.find? fun t => t.1 = id).map Prod.snd

variable {ts : Timers α} {t : ℕ × α} {id : ℕ} {a : α}

@[simp] theorem mem_set : t ∈ (ts.set a).running ↔ t ∈ ts.running ∨ t = (ts.issued + 1, a) := by
  simp [set]

@[simp] theorem mem_clear {id : Option ℕ} :
    t ∈ (ts.clear id).running ↔ t ∈ ts.running ∧ id ≠ some t.1 := by
  simp [clear]

theorem mem_of_job (h : ts.job id = some a) : (id, a) ∈ ts.running := by
  obtain ⟨t, ht, rfl⟩ := Option.map_eq_some_iff.mp h
  have hid : t.1 = id := by simpa using List.find?_some ht
  have hmem := List.mem_of_find?_eq_some ht
  rwa [← hid]

def idsOf (ts : Timers α) (p : α → Bool) : List ℕ :=
  (ts.running.filter fun t => p t.2).map Prod.fst

theorem mem_idsOf {p : α → Bool} :
    id ∈ ts.idsOf p ↔ ∃ a, (id, a) ∈ ts.running ∧ p a = true := by
  simp [idsOf]

theorem idsOf_eq_nil {p : α → Bool} :
    ts.idsOf p = [] ↔ ∀ t ∈ ts.running, p t.2 = false := by
  simp [idsOf]

theorem idsOf_nodup (ts : Timers α) (p : α → Bool) : (ts.idsOf p).Nodup :=
  ts.unique.sublist (List.filter_sublist.map Prod.fst)

end Timers

theorem length_le_one_of_ref {α : Type} {l : List α} {r : Option α} (hnd : l.Nodup)
    (h : ∀ x ∈ l, r = some x) : l.length ≤ 1 := by
  cases l with
  | nil => exact Nat.zero_le _
  | cons x rest =>
    cases rest with
    | nil => exact Nat.le_refl _
    | cons y rest =>
      have hx := h x List.mem_cons_self
      have hy := h y (List.mem_cons_of_mem _ List.mem_cons_self)
      obtain rfl := Option.some.inj (hx.symm.trans hy)
      exact absurd List.mem_cons_self (List.nodup_cons.mp hnd).1

end Browser
