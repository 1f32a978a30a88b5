import Mathlib.Algebra.Order.Group.Defs
import Mathlib.Algebra.Order.Monoid.Unbundled.Basic
import Mathlib.Logic.Function.Basic
import Mathlib.Tactic.Common

set_option autoImplicit false

namespace CriptoParser.Expiry

abbrev Keys (K T : Type) := K → Option T

section
variable {K T : Type} [LinearOrder T] [Add T]

def held (keys : Keys K T) (key : K) (now : T) : Bool :=
  match keys key with
  | none => false
  | some expires => decide (now < expires)

/-- `SET key NX EX ttl`: whether the key was claimed, and the keys afterwards. -/
def claim [DecidableEq K] (keys : Keys K T) (key : K) (now ttl : T) : Bool × Keys K T :=
  if held keys key now then (false, keys)
  else (true, Function.update keys key (some (now + ttl)))

theorem claim_held [DecidableEq K] {keys : Keys K T} {key : K} {now ttl : T}
    (h : held keys key now = true) :
    claim keys key now ttl = (false, keys) := if_pos h

theorem claim_free [DecidableEq K] {keys : Keys K T} {key : K} {now ttl : T}
    (h : held keys key now = false) :
    claim keys key now ttl = (true, Function.update keys key (some (now + ttl))) :=
  if_neg (by simp [h])

theorem claim_key [DecidableEq K] (keys : Keys K T) (claimed : K) (now ttl : T) (key : K) :
    (claim keys claimed now ttl).2 key = keys key ∨
      (claim keys claimed now ttl).2 key = some (now + ttl) := by
  unfold claim
  split
  · exact .inl rfl
  · by_cases hk : key = claimed
    · subst hk
      exact .inr (Function.update_self ..)
    · exact .inl (Function.update_of_ne hk ..)

/-- The claims granted so far, each with its instant, account for the keys. -/
structure Tracks (ttl : T) (granted : List (T × K)) (keys : Keys K T) (now : T) : Prop where
  source : ∀ key expires, keys key = some expires → now < expires →
    ∃ p ∈ granted, p.2 = key ∧ expires = p.1 + ttl
  kept : ∀ p ∈ granted, ∃ expires, keys p.2 = some expires ∧ p.1 + ttl ≤ expires
  earlier : ∀ p ∈ granted, p.1 ≤ now

variable {ttl now : T} {granted : List (T × K)} {keys : Keys K T}

theorem tracks_nil (h : ∀ key, held keys key now = false) : Tracks ttl [] keys now := by
  refine ⟨fun key expires hkey hlt => ?_, by simp, by simp⟩
  have hfree := h key
  simp only [held, hkey, decide_eq_false_iff_not] at hfree
  exact absurd hlt hfree

theorem Tracks.later (h : Tracks ttl granted keys now) {now' : T} (hle : now ≤ now') :
    Tracks ttl granted keys now' where
  source key expires hkey hlt := h.source key expires hkey (lt_of_le_of_lt hle hlt)
  kept := h.kept
  earlier p hp := (h.earlier p hp).trans hle

theorem Tracks.refused (h : Tracks ttl granted keys now) {key : K}
    (hheld : held keys key now = true) : ∃ p ∈ granted, p.2 = key ∧ now < p.1 + ttl := by
  unfold held at hheld
  cases hkey : keys key with
  | none => simp [hkey] at hheld
  | some expires =>
    have hlt : now < expires := by simpa [hkey] using hheld
    obtain ⟨p, hp, hpk, rfl⟩ := h.source key expires hkey hlt
    exact ⟨p, hp, hpk, hlt⟩

theorem Tracks.granted_apart (h : Tracks ttl granted keys now) {key : K}
    (hfree : held keys key now = false) : ∀ p ∈ granted, p.2 = key → p.1 + ttl ≤ now := by
  intro p hp hpk
  obtain ⟨expires, hkey, hle⟩ := h.kept p hp
  subst hpk
  simp only [held, hkey, decide_eq_false_iff_not, not_lt] at hfree
  exact hle.trans hfree

theorem Tracks.grant [AddRightMono T] [DecidableEq K] (h : Tracks ttl granted keys now) {key : K} :
    Tracks ttl (granted ++ [(now, key)]) (Function.update keys key (some (now + ttl))) now where
  source key' expires hkey hlt := by
    by_cases hk : key' = key
    · subst hk
      rw [Function.update_self] at hkey
      cases hkey
      exact ⟨(now, key'), by simp, rfl, rfl⟩
    · rw [Function.update_of_ne hk] at hkey
      obtain ⟨p, hp, hpk⟩ := h.source key' expires hkey hlt
      exact ⟨p, List.mem_append_left _ hp, hpk⟩
  kept p hp := by
    by_cases hk : p.2 = key
    · refine ⟨now + ttl, by rw [hk, Function.update_self], ?_⟩
      rcases List.mem_append.mp hp with hp | hp
      · exact add_le_add_left (h.earlier p hp) ttl
      · obtain rfl := List.mem_singleton.mp hp
        exact le_refl _
    · rcases List.mem_append.mp hp with hp | hp
      · obtain ⟨expires, hkey, hle⟩ := h.kept p hp
        exact ⟨expires, by rw [Function.update_of_ne hk, hkey], hle⟩
      · obtain rfl := List.mem_singleton.mp hp
        exact absurd rfl hk
  earlier p hp := by
    rcases List.mem_append.mp hp with hp | hp
    · exact h.earlier p hp
    · obtain rfl := List.mem_singleton.mp hp
      exact le_refl _

end

end CriptoParser.Expiry
