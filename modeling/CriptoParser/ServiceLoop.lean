import CriptoParser.AwaitRules
import CriptoParser.ServiceWorld

set_option autoImplicit false

namespace CriptoParser

open Await

def pricesStream : String := "prices"

def opportunitiesStream : String := "opportunities"

def tradesStream : String := "trades"

def awaitIf (condition : Bool) (p : Task Unit) : Task Unit := if condition then p else pure ()

/-- The handlers of the consumer loops: a cancellation is passed on, any other
exception is logged and slept over. -/
def loopHandler (x : PyExc) : Task Unit :=
  if x.isException then Prog.call (S := Service) (.sleep 1)
  else Prog.lift (.error x)

def loopPass (body : Task Unit) : Task Unit := body.handle loopHandler

def loopFor (body : Task Unit) : ℕ → Task Unit
  | 0 => pure ()
  | n + 1 => do
    loopPass body
    loopFor body n

theorem ends_awaitIf (condition : Bool) (p : Task Unit) (es : List (Event Service))
    (r : Except PyExc Unit) :
    (awaitIf condition p).Ends es r ↔
      (condition = true ∧ p.Ends es r) ∨ (condition = false ∧ es = [] ∧ r = .ok ()) := by
  cases condition <;> simp [awaitIf]

theorem performs_awaitIf (l : Bool) (c : Call) (p : Task Unit) (hp : p.Performs [c]) :
    (awaitIf (!l) p).Performs (if l then [] else [c]) := by
  cases l with
  | true => exact Prog.performs_pure ()
  | false => exact hp

theorem awaitIf_uses {allowed : Call → Prop} {p : Task Unit} (b : Bool) (hp : p.Uses allowed) :
    (awaitIf b p).Uses allowed := by
  cases b with
  | true => exact hp
  | false => exact Prog.uses_pure _

theorem loopFor_uses {allowed : Call → Prop} {body : Task Unit} (hbody : body.Uses allowed)
    (hsleep : allowed (.sleep 1)) (n : ℕ) : (loopFor body n).Uses allowed := by
  induction n with
  | zero => exact Prog.uses_pure _
  | succ n ih =>
    refine Prog.uses_bind (Prog.uses_handle hbody fun x => ?_) fun _ => ih
    unfold loopHandler
    split
    · exact (Prog.uses_call (S := Service) _).mpr hsleep
    · exact Prog.uses_lift _

theorem loopHandler_ends {x : PyExc} {es : List (Event Service)} {r : Except PyExc Unit}
    (h : (loopHandler x).Ends es r) : ∀ e ∈ es, e.call = .sleep 1 := by
  unfold loopHandler at h
  split at h
  · obtain ⟨a, es', rfl, rfl, -⟩ := h
    simp
  · obtain ⟨rfl, -⟩ := h
    simp

theorem loopPass_ends {body : Task Unit} {es : List (Event Service)} {r : Except PyExc Unit}
    (h : (loopPass body).Ends es r) :
    ∃ es₁ es₂ q, es = es₁ ++ es₂ ∧ body.Ends es₁ q ∧ ∀ e ∈ es₂, e.call = .sleep 1 := by
  rcases (Prog.ends_handle _ _ _ _).mp h with ⟨a, hbody, -⟩ | ⟨x, es₁, es₂, rfl, hbody, hx⟩
  · exact ⟨es, [], .ok a, by simp, hbody, by simp⟩
  · exact ⟨es₁, es₂, .error x, rfl, hbody, loopHandler_ends hx⟩

end CriptoParser
