import CriptoParser.AwaitRules

/-!
A system of parts. The calls of a part are among those of the system, so that its programs are
programs of the system and its events are events there. What a task has done may depend on all it
was answered before: each task keeps to a condition on its own history, and an invariant over the
history of the system follows.
-/

set_option autoImplicit false

namespace CriptoParser.Await

abbrev Signature.part {C : Type} (T : Signature) (f : C → T.Call) : Signature :=
  ⟨C, fun c => T.Reply (f c), T.Exc⟩

section
variable {C α : Type} {T : Signature} {f : C → T.Call}

def Prog.within (f : C → T.Call) : Prog (T.part f) α → Prog T α
  | .done r => .done r
  | .await c k => .await (f c) fun a => (k a).within f

def Event.within (f : C → T.Call) (e : Event (T.part f)) : Event T := ⟨f e.call, e.reply⟩

end

namespace Monitor
variable {ε ε' : Type}

def Within {C : Type} {T : Signature} (f : C → T.Call)
    (allowed : List (Event (T.part f)) → Event (T.part f) → Prop) (log : List (Event T))
    (e : Event T) : Prop :=
  ∃ before d, log = before.map (Event.within f) ∧ e = Event.within f d ∧ allowed before d

end Monitor

section
variable {S : Signature} {α β : Type} {allowed : List (Event S) → Event S → Prop}
  {can : (c : S.Call) → Except S.Exc (S.Reply c) → Prop} {plain : S.Call → Prop}

theorem Prog.Uses.grows {p : Prog S α} (hp : p.Uses plain)
    (hplain : ∀ before c a, plain c → allowed before ⟨c, a⟩) (log : List (Event S)) :
    p.Meets (Monitor.history allowed) can log
      (Prog.OnOk fun _ (log' : List (Event S)) => log ⊆ log') := by
  refine (Prog.Uses.meets (M := Monitor.history allowed)
    (I := fun log' : List (Event S) => log ⊆ log') hp ?_ (List.Subset.refl _)).mono ?_
  · exact fun log' c a hlog hc =>
      ⟨hplain log' c a hc, fun e he => List.mem_append_left _ (hlog he)⟩
  · rintro (x | a) log' hlog
    · trivial
    · exact hlog

theorem Prog.Uses.next {p : Prog S α} {f : α → Prog S β} {log : List (Event S)}
    {post : β → List (Event S) → Prop} (hp : p.Uses plain)
    (hplain : ∀ before c a, plain c → allowed before ⟨c, a⟩)
    (hf : ∀ a (log' : List (Event S)), log ⊆ log' →
      (f a).Meets (Monitor.history allowed) can log' (Prog.OnOk post)) :
    (p >>= f).Meets (Monitor.history allowed) can log (Prog.OnOk post) :=
  (hp.grows hplain log).next hf

end

section
variable {S : Signature} {σ ι α : Type} [DecidableEq ι]

theorem mem_own {i : ι} {e : Event S} {log : List (ι × Event S)} :
    e ∈ own i log ↔ (i, e) ∈ log := by
  induction log with
  | nil => simp [own]
  | cons jd log ih =>
    obtain ⟨j, d⟩ := jd
    by_cases h : j = i
    · subst h
      simp [ih]
    · simp [own_cons_other h, ih, Ne.symm h]

variable {C : Type} {f : C → S.Call} {serve : Server S σ} {ready : S.Call → σ → Bool}

end

end CriptoParser.Await
