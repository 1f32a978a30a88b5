import Mathlib.Algebra.BigOperators.Group.List.Basic
import Mathlib.Data.List.Basic
import Mathlib.Tactic.Common

/-!
Programs of one asynchronous task. Between two awaits a task runs alone; at an
await it hands one call to the outside and goes on with the reply, or with what
was raised in place of the reply. The tree below keeps every call and every
possible answer, so one program can be run alone, cut short by a failing call,
or interleaved with other tasks.
-/

set_option autoImplicit false

namespace CriptoParser.Await

structure Signature where
  Call : Type
  Reply : Call → Type
  Exc : Type

inductive Prog (S : Signature) (α : Type) where
  | done : Except S.Exc α → Prog S α
  | await : (c : S.Call) → (Except S.Exc (S.Reply c) → Prog S α) → Prog S α

structure Event (S : Signature) where
  call : S.Call
  reply : Except S.Exc (S.Reply call)

namespace Prog
variable {S : Signature} {α β : Type}

def bind : Prog S α → (α → Prog S β) → Prog S β
  | done (.ok a), f => f a
  | done (.error x), _ => done (.error x)
  | await c k, f => await c (fun r => (k r).bind f)

def handle : Prog S α → (S.Exc → Prog S α) → Prog S α
  | done (.ok a), _ => done (.ok a)
  | done (.error x), f => f x
  | await c k, f => await c (fun r => (k r).handle f)

instance : Monad (Prog S) where
  pure a := done (.ok a)
  bind := bind

def call (c : S.Call) : Prog S (S.Reply c) := await c done

def lift (r : Except S.Exc α) : Prog S α := done r

theorem bind_eq (p : Prog S α) (f : α → Prog S β) : p >>= f = p.bind f := rfl

/-- `p.Ends es r`: answered as in `es`, the program finishes with `r`. -/
def Ends : Prog S α → List (Event S) → Except S.Exc α → Prop
  | done r, es, r' => es = [] ∧ r' = r
  | await c k, es, r' => ∃ a es', es = ⟨c, a⟩ :: es' ∧ (k a).Ends es' r'

/-- `p.Reaches es q`: answered as in `es`, the program has become `q`. -/
def Reaches (p : Prog S α) : List (Event S) → Prog S α → Prop
  | [], q => q = p
  | e :: es, q => ∃ k, p = await e.call k ∧ (k e.reply).Reaches es q

end Prog

def Clean {S : Signature} (es : List (Event S)) : Prop :=
  ∀ e ∈ es, ∃ v, e.reply = .ok v

section Clean
variable {S : Signature}

@[simp] theorem clean_nil : Clean ([] : List (Event S)) := by simp [Clean]

@[simp] theorem clean_cons (e : Event S) (es : List (Event S)) :
    Clean (e :: es) ↔ (∃ v, e.reply = .ok v) ∧ Clean es := by simp [Clean]

@[simp] theorem clean_append (es fs : List (Event S)) :
    Clean (es ++ fs) ↔ Clean es ∧ Clean fs := by
  constructor
  · intro h
    exact ⟨fun e he => h e (by simp [he]), fun e he => h e (by simp [he])⟩
  · rintro ⟨hl, hr⟩ e he
    rcases List.mem_append.mp he with h | h
    · exact hl e h
    · exact hr e h

end Clean

namespace Prog
variable {S : Signature} {α β : Type}

theorem ends_bind (p : Prog S α) (f : α → Prog S β) (es : List (Event S))
    (r : Except S.Exc β) :
    (p.bind f).Ends es r ↔
      (∃ a es₁ es₂, es = es₁ ++ es₂ ∧ p.Ends es₁ (.ok a) ∧ (f a).Ends es₂ r) ∨
        ∃ x, p.Ends es (.error x) ∧ r = .error x := by
  induction p generalizing es with
  | done q =>
    cases q with
    | error x =>
      simp only [bind, Ends]
      constructor
      · rintro ⟨rfl, rfl⟩
        exact .inr ⟨x, ⟨rfl, rfl⟩, rfl⟩
      · rintro (⟨a, es₁, es₂, -, ⟨-, h⟩, -⟩ | ⟨y, ⟨rfl, h⟩, rfl⟩)
        · cases h
        · cases h; exact ⟨rfl, rfl⟩
    | ok a =>
      simp only [bind, Ends]
      constructor
      · intro h
        exact .inl ⟨a, [], es, rfl, ⟨rfl, rfl⟩, h⟩
      · rintro (⟨b, es₁, es₂, rfl, ⟨rfl, h⟩, hf⟩ | ⟨x, ⟨-, h⟩, -⟩)
        · cases h; exact hf
        · cases h
  | await c k ih =>
    simp only [bind, Ends]
    constructor
    · rintro ⟨v, es', rfl, h⟩
      rcases (ih v es').mp h with ⟨a, es₁, es₂, rfl, hp, hf⟩ | ⟨x, hp, rfl⟩
      · exact .inl ⟨a, ⟨c, v⟩ :: es₁, es₂, rfl, ⟨v, es₁, rfl, hp⟩, hf⟩
      · exact .inr ⟨x, ⟨v, es', rfl, hp⟩, rfl⟩
    · rintro (⟨a, es₁, es₂, rfl, ⟨v, es', rfl, hp⟩, hf⟩ | ⟨x, ⟨v, es', rfl, hp⟩, rfl⟩)
      · exact ⟨v, es' ++ es₂, rfl, (ih v _).mpr (.inl ⟨a, es', es₂, rfl, hp, hf⟩)⟩
      · exact ⟨v, es', rfl, (ih v es').mpr (.inr ⟨x, hp, rfl⟩)⟩

theorem ends_iff_reaches (p : Prog S α) (es : List (Event S)) (r : Except S.Exc α) :
    p.Ends es r ↔ p.Reaches es (done r) := by
  induction p generalizing es with
  | done q =>
    cases es with
    | nil => simp [Ends, Reaches]
    | cons e es => simp [Ends, Reaches]
  | await c k ih =>
    cases es with
    | nil => simp [Ends, Reaches]
    | cons e es =>
      obtain ⟨d, v⟩ := e
      simp only [Ends, Reaches]
      constructor
      · rintro ⟨a, es', heq, h⟩
        cases heq
        exact ⟨k, rfl, (ih a es).mp h⟩
      · rintro ⟨k', heq, h⟩
        cases heq
        exact ⟨v, es, rfl, (ih v es).mpr h⟩

theorem reaches_append (p q s : Prog S α) (es fs : List (Event S))
    (h : p.Reaches es q) (h' : q.Reaches fs s) : p.Reaches (es ++ fs) s := by
  induction es generalizing p with
  | nil => cases h; exact h'
  | cons e es ih =>
    obtain ⟨k, hk, hr⟩ := h
    exact ⟨k, hk, ih _ hr⟩

/-- `p.Goes es r`: answered as in `es`, where no call raised, `p` finishes with `r`. -/
def Goes (p : Prog S α) (es : List (Event S)) (r : Except S.Exc α) : Prop :=
  p.Ends es r ∧ Clean es

@[simp] theorem goes_done (q : Except S.Exc α) (es : List (Event S)) (r : Except S.Exc α) :
    (done q).Goes es r ↔ es = [] ∧ r = q := by
  constructor
  · rintro ⟨h, -⟩
    exact h
  · rintro ⟨rfl, rfl⟩
    exact ⟨⟨rfl, rfl⟩, clean_nil⟩

@[simp] theorem goes_pure (a : α) (es : List (Event S)) (r : Except S.Exc α) :
    (pure a : Prog S α).Goes es r ↔ es = [] ∧ r = .ok a := goes_done _ _ _

@[simp] theorem goes_lift (q : Except S.Exc α) (es : List (Event S)) (r : Except S.Exc α) :
    (lift q).Goes es r ↔ es = [] ∧ r = q := goes_done _ _ _

theorem goes_await (c : S.Call) (k : Except S.Exc (S.Reply c) → Prog S α)
    (es : List (Event S)) (r : Except S.Exc α) :
    (await c k).Goes es r ↔
      ∃ v es', es = ⟨c, .ok v⟩ :: es' ∧ (k (.ok v)).Goes es' r := by
  constructor
  · rintro ⟨⟨a, es', rfl, h⟩, hc⟩
    obtain ⟨⟨v, hv⟩, htail⟩ := (clean_cons _ _).mp hc
    cases a with
    | error x => cases hv
    | ok a => exact ⟨a, es', rfl, h, htail⟩
  · rintro ⟨v, es', rfl, h, hc⟩
    exact ⟨⟨_, es', rfl, h⟩, (clean_cons _ _).mpr ⟨⟨v, rfl⟩, hc⟩⟩

@[simp] theorem goes_call (c : S.Call) (es : List (Event S)) (r : Except S.Exc (S.Reply c)) :
    (call c).Goes es r ↔ ∃ v, es = [⟨c, .ok v⟩] ∧ r = .ok v := by
  simp only [call, goes_await, goes_done]
  constructor
  · rintro ⟨v, es', rfl, rfl, rfl⟩
    exact ⟨v, rfl, rfl⟩
  · rintro ⟨v, rfl, rfl⟩
    exact ⟨v, [], rfl, rfl, rfl⟩

theorem goes_bind (p : Prog S α) (f : α → Prog S β) (es : List (Event S))
    (r : Except S.Exc β) :
    (p >>= f).Goes es r ↔
      (∃ a es₁ es₂, es = es₁ ++ es₂ ∧ p.Goes es₁ (.ok a) ∧ (f a).Goes es₂ r) ∨
        ∃ x, p.Goes es (.error x) ∧ r = .error x := by
  simp only [Goes, bind_eq, ends_bind]
  constructor
  · rintro ⟨⟨a, es₁, es₂, rfl, hp, hf⟩ | ⟨x, hp, hr⟩, hc⟩
    · obtain ⟨h₁, h₂⟩ := (clean_append _ _).mp hc
      exact .inl ⟨a, es₁, es₂, rfl, ⟨hp, h₁⟩, hf, h₂⟩
    · exact .inr ⟨x, ⟨hp, hc⟩, hr⟩
  · rintro (⟨a, es₁, es₂, rfl, ⟨hp, h₁⟩, hf, h₂⟩ | ⟨x, ⟨hp, hc⟩, hr⟩)
    · exact ⟨.inl ⟨a, es₁, es₂, rfl, hp, hf⟩, (clean_append _ _).mpr ⟨h₁, h₂⟩⟩
    · exact ⟨.inr ⟨x, hp, hr⟩, hc⟩

/-- A call whose reply is used: the first event is that call's. The reply type stays
out of the simp index, since it computes for a concrete call. -/
@[simp] theorem goes_call_bind (c : S.Call) (f : S.Reply c → Prog S β)
    (es : List (Event S)) (r : Except S.Exc β) :
    (@Bind.bind (Prog S) _ (no_index (S.Reply c)) β (call c) f).Goes es r ↔
      ∃ v es', es = ⟨c, .ok v⟩ :: es' ∧ (f v).Goes es' r := by
  simp only [bind_eq, call, bind, goes_await]

@[simp] theorem goes_lift_bind (q : Except S.Exc α) (f : α → Prog S β)
    (es : List (Event S)) (r : Except S.Exc β) :
    (lift q >>= f).Goes es r ↔
      (∃ a, q = .ok a ∧ (f a).Goes es r) ∨ ∃ x, q = .error x ∧ es = [] ∧ r = .error x := by
  cases q with
  | ok a => simp [bind_eq, lift, bind]
  | error x => simp [bind_eq, lift, bind]

end Prog

namespace Prog
variable {S : Signature} {α β : Type}

@[simp] theorem ends_done (q : Except S.Exc α) (es : List (Event S)) (r : Except S.Exc α) :
    (done q).Ends es r ↔ es = [] ∧ r = q := Iff.rfl

@[simp] theorem ends_pure (a : α) (es : List (Event S)) (r : Except S.Exc α) :
    (pure a : Prog S α).Ends es r ↔ es = [] ∧ r = .ok a := Iff.rfl

theorem ends_call_bind (c : S.Call) (f : S.Reply c → Prog S β)
    (es : List (Event S)) (r : Except S.Exc β) :
    (@Bind.bind (Prog S) _ (no_index (S.Reply c)) β (call c) f).Ends es r ↔
      (∃ v es', es = ⟨c, .ok v⟩ :: es' ∧ (f v).Ends es' r) ∨
        ∃ x, es = [⟨c, .error x⟩] ∧ r = .error x := by
  simp only [bind_eq, call, bind, Ends]
  constructor
  · rintro ⟨a, es', rfl, h⟩
    cases a with
    | ok v => exact .inl ⟨v, es', rfl, h⟩
    | error x =>
      obtain ⟨rfl, rfl⟩ := h
      exact .inr ⟨x, rfl, rfl⟩
  · rintro (⟨v, es', rfl, h⟩ | ⟨x, rfl, rfl⟩)
    · exact ⟨_, _, rfl, h⟩
    · exact ⟨_, _, rfl, rfl, rfl⟩

theorem ends_lift_bind (q : Except S.Exc α) (f : α → Prog S β)
    (es : List (Event S)) (r : Except S.Exc β) :
    (lift q >>= f).Ends es r ↔
      (∃ a, q = .ok a ∧ (f a).Ends es r) ∨ ∃ x, q = .error x ∧ es = [] ∧ r = .error x := by
  cases q with
  | ok a => simp [bind_eq, lift, bind]
  | error x => simp [bind_eq, lift, bind]

theorem ends_handle (p : Prog S α) (f : S.Exc → Prog S α) (es : List (Event S))
    (r : Except S.Exc α) :
    (p.handle f).Ends es r ↔
      (∃ a, p.Ends es (.ok a) ∧ r = .ok a) ∨
        ∃ x es₁ es₂, es = es₁ ++ es₂ ∧ p.Ends es₁ (.error x) ∧ (f x).Ends es₂ r := by
  induction p generalizing es with
  | done q =>
    cases q with
    | ok a =>
      simp only [handle, ends_done]
      constructor
      · rintro ⟨rfl, rfl⟩
        exact .inl ⟨a, ⟨rfl, rfl⟩, rfl⟩
      · rintro (⟨b, ⟨rfl, h⟩, rfl⟩ | ⟨x, es₁, es₂, -, ⟨-, h⟩, -⟩)
        · cases h; exact ⟨rfl, rfl⟩
        · cases h
    | error x =>
      simp only [handle, ends_done]
      constructor
      · intro h
        exact .inr ⟨x, [], es, rfl, ⟨rfl, rfl⟩, h⟩
      · rintro (⟨b, ⟨-, h⟩, -⟩ | ⟨y, es₁, es₂, rfl, ⟨rfl, h⟩, hf⟩)
        · cases h
        · cases h; exact hf
  | await c k ih =>
    simp only [handle, Ends]
    constructor
    · rintro ⟨v, es', rfl, h⟩
      rcases (ih v es').mp h with ⟨a, hp, rfl⟩ | ⟨x, es₁, es₂, rfl, hp, hf⟩
      · exact .inl ⟨a, ⟨v, es', rfl, hp⟩, rfl⟩
      · exact .inr ⟨x, ⟨c, v⟩ :: es₁, es₂, rfl, ⟨v, es₁, rfl, hp⟩, hf⟩
    · rintro (⟨a, ⟨v, es', rfl, hp⟩, rfl⟩ | ⟨x, es₁, es₂, rfl, ⟨v, es', rfl, hp⟩, hf⟩)
      · exact ⟨v, es', rfl, (ih v es').mpr (.inl ⟨a, hp, rfl⟩)⟩
      · exact ⟨v, es' ++ es₂, rfl, (ih v _).mpr (.inr ⟨x, es', es₂, rfl, hp, hf⟩)⟩

def Answered (kind : S.Call → Bool) (es : List (Event S)) : Prop :=
  ∀ e ∈ es, kind e.call = true → ∃ v, e.reply = .ok v

@[simp] theorem answered_nil (kind : S.Call → Bool) : Answered kind [] := by simp [Answered]

@[simp] theorem answered_cons (kind : S.Call → Bool) (e : Event S) (es : List (Event S)) :
    Answered kind (e :: es) ↔
      (kind e.call = true → ∃ v, e.reply = .ok v) ∧ Answered kind es := by
  simp [Answered]

@[simp] theorem answered_append (kind : S.Call → Bool) (es fs : List (Event S)) :
    Answered kind (es ++ fs) ↔ Answered kind es ∧ Answered kind fs := by
  simp only [Answered, List.mem_append]
  constructor
  · intro h
    exact ⟨fun e he => h e (.inl he), fun e he => h e (.inr he)⟩
  · rintro ⟨hl, hr⟩ e (he | he)
    · exact hl e he
    · exact hr e he

theorem Answered.call_bind {kind : S.Call → Bool} {c : S.Call} {f : S.Reply c → Prog S β}
    {es : List (Event S)} {r : Except S.Exc β} (hs : Answered kind es)
    (h : (@Bind.bind (Prog S) _ (no_index (S.Reply c)) β (call c) f).Ends es r)
    (hc : kind c = true) :
    ∃ v es', es = ⟨c, .ok v⟩ :: es' ∧ (f v).Ends es' r ∧ Answered kind es' := by
  rcases (ends_call_bind c f es r).mp h with ⟨v, es', rfl, hf⟩ | ⟨x, rfl, -⟩
  · exact ⟨v, es', rfl, hf, ((answered_cons _ _ _).mp hs).2⟩
  · obtain ⟨v, hv⟩ := ((answered_cons _ _ _).mp hs).1 hc
    cases hv

def Uses (allowed : S.Call → Prop) : Prog S α → Prop
  | done _ => True
  | await c k => allowed c ∧ ∀ a, (k a).Uses allowed

def Straight : Prog S α → Prop
  | done _ => True
  | await _ k => (∀ x, k (.error x) = done (.error x)) ∧ ∀ v, (k (.ok v)).Straight

section Uses
variable {allowed : S.Call → Prop}

@[simp] theorem uses_pure (a : α) : (pure a : Prog S α).Uses allowed := trivial

@[simp] theorem uses_lift (q : Except S.Exc α) : (lift q).Uses allowed := trivial

@[simp] theorem uses_call (c : S.Call) : (call c).Uses allowed ↔ allowed c := by
  simp [call, Uses]

theorem uses_bind {p : Prog S α} {f : α → Prog S β} (hp : p.Uses allowed)
    (hf : ∀ a, (f a).Uses allowed) : (p >>= f).Uses allowed := by
  rw [bind_eq]
  induction p with
  | done q =>
    cases q with
    | ok a => exact hf a
    | error x => trivial
  | await c k ih => exact ⟨hp.1, fun a => ih a (hp.2 a)⟩

theorem uses_handle {p : Prog S α} {f : S.Exc → Prog S α} (hp : p.Uses allowed)
    (hf : ∀ x, (f x).Uses allowed) : (p.handle f).Uses allowed := by
  induction p with
  | done q =>
    cases q with
    | ok a => trivial
    | error x => exact hf x
  | await c k ih => exact ⟨hp.1, fun a => ih a (hp.2 a)⟩

theorem Uses.mono {other : S.Call → Prop} {p : Prog S α} (hp : p.Uses allowed)
    (h : ∀ c, allowed c → other c) : p.Uses other := by
  induction p with
  | done q => trivial
  | await c k ih => exact ⟨h c hp.1, fun a => ih a (hp.2 a)⟩

theorem Uses.reaches {p q : Prog S α} {es : List (Event S)} (hp : p.Uses allowed)
    (h : p.Reaches es q) : (∀ e ∈ es, allowed e.call) ∧ q.Uses allowed := by
  induction es generalizing p with
  | nil => cases h; exact ⟨by simp, hp⟩
  | cons e es ih =>
    obtain ⟨k, rfl, hr⟩ := h
    obtain ⟨hes, hq⟩ := ih (hp.2 e.reply) hr
    exact ⟨by simpa using ⟨hp.1, hes⟩, hq⟩

theorem Uses.ends {p : Prog S α} {es : List (Event S)} {r : Except S.Exc α}
    (hp : p.Uses allowed) (h : p.Ends es r) : ∀ e ∈ es, allowed e.call :=
  (hp.reaches ((ends_iff_reaches p es r).mp h)).1

end Uses

section Straight

@[simp] theorem straight_pure (a : α) : (pure a : Prog S α).Straight := trivial

@[simp] theorem straight_lift (q : Except S.Exc α) : (lift q).Straight := trivial

@[simp] theorem straight_call (c : S.Call) : (call c).Straight :=
  ⟨fun _ => rfl, fun _ => trivial⟩

theorem straight_bind {p : Prog S α} {f : α → Prog S β} (hp : p.Straight)
    (hf : ∀ a, (f a).Straight) : (p >>= f).Straight := by
  rw [bind_eq]
  induction p with
  | done q =>
    cases q with
    | ok a => exact hf a
    | error x => trivial
  | await c k ih =>
    refine ⟨fun x => ?_, fun v => ih _ (hp.2 v)⟩
    simp only [hp.1 x, bind]

theorem Straight.ends {p : Prog S α} {es : List (Event S)} {r : Except S.Exc α}
    (hp : p.Straight) (h : p.Ends es r) :
    p.Goes es r ∨
      ∃ fs c x, es = fs ++ [⟨c, .error x⟩] ∧ Clean fs ∧ r = .error x := by
  induction p generalizing es with
  | done q => exact .inl ⟨h, by obtain ⟨rfl, -⟩ := h; exact clean_nil⟩
  | await c k ih =>
    obtain ⟨a, es', rfl, h⟩ := h
    cases a with
    | error x =>
      rw [hp.1 x] at h
      obtain ⟨rfl, rfl⟩ := h
      exact .inr ⟨[], c, x, rfl, clean_nil, rfl⟩
    | ok v =>
      rcases ih (.ok v) (hp.2 v) h with ⟨hg, hc⟩ | ⟨fs, d, x, rfl, hc, rfl⟩
      · exact .inl ⟨⟨_, _, rfl, hg⟩, (clean_cons _ _).mpr ⟨⟨v, rfl⟩, hc⟩⟩
      · exact .inr ⟨_ :: fs, d, x, rfl, (clean_cons _ _).mpr ⟨⟨v, rfl⟩, hc⟩, rfl⟩

theorem Straight.goes_ok {p : Prog S α} {es : List (Event S)} {a : α} (hp : p.Straight)
    (h : p.Ends es (.ok a)) : p.Goes es (.ok a) := by
  rcases hp.ends h with hgoes | ⟨_, _, _, -, -, hx⟩
  · exact hgoes
  · cases hx

end Straight

section Performs

/-- The program makes these calls in this order; a call that raises ends it. -/
def Performs (p : Prog S α) (calls : List S.Call) : Prop :=
  ∀ es r, p.Ends es r →
    (es.map Event.call = calls ∧ Clean es ∧ ∃ a, r = .ok a) ∨
      ∃ fs c x, es = fs ++ [⟨c, .error x⟩] ∧ Clean fs ∧ r = .error x ∧
        es.map Event.call <+: calls

theorem performs_pure (a : α) : (pure a : Prog S α).Performs [] := by
  rintro es r ⟨rfl, rfl⟩
  exact .inl ⟨rfl, clean_nil, a, rfl⟩

theorem performs_call (c : S.Call) : (call c).Performs [c] := by
  rintro es r ⟨a, es', rfl, rfl, rfl⟩
  cases r with
  | ok v => exact .inl ⟨rfl, by simp, v, rfl⟩
  | error x => exact .inr ⟨[], c, x, rfl, clean_nil, rfl, List.prefix_refl _⟩

theorem performs_bind {p : Prog S α} {f : α → Prog S β} {cs ds : List S.Call}
    (hp : p.Performs cs) (hf : ∀ a, (f a).Performs ds) : (p >>= f).Performs (cs ++ ds) := by
  intro es r h
  rw [bind_eq, ends_bind] at h
  rcases h with ⟨a, es₁, es₂, rfl, h₁, h₂⟩ | ⟨x, h₁, rfl⟩
  · rcases hp _ _ h₁ with ⟨hcs, hclean, -⟩ | ⟨_, _, _, _, _, h, _⟩
    · rcases hf a _ _ h₂ with ⟨hds, hclean', hok⟩ | ⟨fs, c, x, rfl, hclean', hr, hpre⟩
      · refine .inl ⟨?_, (clean_append _ _).mpr ⟨hclean, hclean'⟩, hok⟩
        rw [List.map_append, hcs, hds]
      · refine .inr ⟨es₁ ++ fs, c, x, by simp, (clean_append _ _).mpr ⟨hclean, hclean'⟩, hr, ?_⟩
        rw [List.map_append, hcs]
        exact (List.prefix_append_right_inj cs).mpr hpre
    · cases h
  · rcases hp _ _ h₁ with ⟨_, _, _, h⟩ | ⟨fs, c, y, rfl, hclean, hr, hpre⟩
    · cases h
    · cases hr
      exact .inr ⟨fs, c, x, rfl, hclean, rfl, hpre.trans (List.prefix_append _ _)⟩

end Performs

end Prog

/-- What answers the calls: every call gets an answer and may change the state. -/
abbrev Server (S : Signature) (σ : Type) :=
  (c : S.Call) → σ → Except S.Exc (S.Reply c) × σ

/-- `Follows serve s es s'`: the events are what `serve` answers from `s` on, and lead to `s'`. -/
def Follows {S : Signature} {σ : Type} (serve : Server S σ) : σ → List (Event S) → σ → Prop
  | s, [], s' => s' = s
  | s, e :: es, s' => e.reply = (serve e.call s).1 ∧ Follows serve (serve e.call s).2 es s'

section Run
variable {S : Signature} {σ α β : Type} (serve : Server S σ)

namespace Prog

def run : Prog S α → σ → Except S.Exc α × σ
  | done r, s => (r, s)
  | await c k, s => (k (serve c s).1).run (serve c s).2

def trace : Prog S α → σ → List (Event S)
  | done _, _ => []
  | await c k, s => ⟨c, (serve c s).1⟩ :: (k (serve c s).1).trace (serve c s).2

@[simp] theorem run_pure (a : α) (s : σ) :
    (pure a : Prog S α).run serve s = (.ok a, s) := rfl

theorem run_await (c : S.Call) (k : Except S.Exc (S.Reply c) → Prog S α) (s : σ) :
    (await c k).run serve s = (k (serve c s).1).run serve (serve c s).2 := rfl

@[simp] theorem run_call (c : S.Call) (s : σ) : (call c).run serve s = serve c s := rfl

theorem run_bind (p : Prog S α) (f : α → Prog S β) (s : σ) :
    (p >>= f).run serve s =
      match (p.run serve s).1 with
      | .ok a => (f a).run serve (p.run serve s).2
      | .error x => (.error x, (p.run serve s).2) := by
  rw [bind_eq]
  induction p generalizing s with
  | done q => cases q <;> rfl
  | await c k ih => exact ih _ _

theorem trace_bind (p : Prog S α) (f : α → Prog S β) (s : σ) :
    (p >>= f).trace serve s =
      match (p.run serve s).1 with
      | .ok a => p.trace serve s ++ (f a).trace serve (p.run serve s).2
      | .error _ => p.trace serve s := by
  rw [bind_eq]
  induction p generalizing s with
  | done q => cases q <;> rfl
  | await c k ih =>
    simp only [bind, trace, run_await, ih]
    cases ((k (serve c s).1).run serve (serve c s).2).1 <;> rfl

theorem run_handle (p : Prog S α) (f : S.Exc → Prog S α) (s : σ) :
    (p.handle f).run serve s =
      match (p.run serve s).1 with
      | .ok a => (.ok a, (p.run serve s).2)
      | .error x => (f x).run serve (p.run serve s).2 := by
  induction p generalizing s with
  | done q => cases q <;> rfl
  | await c k ih => exact ih _ _

theorem trace_handle (p : Prog S α) (f : S.Exc → Prog S α) (s : σ) :
    (p.handle f).trace serve s =
      match (p.run serve s).1 with
      | .ok _ => p.trace serve s
      | .error x => p.trace serve s ++ (f x).trace serve (p.run serve s).2 := by
  induction p generalizing s with
  | done q => cases q <;> rfl
  | await c k ih =>
    simp only [handle, trace, run_await, ih]
    cases ((k (serve c s).1).run serve (serve c s).2).1 <;> rfl

theorem ends_trace (p : Prog S α) (s : σ) : p.Ends (p.trace serve s) (p.run serve s).1 := by
  induction p generalizing s with
  | done q => exact ⟨rfl, rfl⟩
  | await c k ih => exact ⟨_, _, rfl, ih _ _⟩

theorem Straight.goes_trace {p : Prog S α} {s : σ} {a : α} (hp : p.Straight)
    (h : (p.run serve s).1 = .ok a) : p.Goes (p.trace serve s) (.ok a) := by
  have hends := p.ends_trace serve s
  rw [h] at hends
  exact hp.goes_ok hends

theorem follows_trace (p : Prog S α) (s : σ) :
    Follows serve s (p.trace serve s) (p.run serve s).2 := by
  induction p generalizing s with
  | done q => rfl
  | await c k ih => exact ⟨rfl, ih _ _⟩

theorem run_preserves {I : σ → Prop} (hstep : ∀ c s, I s → I (serve c s).2)
    (p : Prog S α) (s : σ) (hs : I s) : I (p.run serve s).2 := by
  induction p generalizing s with
  | done q => exact hs
  | await c k ih => exact ih _ _ (hstep c s hs)

end Prog

theorem follows_append (s s' : σ) (es fs : List (Event S)) :
    Follows serve s (es ++ fs) s' ↔
      ∃ m, Follows serve s es m ∧ Follows serve m fs s' := by
  induction es generalizing s with
  | nil =>
    constructor
    · intro h
      exact ⟨s, rfl, h⟩
    · rintro ⟨m, rfl, h⟩
      exact h
  | cons e es ih =>
    simp only [List.cons_append, Follows, ih]
    constructor
    · rintro ⟨hr, m, h, h'⟩
      exact ⟨m, ⟨hr, h⟩, h'⟩
    · rintro ⟨m, ⟨hr, h⟩, h'⟩
      exact ⟨hr, m, h, h'⟩

theorem follows_preserves {I : σ → Prop} (hstep : ∀ c s, I s → I (serve c s).2)
    {s s' : σ} {es : List (Event S)} (h : Follows serve s es s') (hs : I s) : I s' := by
  induction es generalizing s with
  | nil => cases h; exact hs
  | cons e es ih => exact ih h.2 (hstep e.call s hs)

theorem follows_answered {kind : S.Call → Bool}
    (hserve : ∀ c s, kind c = true → ∃ v, (serve c s).1 = .ok v)
    {s s' : σ} {es : List (Event S)} (h : Follows serve s es s') : Prog.Answered kind es := by
  induction es generalizing s with
  | nil => exact Prog.answered_nil kind
  | cons e es ih =>
    rw [Prog.answered_cons, h.1]
    exact ⟨hserve e.call s, ih h.2⟩

theorem follows_sum {M : Type} [AddCommMonoid M] (f : σ → M) (change : Event S → M)
    {allowed : S.Call → Prop}
    (hstep : ∀ c s, allowed c → f (serve c s).2 = f s + change ⟨c, (serve c s).1⟩)
    {s s' : σ} {es : List (Event S)} (h : Follows serve s es s')
    (hes : ∀ e ∈ es, allowed e.call) : f s' = f s + (es.map change).sum := by
  induction es generalizing s with
  | nil => cases h; simp
  | cons e es ih =>
    obtain ⟨ha, h⟩ := h
    have he : (⟨e.call, (serve e.call s).1⟩ : Event S) = e := by rw [← ha]
    rw [ih h fun d hd => hes d (List.mem_cons_of_mem _ hd),
      hstep e.call s (hes _ List.mem_cons_self), he, List.map_cons, List.sum_cons, add_assoc]

end Run

end CriptoParser.Await
