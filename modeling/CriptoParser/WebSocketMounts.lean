import CriptoParser.WebSocketHook

/-!
The component that uses `useWebSocket`, mounted and unmounted. An instance that is mounted anew has
refs of its own; a remount of `React.StrictMode` runs the effect again on the refs there are, and
the sockets of both mounts share them.
-/

set_option autoImplicit false

namespace CriptoParser

open Browser

/-- The instances of the component, the last one first. -/
structure SocketPage where
  hooks : List Hook
  mounted : Bool

inductive MountStep where
  | mount (now : ℤ)
  | remount
  | unmount
  | event (i : ℕ) (e : HookEvent)
  deriving DecidableEq, Repr

namespace SocketPage

def blank : SocketPage := ⟨[], false⟩

def step (p : SocketPage) : MountStep → Option SocketPage
  | .mount now => if p.mounted then none else some ⟨(Hook.create now).mount :: p.hooks, true⟩
  | .remount =>
    match p with
    | ⟨h :: rest, false⟩ => some ⟨h.mount :: rest, true⟩
    | _ => none
  | .unmount =>
    match p with
    | ⟨h :: rest, true⟩ => some ⟨h.unmount :: rest, false⟩
    | _ => none
  | .event i e => do
    let h ← p.hooks[i]?
    let h ← h.step e
    some { p with hooks := p.hooks.set i h }

def run : SocketPage → List MountStep → Option SocketPage
  | p, [] => some p
  | p, a :: rest => do
    let p ← p.step a
    p.run rest

/-- At most one socket is open or will be, none once the component is unmounted, and every open
one has its heartbeat. -/
structure OneSocket (p : SocketPage) : Prop where
  one : (p.hooks.map Hook.openings).sum ≤ 1
  gone : p.mounted = false → (p.hooks.map Hook.openings).sum = 0
  heartbeat : ∀ h ∈ p.hooks, ∀ k, h.sockets[k]? = some .open_ → h.Beats k

/-- A close event that finds the component mounted is that of the socket in `wsRef`. -/
def inTurn (p : SocketPage) : MountStep → Bool
  | .event 0 (.close k) => !p.mounted || p.hooks.head?.any fun h => h.wsRef = some k
  | _ => true

def allSteps (test : SocketPage → MountStep → Bool) : SocketPage → List MountStep → Bool
  | _, [] => true
  | p, a :: rest =>
    test p a &&
      match p.step a with
      | some p => p.allSteps test rest
      | none => true

inductive Steps : SocketPage → MountStep → SocketPage → Prop
  | mount {hooks : List Hook} (now : ℤ) :
      Steps ⟨hooks, false⟩ (.mount now) ⟨(Hook.create now).mount :: hooks, true⟩
  | remount {h : Hook} {rest : List Hook} :
      Steps ⟨h :: rest, false⟩ .remount ⟨h.mount :: rest, true⟩
  | unmount {h : Hook} {rest : List Hook} :
      Steps ⟨h :: rest, true⟩ .unmount ⟨h.unmount :: rest, false⟩
  | last {h h' : Hook} {rest : List Hook} {mounted : Bool} {e : HookEvent}
      (hevent : h.step e = some h') :
      Steps ⟨h :: rest, mounted⟩ (.event 0 e) ⟨h' :: rest, mounted⟩
  | earlier {h r r' : Hook} {rest : List Hook} {mounted : Bool} {i : ℕ} {e : HookEvent}
      (hr : rest[i]? = some r) (hevent : r.step e = some r') :
      Steps ⟨h :: rest, mounted⟩ (.event (i + 1) e) ⟨h :: rest.set i r', mounted⟩

theorem step_steps {p p' : SocketPage} {a : MountStep} (hstep : p.step a = some p') :
    p.Steps a p' := by
  obtain ⟨hooks, mounted⟩ := p
  cases a with
  | mount now =>
    cases mounted with
    | true => cases hstep
    | false =>
      obtain rfl := Option.some.inj hstep
      exact .mount now
  | remount =>
    cases hooks with
    | nil => cases mounted <;> cases hstep
    | cons h rest =>
      cases mounted with
      | true => cases hstep
      | false =>
        obtain rfl := Option.some.inj hstep
        exact .remount
  | unmount =>
    cases hooks with
    | nil => cases mounted <;> cases hstep
    | cons h rest =>
      cases mounted with
      | true =>
        obtain rfl := Option.some.inj hstep
        exact .unmount
      | false => cases hstep
  | event i e =>
    simp only [SocketPage.step, Option.bind_eq_bind, Option.bind_eq_some_iff] at hstep
    obtain ⟨r, hr, r', hevent, hp'⟩ := hstep
    obtain rfl := Option.some.inj hp'
    cases hooks with
    | nil => cases hr
    | cons h rest =>
      cases i with
      | zero =>
        obtain rfl := Option.some.inj hr
        exact .last hevent
      | succ i => exact .earlier hr hevent

theorem run_cons {p p' : SocketPage} {a : MountStep} {rest : List MountStep} :
    p.run (a :: rest) = some p' ↔ ∃ p₁, p.step a = some p₁ ∧ p₁.run rest = some p' := by
  simp only [SocketPage.run, Option.bind_eq_bind, Option.bind_eq_some_iff]

/-- The last instance is busy while it is mounted, all the others are idle. -/
inductive Kept : SocketPage → Prop
  | mounted {h : Hook} {rest : List Hook} (hbusy : h.Busy) (hrest : ∀ r ∈ rest, r.Idle) :
      Kept ⟨h :: rest, true⟩
  | unmounted {hooks : List Hook} (hidle : ∀ h ∈ hooks, h.Idle) : Kept ⟨hooks, false⟩

theorem openings_idle {hooks : List Hook} (h : ∀ r ∈ hooks, r.Idle) :
    (hooks.map Hook.openings).sum = 0 := by
  induction hooks with
  | nil => rfl
  | cons r rest ih =>
    rw [List.map_cons, List.sum_cons, (h r List.mem_cons_self).openings,
      ih fun x hx => h x (List.mem_cons_of_mem _ hx)]

theorem Kept.oneSocket {p : SocketPage} (h : p.Kept) : p.OneSocket := by
  have hdead : ∀ r : Hook, r.Idle → ∀ k, r.sockets[k]? = some .open_ → r.Beats k :=
    fun r hr k hk => absurd (hr.dead k _ hk) (by decide)
  cases h with
  | @mounted h rest hbusy hrest =>
    refine ⟨?_, nofun, fun r hr k hk => ?_⟩
    · rw [List.map_cons, List.sum_cons, openings_idle hrest]
      exact hbusy.openings
    · rcases List.mem_cons.mp hr with rfl | hr
      · exact hbusy.beats k hk
      · exact hdead r (hrest r hr) k hk
  | unmounted hidle =>
    refine ⟨?_, fun _ => openings_idle hidle, fun r hr => hdead r (hidle r hr)⟩
    rw [openings_idle hidle]
    exact Nat.zero_le 1

theorem idle_set {rest : List Hook} (hrest : ∀ r ∈ rest, r.Idle) {i : ℕ} {r r' : Hook}
    (hr : rest[i]? = some r) {e : HookEvent} (hevent : r.step e = some r') :
    ∀ x ∈ rest.set i r', x.Idle := by
  intro x hx
  rcases List.mem_or_eq_of_mem_set hx with hx | rfl
  · exact hrest x hx
  · exact (hrest r (List.mem_of_getElem? hr)).step hevent

theorem Kept.step {p p' : SocketPage} (h : p.Kept) {a : MountStep} (hstep : p.step a = some p')
    (hturn : p.inTurn a = true) : p'.Kept := by
  cases step_steps hstep with
  | mount now =>
    cases h with
    | unmounted hidle => exact .mounted (Hook.create_busy now) hidle
  | remount =>
    cases h with
    | unmounted hidle =>
      obtain ⟨hlast, hrest⟩ := List.forall_mem_cons.mp hidle
      exact .mounted hlast.mount hrest
  | unmount =>
    cases h with
    | mounted hbusy hrest => exact .unmounted (List.forall_mem_cons.mpr ⟨hbusy.unmount, hrest⟩)
  | last hevent =>
    cases h with
    | mounted hbusy hrest =>
      refine .mounted (hbusy.step hevent fun k hk => ?_) hrest
      subst hk
      simpa [inTurn] using hturn
    | unmounted hidle =>
      obtain ⟨hlast, hrest⟩ := List.forall_mem_cons.mp hidle
      exact .unmounted (List.forall_mem_cons.mpr ⟨hlast.step hevent, hrest⟩)
  | earlier hr hevent =>
    cases h with
    | mounted hbusy hrest => exact .mounted hbusy (idle_set hrest hr hevent)
    | unmounted hidle =>
      obtain ⟨hlast, hrest⟩ := List.forall_mem_cons.mp hidle
      exact .unmounted (List.forall_mem_cons.mpr ⟨hlast, idle_set hrest hr hevent⟩)

theorem Kept.run {p p' : SocketPage} (h : p.Kept) {steps : List MountStep}
    (hturn : p.allSteps inTurn steps = true) (hrun : p.run steps = some p') : p'.Kept := by
  induction steps generalizing p with
  | nil =>
    obtain rfl := Option.some.inj hrun
    exact h
  | cons a rest ih =>
    obtain ⟨p₁, hstep, hrest⟩ := run_cons.mp hrun
    rw [allSteps, Bool.and_eq_true, hstep] at hturn
    exact ih (h.step hstep hturn.1) hturn.2 hrest

end SocketPage

/-- Where no close event of an earlier mount finds the component mounted again on the same refs,
there is one live socket, with its heartbeat, and none after an unmount. -/
theorem webSocket_one (steps : List MountStep) (p : SocketPage)
    (hrun : SocketPage.blank.run steps = some p)
    (hturn : SocketPage.blank.allSteps SocketPage.inTurn steps = true) : p.OneSocket :=
  (SocketPage.Kept.run (.unmounted (by simp)) hturn hrun).oneSocket

/-- The effect of `React.StrictMode` is run, cleaned up and run again, and the socket of the first
run closes after that. -/
def strictSteps : List MountStep :=
  [.mount 0, .unmount, .remount, .event 0 (.open_ 1 0), .event 0 (.close 0)]

/-- A page that is left and opened again: the first socket closes while the second one opens. -/
def reopenedSteps : List MountStep :=
  [.mount 0, .unmount, .mount 0, .event 0 (.open_ 0 0), .event 1 (.close 0)]

theorem webSocket_one_reopened :
    ∃ p, SocketPage.blank.run reopenedSteps = some p ∧ p.OneSocket := by
  obtain ⟨p, hp⟩ := Option.isSome_iff_exists.mp
    (show (SocketPage.blank.run reopenedSteps).isSome = true by decide)
  exact ⟨p, hp, webSocket_one reopenedSteps p hp (by decide)⟩

/-- The close event of the first socket schedules a third one beside the second. -/
theorem webSocket_two : ¬∀ steps p, SocketPage.blank.run steps = some p → p.OneSocket := by
  intro h
  have hcount : (SocketPage.blank.run strictSteps).map (fun p => (p.hooks.map Hook.openings).sum) =
      some 2 := by decide
  obtain ⟨p, hp, htwo⟩ := Option.map_eq_some_iff.mp hcount
  have hone := (h strictSteps p hp).one
  omega

end CriptoParser
