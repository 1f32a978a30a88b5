import CriptoParser.GatewayFeed

set_option autoImplicit false

namespace CriptoParser

open Await Streams

/-- What is being told: an entry is marked as the last one, then sent to one client after the
other. -/
inductive Telling where
  | idle
  | marked (channel : String) (data : Fields)
  | sending (channel : String) (data : Fields) (rest : List ℕ)
  deriving DecidableEq

def tellTo (channel : String) (data : Fields) : List ℕ → Telling
  | [] => .idle
  | clients => .sending channel data clients

def Telling.next : Telling → Event Feed → Telling
  | _, ⟨.setLast stream entry, _⟩ => .marked stream entry.payload
  | .marked channel data, ⟨.active, .ok clients⟩ => tellTo channel data clients
  | .sending channel data (_ :: rest), ⟨.send _ _ _, _⟩ => tellTo channel data rest
  | q, _ => q

/-- An entry that is marked goes, before anything else is done, to every client connected at
that moment, once. -/
def Telling.allows : Telling → Event Feed → Prop
  | .idle, e => e.call ≠ .active ∧ ∀ client channel data, e.call ≠ .send client channel data
  | .marked _ _, e => e.call = .active
  | .sending channel data (client :: _), e => e.call = .send client channel data
  | .sending _ _ [], _ => False

@[reducible] def telling : Monitor (Event Feed) where
  State := Telling
  next := Telling.next
  allows := Telling.allows

/-- A part of the program that tells, from `q` to `q'` unless it is cancelled. -/
def Teller {α : Type} (q q' : Telling) (p : Prog Feed α) : Prop :=
  ∀ es r, Prog.Answered FeedCall.isLocal es → p.Ends es r → telling.Accepts q es ∧
    ((∃ a, r = .ok a) ∧ telling.after q es = q' ∨ ∃ x, r = .error x ∧ x.isException = false)

theorem Teller.pure {α : Type} (q : Telling) (a : α) : Teller q q (Pure.pure a : Prog Feed α) := by
  intro es r _ h
  obtain ⟨rfl, rfl⟩ := (Prog.ends_pure _ _ _).mp h
  exact ⟨trivial, .inl ⟨⟨a, rfl⟩, rfl⟩⟩

theorem Teller.bind {α β : Type} {q q' q'' : Telling} {p : Prog Feed α} {f : α → Prog Feed β}
    (hp : Teller q q' p) (hf : ∀ a, Teller q' q'' (f a)) : Teller q q'' (p >>= f) := by
  intro es r hl h
  rw [Prog.bind_eq, Prog.ends_bind] at h
  rcases h with ⟨a, es₁, es₂, rfl, h₁, h₂⟩ | ⟨x, h₁, rfl⟩
  · obtain ⟨hl₁, hl₂⟩ := (Prog.answered_append _ _ _).mp hl
    obtain ⟨hacc, ⟨-, hafter⟩ | ⟨x, hx, -⟩⟩ := hp es₁ _ hl₁ h₁
    · obtain ⟨hacc', hend⟩ := hf a es₂ r hl₂ h₂
      rw [telling.accepts_append, telling.after_append, hafter]
      exact ⟨⟨hacc, hacc'⟩, hend⟩
    · cases hx
  · obtain ⟨hacc, ⟨⟨a, ha⟩, -⟩ | hx⟩ := hp es _ hl h₁
    · cases ha
    · obtain ⟨y, hy, hexc⟩ := hx
      obtain rfl := Except.error.inj hy
      exact ⟨hacc, .inr ⟨x, rfl, hexc⟩⟩

def told (s : String) (es : List (Event Feed)) : List (Entry Fields) :=
  es.filterMap fun e =>
    match e.call with
    | .setLast stream entry => if stream = s then some entry else none
    | _ => none

theorem told_append (s : String) (es fs : List (Event Feed)) :
    told s (es ++ fs) = told s es ++ told s fs := List.filterMap_append

/-- A part of the program that tells these entries of the stream, in their order; where it
raises, only the first of them. -/
def Tells {α : Type} (s : String) (entries : List (Entry Fields)) (p : Prog Feed α) : Prop :=
  ∀ es r, p.Ends es r → told s es <+: entries ∧ ((∃ a, r = .ok a) → told s es = entries)

theorem Tells.bind {α β : Type} {s : String} {entries more : List (Entry Fields)} {p : Prog Feed α}
    {f : α → Prog Feed β} (hp : Tells s entries p) (hf : ∀ a, Tells s more (f a)) :
    Tells s (entries ++ more) (p >>= f) := by
  intro es r h
  rw [Prog.bind_eq, Prog.ends_bind] at h
  rcases h with ⟨a, es₁, es₂, rfl, h₁, h₂⟩ | ⟨x, h₁, rfl⟩
  · have hentries := (hp es₁ _ h₁).2 ⟨a, rfl⟩
    obtain ⟨hpre, hall⟩ := hf a es₂ r h₂
    rw [told_append, hentries]
    exact ⟨(List.prefix_append_right_inj entries).mpr hpre, fun hr => by rw [hall hr]⟩
  · exact ⟨(hp es _ h₁).1.trans (List.prefix_append _ _), nofun⟩

def FeedCall.outward : FeedCall → Prop
  | .xread _ | .setLast _ _ => False
  | _ => True

def FeedCall.within : FeedCall → Prop
  | .xread _ => False
  | _ => True

theorem FeedCall.outward.within {c : FeedCall} (h : c.outward) : c.within := by
  cases c <;> simp_all [FeedCall.outward, FeedCall.within]

theorem told_outward (s : String) {es : List (Event Feed)}
    (h : ∀ e ∈ es, e.call.outward) : told s es = [] := by
  refine List.filterMap_eq_nil_iff.mpr fun e he => ?_
  have hout := h e he
  split
  · rename_i hcall
    rw [hcall] at hout
    exact hout.elim
  · rfl

theorem Tells.of_uses {α : Type} (s : String) {p : Prog Feed α}
    (h : p.Uses FeedCall.outward) : Tells s [] p := by
  intro es r hp
  rw [told_outward s (h.ends hp)]
  exact ⟨List.prefix_refl _, fun _ => rfl⟩

def answered (s : String) (resp : List (String × List (Entry Fields))) : List (Entry Fields) :=
  resp.flatMap fun r => if r.1 = s then r.2 else []

theorem appendAll_grows (entries : String → List Fields) (more : List (String × Fields))
    (s : String) : entries s <+: appendAll entries more s := List.prefix_append _ _

section Reads

end Reads

/-- What an iteration from `w` to `w'` has told of a stream: the next entries from the place of
its cursor on. -/
structure ToldNext (s : String) (w w' : FeedWorld) (entries : List (Entry Fields)) : Prop where
  ids : entries.map Entry.id = List.range' (w.arrive.place s) entries.length
  payloads : ∀ e ∈ entries, (w'.entries s)[e.id]? = some e.payload
  read : w'.read s = w.arrive.place s
  last : w'.last s =
    if entries.length = 0 then w.last s else .after (w.arrive.place s + entries.length - 1)
  grows : w.arrive.entries s <+: w'.entries s

theorem ToldNext.place {s : String} {w w' : FeedWorld} {entries : List (Entry Fields)}
    (h : ToldNext s w w' entries) :
    w.arrive.place s + entries.length ≤ w'.arrive.place s ∧
      (w'.last s ≠ .newest → w'.arrive.place s = w.arrive.place s + entries.length) := by
  have hlast := h.last
  have hlen := (h.grows.trans (appendAll_grows _ w'.now.before s)).length_le
  change (w.arrive.entries s).length ≤ (w'.arrive.entries s).length at hlen
  by_cases hnone : entries.length = 0
  · rw [if_pos hnone] at hlast
    have hsame : w'.arrive.last s = w.arrive.last s := hlast
    simp only [FeedWorld.place, hsame]
    change _ ∧ (w'.arrive.last s ≠ .newest → _)
    rw [hsame]
    cases w.arrive.last s with
    | newest => simpa [hnone] using hlen
    | after id => simp [hnone]
  · rw [if_neg hnone] at hlast
    have hplace : w'.arrive.place s = w.arrive.place s + entries.length := by
      have hafter : w'.arrive.last s = .after (w.arrive.place s + entries.length - 1) := hlast
      rw [FeedWorld.place, hafter]
      simp only
      omega
    exact ⟨hplace.ge, fun _ => hplace⟩

section Loop
variable {s : String} (hs : s ∈ feedStreams)
include hs

end Loop

end CriptoParser
