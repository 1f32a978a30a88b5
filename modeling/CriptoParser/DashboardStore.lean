import Mathlib.Data.Finset.Card
import Mathlib.Data.List.Nodup
import Mathlib.Tactic.Common

/-!
The lists of the dashboard: an event puts its item in front of a list of at most 50, a load
replaces the list. An item leaves when 50 others stand before it, or with a load that does not
have it.
-/

set_option autoImplicit false

namespace CriptoParser

section
variable {α : Type} (key : α → String)

/-- `xs.some((x) => x.id === item.id) ? xs : [item, ...xs].slice(0, 50)`. -/
def addRecent (item : α) (l : List α) : List α :=
  if l.any fun x => key x = key item then l else (item :: l).take 50

abbrev LoadedItems := { l : List α // (l.map key).Nodup ∧ l.length ≤ 50 }

inductive ListStep where
  | add (item : α)
  | load (answer : LoadedItems key)

def ListStep.apply (l : List α) : ListStep key → List α
  | .add item => addRecent key item l
  | .load answer => answer.val

def runList (l : List α) (steps : List (ListStep key)) : List α :=
  steps.foldl (ListStep.apply key) l

def receivedIds (steps : List (ListStep key)) : List String :=
  steps.filterMap fun s => match s with
    | .add item => some (key item)
    | .load _ => none

def Unloaded (steps : List (ListStep key)) : Prop := ∀ answer, .load answer ∉ steps

end

section
variable {α : Type} {key : α → String}

structure RecentList (key : α → String) (l : List α) : Prop where
  unique : (l.map key).Nodup
  bounded : l.length ≤ 50

theorem any_key {l : List α} {item : α} :
    (l.any fun x => key x = key item) = true ↔ key item ∈ l.map key := by
  simp [List.any_eq_true, List.mem_map]

theorem RecentList.add {l : List α} (h : RecentList key l) (item : α) :
    RecentList key (addRecent key item l) := by
  unfold addRecent
  split
  · exact h
  · rename_i hnew
    have hnew : key item ∉ l.map key := fun hmem => hnew (any_key.mpr hmem)
    refine ⟨?_, List.length_take_le 50 _⟩
    rw [List.map_take]
    exact (List.nodup_cons.mpr ⟨hnew, h.unique⟩).sublist (List.take_sublist _ _)

theorem RecentList.run {l : List α} (h : RecentList key l) (steps : List (ListStep key)) :
    RecentList key (runList key l steps) := by
  induction steps generalizing l with
  | nil => exact h
  | cons s rest ih =>
    cases s with
    | add item => exact ih (h.add item)
    | load answer => exact ih ⟨answer.property.1, answer.property.2⟩

theorem lost_after {steps : List (ListStep key)} (hload : Unloaded key steps) {front back : List α}
    {x : α} (h : RecentList key (front ++ x :: back))
    (hlost : key x ∉ (runList key (front ++ x :: back) steps).map key) :
    50 ≤ ((front.map key ++ receivedIds key steps).toFinset.erase (key x)).card := by
  induction steps generalizing front back with
  | nil => exact absurd (by simp [runList]) hlost
  | cons s rest ih =>
    cases s with
    | load answer => exact absurd List.mem_cons_self (hload answer)
    | add item =>
      have hrest : Unloaded key rest := fun answer hmem =>
        hload answer (List.mem_cons_of_mem _ hmem)
      have hids : receivedIds key (.add item :: rest) = key item :: receivedIds key rest := rfl
      rw [runList, List.foldl_cons, ListStep.apply] at hlost
      rw [hids]
      by_cases hold : key item ∈ (front ++ x :: back).map key
      · -- a repeated item changes nothing
        rw [addRecent, if_pos (any_key.mpr hold)] at hlost
        refine (ih hrest h hlost).trans (Finset.card_le_card (Finset.erase_subset_erase _ ?_))
        intro id hid
        simp only [List.mem_toFinset, List.mem_append, List.mem_cons] at hid ⊢
        tauto
      · have hadd := h.add item
        rw [addRecent, if_neg (mt any_key.mp hold)] at hlost hadd
        by_cases hroom : front.length + 1 < 50
        · -- the item moves one place down
          obtain ⟨k, hk⟩ : ∃ k, 50 = (item :: front).length + (k + 1) :=
            ⟨50 - (front.length + 2), by rw [List.length_cons]; omega⟩
          have hmove : (item :: (front ++ x :: back)).take 50 =
              (item :: front) ++ x :: back.take k := by
            rw [← List.cons_append, hk, List.take_length_add_append, List.take_succ_cons]
          rw [hmove] at hlost hadd
          have hrec := ih hrest hadd hlost
          have hsame : ((item :: front).map key ++ receivedIds key rest).toFinset =
              (front.map key ++ key item :: receivedIds key rest).toFinset := by
            ext id
            simp only [List.mem_toFinset, List.map_cons, List.cons_append, List.mem_cons,
              List.mem_append]
            tauto
          rwa [hsame] at hrec
        · -- the items before it and the new one are 50
          have hnodup : ((item :: front).map key).Nodup := by
            refine List.nodup_cons.mpr ⟨fun hmem => hold ?_, ?_⟩
            · rw [List.map_append]
              exact List.mem_append_left _ hmem
            · have hunique := h.unique
              rw [List.map_append] at hunique
              exact (List.nodup_append.mp hunique).1
          have hcard : ((item :: front).map key).toFinset.card = front.length + 1 := by
            rw [List.toFinset_card_of_nodup hnodup, List.length_map, List.length_cons]
          have hother : key x ∉ (item :: front).map key := by
            have hunique := h.unique
            rw [List.map_append, List.map_cons] at hunique hold
            rw [List.map_cons, List.mem_cons, not_or]
            refine ⟨fun heq => hold ?_, fun hmem => ?_⟩
            · rw [← heq]
              exact List.mem_append_right _ List.mem_cons_self
            · exact (List.nodup_append.mp hunique).2.2 _ hmem _ List.mem_cons_self rfl
          have hsub : ((item :: front).map key).toFinset ⊆
              (front.map key ++ key item :: receivedIds key rest).toFinset.erase (key x) := by
            refine Finset.subset_erase.mpr ⟨?_, fun hmem => hother (List.mem_toFinset.mp hmem)⟩
            intro id hid
            simp only [List.mem_toFinset, List.map_cons, List.mem_append, List.mem_cons] at hid ⊢
            tauto
          have hle := Finset.card_le_card hsub
          omega

structure KeptRecent (key : α → String) (steps : List (ListStep key)) : Prop where
  recent : RecentList key (runList key [] steps)
  /-- An item an event has put into the list leaves for 50 newer others or by a load. -/
  received : ∀ before x after, steps = before ++ .add x :: after →
    key x ∉ (runList key [] before).map key → key x ∉ (runList key [] steps).map key →
    (∃ answer, .load answer ∈ after) ∨
      50 ≤ ((receivedIds key after).toFinset.erase (key x)).card
  /-- The last load has replaced the list; its items leave for 50 others that are newer or were
  before them. -/
  loaded : ∀ before (answer : LoadedItems key) after, steps = before ++ .load answer :: after →
    Unloaded key after → ∀ front x back, answer.val = front ++ x :: back →
    key x ∉ (runList key [] steps).map key →
    50 ≤ ((front.map key ++ receivedIds key after).toFinset.erase (key x)).card

theorem keptRecent (steps : List (ListStep key)) : KeptRecent key steps := by
  have hempty : RecentList key ([] : List α) := ⟨List.nodup_nil, Nat.zero_le _⟩
  refine ⟨hempty.run steps, fun before x after hsteps hnew hlost => ?_,
    fun before answer after hsteps hload front x back hanswer hlost => ?_⟩
  · rw [or_iff_not_imp_left, not_exists]
    intro hload
    subst hsteps
    have hprior := hempty.run before
    rw [runList, List.foldl_append, List.foldl_cons, ListStep.apply] at hlost
    change key x ∉ (runList key (addRecent key x (runList key [] before)) after).map key at hlost
    have hadd := hprior.add x
    rw [addRecent, if_neg (mt any_key.mp hnew), List.take_succ_cons] at hlost hadd
    have hcount := @lost_after _ _ _ hload [] _ _ hadd hlost
    rwa [List.map_nil, List.nil_append] at hcount
  · subst hsteps
    rw [runList, List.foldl_append, List.foldl_cons, ListStep.apply] at hlost
    change key x ∉ (runList key answer.val after).map key at hlost
    have hrecent : RecentList key answer.val := ⟨answer.property.1, answer.property.2⟩
    rw [hanswer] at hlost hrecent
    exact lost_after hload hrecent hlost

end

/-- The lists of `useDashboardStore`, of any items with ids. -/
structure DashboardStore (O T : Type) where
  opportunities : List O
  trades : List T

section
variable {O T : Type} (oppId : O → String) (tradeId : T → String)

inductive DashboardStep where
  | addOpportunity (o : O)
  | setOpportunities (items : LoadedItems oppId)
  | addTrade (t : T)
  | setTrades (items : LoadedItems tradeId)

namespace DashboardStore

def step (s : DashboardStore O T) : DashboardStep oppId tradeId → DashboardStore O T
  | .addOpportunity o => { s with opportunities := addRecent oppId o s.opportunities }
  | .setOpportunities items => { s with opportunities := items.val }
  | .addTrade t => { s with trades := addRecent tradeId t s.trades }
  | .setTrades items => { s with trades := items.val }

def run (s : DashboardStore O T) (steps : List (DashboardStep oppId tradeId)) :
    DashboardStore O T :=
  steps.foldl (step oppId tradeId) s

end DashboardStore

def opportunitySteps (steps : List (DashboardStep oppId tradeId)) : List (ListStep oppId) :=
  steps.filterMap fun s => match s with
    | .addOpportunity o => some (.add o)
    | .setOpportunities items => some (.load items)
    | _ => none

def tradeSteps (steps : List (DashboardStep oppId tradeId)) : List (ListStep tradeId) :=
  steps.filterMap fun s => match s with
    | .addTrade t => some (.add t)
    | .setTrades items => some (.load items)
    | _ => none

theorem run_lists (s : DashboardStore O T) (steps : List (DashboardStep oppId tradeId)) :
    (s.run oppId tradeId steps).opportunities =
        runList oppId s.opportunities (opportunitySteps oppId tradeId steps) ∧
      (s.run oppId tradeId steps).trades =
        runList tradeId s.trades (tradeSteps oppId tradeId steps) := by
  induction steps generalizing s with
  | nil => exact ⟨rfl, rfl⟩
  | cons a rest ih =>
    have hrest := ih (s.step oppId tradeId a)
    cases a <;> exact hrest

/-- In any interleaving the ids of each list are unique, it has at most 50 items, and an item
leaves for 50 others or by a load. -/
theorem dashboard_kept (steps : List (DashboardStep oppId tradeId)) :
    ((DashboardStore.run oppId tradeId ⟨[], []⟩ steps).opportunities =
        runList oppId [] (opportunitySteps oppId tradeId steps) ∧
      KeptRecent oppId (opportunitySteps oppId tradeId steps)) ∧
    (DashboardStore.run oppId tradeId ⟨[], []⟩ steps).trades =
        runList tradeId [] (tradeSteps oppId tradeId steps) ∧
      KeptRecent tradeId (tradeSteps oppId tradeId steps) := by
  obtain ⟨hopportunities, htrades⟩ := run_lists oppId tradeId ⟨[], []⟩ steps
  exact ⟨⟨hopportunities, keptRecent _⟩, htrades, keptRecent _⟩

/-- No received item is lost but for 50 newer ones. -/
structure LosesNothing (steps : List (DashboardStep oppId tradeId)) : Prop where
  opportunities : RecentList oppId
    (DashboardStore.run oppId tradeId ⟨[], []⟩ steps).opportunities
  trades : RecentList tradeId (DashboardStore.run oppId tradeId ⟨[], []⟩ steps).trades
  received : ∀ before o after, steps = before ++ .addOpportunity o :: after →
    oppId o ∉ (DashboardStore.run oppId tradeId ⟨[], []⟩ before).opportunities.map oppId →
    oppId o ∉ (DashboardStore.run oppId tradeId ⟨[], []⟩ steps).opportunities.map oppId →
    50 ≤ (receivedIds oppId (opportunitySteps oppId tradeId after)).toFinset.card

end

/-- A load that was answered before the opportunity arose takes it away. -/
theorem dashboard_lost :
    ¬LosesNothing (id : String → String) (id : String → String)
      [.addOpportunity "a", .setOpportunities ⟨[], by decide⟩] := by
  intro h
  have hlost := h.received [] "a" [.setOpportunities ⟨[], by decide⟩] rfl (by decide) (by decide)
  revert hlost
  decide

end CriptoParser
