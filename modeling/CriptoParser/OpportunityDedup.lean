import CriptoParser.ScannerPasses

set_option autoImplicit false

namespace CriptoParser

open Await Streams Expiry

theorem exchange_letters {name : String} (h : (exchangeConfig name).isSome) :
    ∀ c ∈ name.toList, c.isLower = true := by
  have hall : ∀ kv ∈ exchanges, kv.1.toList.all Char.isLower = true := by decide
  obtain ⟨cfg, hcfg⟩ := Option.isSome_iff_exists.mp h
  exact List.all_eq_true.mp (hall (name, cfg) (exchangeConfig_mem hcfg))

theorem exchange_noColon {name : String} (h : (exchangeConfig name).isSome) :
    ':' ∉ name.toList :=
  fun hmem => absurd (exchange_letters h ':' hmem) (by decide)

theorem append_separator_inj {α : Type} {sep : α} {a b x y : List α} (hx : sep ∉ x)
    (hy : sep ∉ y) (h : a ++ sep :: x = b ++ sep :: y) : a = b ∧ x = y := by
  rcases List.append_eq_append_iff.mp h with ⟨c, hb, hc⟩ | ⟨c, ha, hc⟩
  · cases c with
    | nil =>
      simp only [List.nil_append, List.cons.injEq, true_and] at hc
      exact ⟨by simp [hb], hc⟩
    | cons d c =>
      obtain ⟨-, hx'⟩ := List.cons.inj hc
      exact absurd (by simp [hx']) hx
  · cases c with
    | nil =>
      simp only [List.nil_append, List.cons.injEq, true_and] at hc
      exact ⟨by simp [ha], hc.symm⟩
    | cons d c =>
      obtain ⟨-, hy'⟩ := List.cons.inj hc
      exact absurd (by simp [hy']) hy

theorem separator_append_inj {α : Type} {sep : α} {a b x y : List α} (ha : sep ∉ a)
    (hb : sep ∉ b) (h : a ++ sep :: x = b ++ sep :: y) : a = b ∧ x = y := by
  have hrev : x.reverse ++ sep :: a.reverse = y.reverse ++ sep :: b.reverse := by
    simpa using congrArg List.reverse h
  obtain ⟨hx, ha⟩ := append_separator_inj (by simpa using ha) (by simpa using hb) hrev
  exact ⟨List.reverse_injective ha, List.reverse_injective hx⟩

theorem append_colon_inj {a b x y : String} (hx : ':' ∉ x.toList) (hy : ':' ∉ y.toList)
    (h : a ++ ":" ++ x = b ++ ":" ++ y) : a = b ∧ x = y := by
  have hl : a.toList ++ ':' :: x.toList = b.toList ++ ':' :: y.toList := by
    simpa using congrArg String.toList h
  obtain ⟨hab, hxy⟩ := append_separator_inj hx hy hl
  exact ⟨String.toList_injective hab, String.toList_injective hxy⟩

theorem dedupKey_inj {a b : Opportunity} (ha : a.Configured) (hb : b.Configured) :
    dedupKey a = dedupKey b ↔ a.SameRoute b := by
  constructor
  · intro h
    obtain ⟨h₁, hsell⟩ := append_colon_inj (exchange_noColon ha.2) (exchange_noColon hb.2) h
    obtain ⟨h₂, hbuy⟩ := append_colon_inj (exchange_noColon ha.1) (exchange_noColon hb.1) h₁
    have hsymbol : a.symbol = b.symbol := by simpa using h₂
    exact ⟨hsymbol, Prod.ext hbuy hsell⟩
  · intro h
    obtain ⟨hsymbol, hex⟩ := h
    obtain ⟨hbuy, hsell⟩ := Prod.mk.inj hex
    rw [dedupKey, dedupKey, hsymbol, hbuy, hsell]

def claimedKeys (granted : List (ℚ × Opportunity)) : List (ℚ × String) :=
  granted.map fun p => (p.1, dedupKey p.2)

def Apart (ttl : ℚ) (a b : ℚ × Opportunity) : Prop :=
  dedupKey a.2 = dedupKey b.2 → a.1 + ttl ≤ b.1

theorem serve_expiring {c : Call} {w : World}
    (h : ∀ key t, c = .setNxEx key t → carriedOut ⟨c, (World.serve c w).1⟩ = false) :
    (World.serve c w).2.expiring = w.expiring := by
  rw [serve_snd]
  cases c with
  | setNxEx key t =>
    rw [h key t rfl]
    rfl
  | _ => split <;> rfl

theorem serve_claims {w : World} {key : String} {t : ℚ}
    (h : carriedOut ⟨.setNxEx key t, (World.serve (.setNxEx key t) w).1⟩ = true) :
    (World.serve (.setNxEx key t) w).2.expiring = (claim w.expiring key w.now.clock t).2 := by
  rw [serve_snd, h]
  rfl

theorem serve_clock {w : World} (hclock : Monotone fun k => (w.outside k).clock) (c : Call) :
    w.now.clock ≤ (World.serve c w).2.now.clock := by
  rw [World.now, World.now, serve_outside, serve_tick]
  exact hclock (Nat.le_succ _)

/-- A check was refused because of one that was passed less than `ttl` before it. -/
def Explained (ttl : ℚ) (granted : List (ℚ × Opportunity)) (h : List (ℚ × ScanMark)) : Prop :=
  ∀ before t opp later, h = before ++ (t, .checked opp false) :: later →
    ∃ p ∈ granted ++ passes before, dedupKey p.2 = dedupKey opp ∧ t < p.1 + ttl

theorem Explained.cons {ttl : ℚ} {granted : List (ℚ × Opportunity)} {m : ℚ × ScanMark}
    {h : List (ℚ × ScanMark)} (hrest : Explained ttl (granted ++ passes [m]) h)
    (hm : ∀ t opp, m = (t, .checked opp false) →
      ∃ p ∈ granted, dedupKey p.2 = dedupKey opp ∧ t < p.1 + ttl) :
    Explained ttl granted (m :: h) := by
  intro before t opp later heq
  cases before with
  | nil =>
    obtain ⟨rfl, -⟩ := List.cons.inj heq
    obtain ⟨p, hp, hkey⟩ := hm t opp rfl
    exact ⟨p, List.mem_append_left _ hp, hkey⟩
  | cons m' before =>
    obtain ⟨rfl, htail⟩ := List.cons.inj heq
    obtain ⟨p, hp, hkey⟩ := hrest before t opp later htail
    have happend : passes (m :: before) = passes [m] ++ passes before := passes_append [m] before
    rw [List.append_assoc, ← happend] at hp
    exact ⟨p, hp, hkey⟩

theorem markOf_checked {asked : Option Opportunity} {w : World} {e : Event Service}
    {opp : Opportunity} {created : Bool} (h : markOf asked w e = some (.checked opp created)) :
    asked = some opp ∧ carriedOut e = true ∧ ∃ key t, e.call = .setNxEx key t ∧
      created = !held w.expiring key w.now.clock := by
  unfold markOf at h
  split at h
  · rename_i hdone
    split at h
    · rename_i key t opp' hcall
      cases h
      exact ⟨rfl, hdone, key, t, hcall, rfl⟩
    · split at h <;> cases h
    · cases h
    · cases h
  · cases h

theorem markOf_claim {opp : Opportunity} {w : World} {e : Event Service} {key : String} {t : ℚ}
    (hcall : e.call = .setNxEx key t) (hdone : carriedOut e = true) :
    markOf (some opp) w e = some (.checked opp (!held w.expiring key w.now.clock)) := by
  obtain ⟨c, a⟩ := e
  cases hcall
  simp [markOf, hdone]

section Claims
variable {ttl : ℚ} {asked : Option Opportunity} {w : World} {e : Event Service}

theorem serve_unchecked (hr : e.reply = (World.serve e.call w).1)
    (hkey : (keyed ttl).allows asked e)
    (hno : ∀ opp created, markOf asked w e ≠ some (.checked opp created)) :
    (World.serve e.call w).2.expiring = w.expiring := by
  refine serve_expiring fun key t hcall => ?_
  rw [← hr]
  by_contra hdone
  obtain ⟨opp, rfl, -⟩ := keyed_claim hkey hcall
  exact hno _ _ (markOf_claim hcall (by simpa using hdone))

theorem serve_checked {opp : Opportunity} {created : Bool}
    (hr : e.reply = (World.serve e.call w).1) (hkey : (keyed ttl).allows asked e)
    (hm : markOf asked w e = some (.checked opp created)) :
    (World.serve e.call w).2.expiring = (claim w.expiring (dedupKey opp) w.now.clock ttl).2 ∧
      created = !held w.expiring (dedupKey opp) w.now.clock := by
  obtain ⟨rfl, hdone, key, t, hcall, rfl⟩ := markOf_checked hm
  obtain ⟨opp', hopp, rfl, rfl⟩ := keyed_claim hkey hcall
  cases hopp
  obtain ⟨c, a⟩ := e
  subst hcall
  have hreply : a = (World.serve (.setNxEx (dedupKey opp) t) w).1 := hr
  subst hreply
  exact ⟨serve_claims hdone, rfl⟩

theorem mark_claims {granted : List (ℚ × Opportunity)} {m : ScanMark}
    (hclock : Monotone fun k => (w.outside k).clock) (hr : e.reply = (World.serve e.call w).1)
    (hkey : (keyed ttl).allows asked e) (hm : markOf asked w e = some m)
    (ht : Tracks ttl (claimedKeys granted) w.expiring w.now.clock)
    (hapart : granted.Pairwise (Apart ttl)) :
    Tracks ttl (claimedKeys (granted ++ passes [(w.now.clock, m)]))
        (World.serve e.call w).2.expiring (World.serve e.call w).2.now.clock ∧
      (granted ++ passes [(w.now.clock, m)]).Pairwise (Apart ttl) ∧
      ∀ t opp, (w.now.clock, m) = (t, .checked opp false) →
        ∃ p ∈ granted, dedupKey p.2 = dedupKey opp ∧ t < p.1 + ttl := by
  have hlater := serve_clock hclock e.call
  cases m with
  | checked opp created =>
    obtain ⟨hexp, rfl⟩ := serve_checked hr hkey hm
    rw [hexp]
    cases hheld : held w.expiring (dedupKey opp) w.now.clock with
    | true =>
      rw [claim_held hheld]
      have hpass : passes [(w.now.clock, .checked opp (!true))] = [] := rfl
      rw [hpass, List.append_nil]
      refine ⟨ht.later hlater, hapart, fun t' opp' heq => ?_⟩
      cases heq
      obtain ⟨q, hq, hqk, hlt⟩ := ht.refused hheld
      obtain ⟨p, hp, rfl⟩ := List.mem_map.mp hq
      exact ⟨p, hp, hqk, hlt⟩
    | false =>
      rw [claim_free hheld]
      have hpass : passes [(w.now.clock, .checked opp (!false))] = [(w.now.clock, opp)] := rfl
      rw [hpass]
      refine ⟨?_, ?_, fun t' opp' heq => (by cases heq)⟩
      · rw [claimedKeys, List.map_append]
        exact ht.grant.later hlater
      · refine List.pairwise_append.mpr ⟨hapart, List.pairwise_singleton _ _, ?_⟩
        intro p hp q hq hsamekey
        obtain rfl := List.mem_singleton.mp hq
        exact ht.granted_apart hheld _ (List.mem_map_of_mem hp) hsamekey
  | published fields =>
    have hpass : passes [(w.now.clock, .published fields)] = [] := rfl
    rw [hpass, List.append_nil, serve_unchecked hr hkey (by simp [hm])]
    exact ⟨ht.later hlater, hapart, fun t opp heq => (by cases heq)⟩
  | stored rows =>
    have hpass : passes [(w.now.clock, .stored rows)] = [] := rfl
    rw [hpass, List.append_nil, serve_unchecked hr hkey (by simp [hm])]
    exact ⟨ht.later hlater, hapart, fun t opp heq => (by cases heq)⟩

end Claims

theorem history_claims {ttl : ℚ} {asked : Option Opportunity} {w w' : World}
    {es : List (Event Service)} {granted : List (ℚ × Opportunity)}
    (hclock : Monotone fun k => (w.outside k).clock) (hf : Follows World.serve w es w')
    (hkeyed : (keyed ttl).Accepts asked es)
    (ht : Tracks ttl (claimedKeys granted) w.expiring w.now.clock)
    (hapart : granted.Pairwise (Apart ttl)) :
    Tracks ttl (claimedKeys (granted ++ passes (history asked w es))) w'.expiring w'.now.clock ∧
      (granted ++ passes (history asked w es)).Pairwise (Apart ttl) ∧
      Explained ttl granted (history asked w es) := by
  induction es generalizing asked w granted with
  | nil =>
    cases hf
    simp only [history, passes, List.filterMap_nil, List.append_nil]
    exact ⟨ht, hapart, fun before t opp later h => by simp at h⟩
  | cons e es ih =>
    obtain ⟨hr, hf⟩ := hf
    obtain ⟨hkey, hkeyed⟩ := hkeyed
    have hclock' : Monotone fun k => ((World.serve e.call w).2.outside k).clock := by
      rw [serve_outside]
      exact hclock
    cases hm : markOf asked w e with
    | none =>
      simp only [history, hm, Option.toList_none, List.map_nil, List.nil_append]
      refine ih hclock' hf hkeyed ?_ hapart
      rw [serve_unchecked hr hkey (by simp [hm])]
      exact ht.later (serve_clock hclock e.call)
    | some m =>
      obtain ⟨ht', hapart', hrefused⟩ := mark_claims hclock hr hkey hm ht hapart
      obtain ⟨htend, hapartend, hexplained⟩ := ih hclock' hf hkeyed ht' hapart'
      have hcons : history asked w (e :: es) = [(w.now.clock, m)] ++
          history (nextAsked asked e.call) (World.serve e.call w).2 es := by
        rw [history, hm]
        rfl
      rw [hcons, passes_append, ← List.append_assoc]
      exact ⟨htend, hapartend, hexplained.cons hrefused⟩

theorem Explained.before {ttl : ℚ} {granted : List (ℚ × Opportunity)} {h h' : List (ℚ × ScanMark)}
    (he : Explained ttl granted (h ++ h')) : Explained ttl granted h := by
  intro before t opp later heq
  exact he before t opp (later ++ h') (by simp [heq])

theorem mem_passes {h : List (ℚ × ScanMark)} {p : ℚ × Opportunity} (hp : p ∈ passes h) :
    (p.1, .checked p.2 true) ∈ h := by
  obtain ⟨⟨s, mark⟩, hmem, hmark⟩ := List.mem_filterMap.mp hp
  cases mark with
  | checked opp created =>
    cases created with
    | true =>
      cases hmark
      exact hmem
    | false => cases hmark
  | published f => cases hmark
  | stored rows => cases hmark

theorem append_eq_append_cons {α : Type} {h b before later : List α} {m : α}
    (heq : h ++ b = before ++ m :: later) :
    (∃ rest, h = before ++ m :: rest) ∨ ∃ c, before = h ++ c ∧ b = c ++ m :: later := by
  rcases List.append_eq_append_iff.mp heq with ⟨c, hc, hb⟩ | ⟨c, hc, hl⟩
  · exact .inr ⟨c, hc, hb⟩
  · cases c with
    | nil => exact .inr ⟨[], by simpa using hc.symm, by simpa using hl.symm⟩
    | cons d c =>
      obtain ⟨rfl, -⟩ := List.cons.inj hl
      exact .inl ⟨c, hc⟩

section
variable [PyText]

inductive ScanBlocks : List (ℚ × ScanMark) → Prop
  | nil : ScanBlocks []
  | snoc {h b checks ends : List (ℚ × ScanMark)} {opps found : List Opportunity}
      (hblocks : ScanBlocks h) (hb : ScanBlock b checks ends opps found) : ScanBlocks (h ++ b)

theorem ScanBlocks.append {h h' : List (ℚ × ScanMark)} (hb : ScanBlocks h)
    (hb' : ScanBlocks h') : ScanBlocks (h ++ h') := by
  induction hb' with
  | nil => simpa using hb
  | snoc hblocks hb ih =>
    rw [← List.append_assoc]
    exact ih.snoc hb

theorem ScanBlock.passes_eq {h checks ends : List (ℚ × ScanMark)} {opps found : List Opportunity}
    (hb : ScanBlock h checks ends opps found) : passes h = passes checks := by
  have hends : passes ends = [] := by
    refine List.filterMap_eq_nil_iff.mpr fun m hm => ?_
    have hno := hb.publishes.unchecked m hm
    split
    · rename_i opp heq
      exact absurd heq (hno opp true)
    · rfl
  rw [hb.split, passes_append, hends, List.append_nil]

theorem ScanBlock.publications_eq {h checks ends : List (ℚ × ScanMark)}
    {opps found : List Opportunity} (hb : ScanBlock h checks ends opps found) :
    publications h = (passes h).map fun p => p.2.toRedis := by
  have hfound : (passes h).map Prod.snd = found := by rw [hb.passes_eq, hb.checked.passes_eq]
  have hmap : ((passes h).map fun p => p.2.toRedis) = found.map Opportunity.toRedis := by
    rw [← hfound, List.map_map]
    rfl
  rw [hmap, hb.split, publications_append, hb.checked.publications_eq, hb.publishes.entries]
  rfl

/-- A check of an iteration: its opportunity is configured, and the earlier checks were of
other routes. -/
theorem ScanBlock.check {h checks ends before later : List (ℚ × ScanMark)}
    {opps found : List Opportunity} {t : ℚ} {opp : Opportunity} {created : Bool}
    (hb : ScanBlock h checks ends opps found) (heq : h = before ++ (t, .checked opp created) :: later) :
    opp.Configured ∧ ∀ p ∈ passes before, p.2.Configured ∧ ¬p.2.SameRoute opp := by
  have hchecks : ∃ rest, checks = before ++ (t, .checked opp created) :: rest := by
    rcases append_eq_append_cons (hb.split.symm.trans heq) with hchecks | ⟨c, -, hends⟩
    · exact hchecks
    · refine absurd rfl (hb.publishes.unchecked (t, .checked opp created) ?_ opp created)
      rw [hends]
      simp
  obtain ⟨rest, hchecks⟩ := hchecks
  obtain ⟨opps₁, opps₂, hopps, hmem⟩ := hb.checked.split hchecks
  have hroutes := hb.routes
  rw [hopps] at hroutes
  have hconfigured := hb.configured
  rw [hopps] at hconfigured
  refine ⟨hconfigured opp (by simp), fun p hp => ⟨hconfigured _ ?_, ?_⟩⟩
  · exact List.mem_append_left _ (hmem p hp)
  · exact (List.pairwise_append.mp hroutes).2.2 _ (hmem p hp) _ List.mem_cons_self

def AllConfigured (h : List (ℚ × ScanMark)) : Prop :=
  ∀ t opp created, (t, .checked opp created) ∈ h → opp.Configured

def Announced (h : List (ℚ × ScanMark)) : Prop :=
  ∀ p ∈ passes h, ∃ s, p.1 ≤ s ∧ (s, .published p.2.toRedis) ∈ h

/-- Every refusal follows a publication of the same route less than `ttl` before it. -/
def Precise (ttl : ℚ) (h : List (ℚ × ScanMark)) : Prop :=
  ∀ before t opp later, h = before ++ (t, .checked opp false) :: later →
    ∃ s twin, (s, .published (Opportunity.toRedis twin)) ∈ before ∧ twin.SameRoute opp ∧
      s ≤ t ∧ t < s + ttl

theorem Announced.append {h h' : List (ℚ × ScanMark)} (ha : Announced h) (ha' : Announced h') :
    Announced (h ++ h') := by
  intro p hp
  rw [passes_append] at hp
  rcases List.mem_append.mp hp with hp | hp
  · obtain ⟨s, hle, hs⟩ := ha p hp
    exact ⟨s, hle, List.mem_append_left _ hs⟩
  · obtain ⟨s, hle, hs⟩ := ha' p hp
    exact ⟨s, hle, List.mem_append_right _ hs⟩

theorem Precise.snoc {ttl : ℚ} {h b checks ends : List (ℚ × ScanMark)}
    {opps found : List Opportunity} (hprecise : Precise ttl h) (hannounced : Announced h)
    (hconfigured : AllConfigured h) (hb : ScanBlock b checks ends opps found)
    (hsorted : (h ++ b).Pairwise fun a b => a.1 ≤ b.1) (hexplained : Explained ttl [] (h ++ b)) :
    Precise ttl (h ++ b) := by
  intro before t opp later heq
  rcases append_eq_append_cons heq with ⟨rest, hh⟩ | ⟨c, rfl, hc⟩
  · exact hprecise before t opp rest hh
  · obtain ⟨hopp, hearlier⟩ := hb.check hc
    obtain ⟨p, hp, hkey, hlt⟩ := hexplained _ _ _ _ heq
    rw [List.nil_append, passes_append] at hp
    rcases List.mem_append.mp hp with hp | hp
    · -- let through in an earlier iteration, and published at its end
      obtain ⟨s, hle, hs⟩ := hannounced p hp
      have hroute := (dedupKey_inj (hconfigured _ _ _ (mem_passes hp)) hopp).mp hkey
      have hst : s ≤ t := (List.pairwise_append.mp hsorted).2.2 _ hs (t, .checked opp false)
        (by rw [hc]; simp)
      refine ⟨s, p.2, List.mem_append_left _ hs, hroute, hst, ?_⟩
      exact hlt.trans_le (add_le_add_left hle ttl)
    · obtain ⟨hp2, hother⟩ := hearlier p hp
      exact absurd ((dedupKey_inj hp2 hopp).mp hkey) hother

namespace ScanBlocks
variable {h : List (ℚ × ScanMark)}

theorem publications_eq (hb : ScanBlocks h) :
    publications h = (passes h).map fun p => p.2.toRedis := by
  induction hb with
  | nil => rfl
  | snoc hblocks hb ih =>
    rw [publications_append, passes_append, List.map_append, ih, hb.publications_eq]

end ScanBlocks

end

@[reducible] def quoteText : PyText :=
  .ofTables [("99.0", 99), ("100.0", 100), ("102.0", 102), ("103.0", 103), ("2.0", 2),
    ("0.1", 1 / 10), ("0.0", 0), ("1.8", 18 / 10)] []

def tick (exchange bid ask : String) : String × Fields :=
  (pricesStream, [("exchange", exchange), ("symbol", "BTC/USDT"), ("bid", bid), ("ask", ask)])

/-- Ticks of two exchanges arrive before each of two iterations, a second and a half apart. -/
def scanOutside (n : ℕ) : Outside :=
  { (default : Outside) with
    clock := n / 10
    scanSettings := (3 / 10, 1000)
    arrivals :=
      if n = 0 ∨ n = 14 then [tick "kucoin" "99.0" "100.0", tick "binance" "102.0" "103.0"]
      else [] }

def scanWorld : World := World.start scanOutside

end CriptoParser
