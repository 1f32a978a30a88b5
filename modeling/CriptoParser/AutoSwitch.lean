import CriptoParser.ExecutorForecast
import CriptoParser.ExecutorLoop

/-!
The automatic kill switch: a call that finds no exchange above the threshold sets the key
in Redis. The flag in memory stays as it is until the next iteration; what keeps the rest
of the batch from trading is that the balances stay below the threshold.
-/

set_option autoImplicit false

namespace CriptoParser

open Await Streams

/-- `executor:kill_switch` becomes `"1"`, whether or not the await raises after that. -/
def setsSwitch (e : Event Service) : Prop :=
  e.call = .set killSwitchKey "1" ∧ carriedOut e = true

def World.Broke (w : World) (threshold : ℚ) : Prop :=
  ∀ ex ∈ balanceExchanges, w.balanceOf ex ≤ threshold

theorem World.Broke.hashes {w w' : World} {threshold : ℚ} (h : w.Broke threshold)
    (heq : w'.hashes = w.hashes) : w'.Broke threshold := by
  intro ex hex
  have hle := h ex hex
  unfold World.balanceOf at hle ⊢
  rwa [heq]

theorem getBalance_follows {exchange : String} {es : List (Event Service)} {r : Except PyExc ℚ}
    {w w' : World} (h : (getBalance exchange).Ends es r) (hf : Follows World.serve w es w') :
    (∃ a, es = [⟨.hget (balanceKey exchange) "USDT", a⟩]) ∧ w'.hashes = w.hashes ∧
      ∀ b, r = .ok b → b = w.balanceOf exchange := by
  rcases (Prog.ends_call_bind _ _ _ _).mp h with ⟨v, es', rfl, hp⟩ | ⟨x, rfl, rfl⟩
  · obtain ⟨rfl, rfl⟩ := (Prog.ends_pure _ _ _).mp hp
    refine ⟨⟨_, rfl⟩, follows_hashes hf (by simp [Call.sparesBalances]), fun b hb => ?_⟩
    cases hb
    rw [(follows_cons_ok hf).1]
    rfl
  · exact ⟨⟨_, rfl⟩, follows_hashes hf (by simp [Call.sparesBalances]), fun b hb => by cases hb⟩

theorem readBalances_follows {names : List String} {es : List (Event Service)}
    {r : Except PyExc (List (String × ℚ))} {w w' : World} (h : (readBalances names).Ends es r)
    (hf : Follows World.serve w es w') :
    (∀ e ∈ es, ∃ ex, e.call = .hget (balanceKey ex) "USDT") ∧ w'.hashes = w.hashes ∧
      ∀ bs, r = .ok bs → bs = names.map fun ex => (ex, w.balanceOf ex) := by
  induction names generalizing es r w with
  | nil =>
    obtain ⟨rfl, rfl⟩ := (Prog.ends_pure _ _ _).mp h
    cases hf
    exact ⟨by simp, rfl, fun bs hbs => by cases hbs; rfl⟩
  | cons ex rest ih =>
    rw [readBalances, Prog.bind_eq, Prog.ends_bind] at h
    rcases h with ⟨amount, es₁, es₂, rfl, h₁, h₂⟩ | ⟨x, h₁, rfl⟩
    · obtain ⟨m, hf₁, hf₂⟩ := (follows_append _ _ _ _ _).mp hf
      obtain ⟨⟨a, rfl⟩, hhash₁, hamount⟩ := getBalance_follows h₁ hf₁
      rw [Prog.bind_eq, Prog.ends_bind] at h₂
      have hsame : ∀ name, m.balanceOf name = w.balanceOf name := by
        intro name
        unfold World.balanceOf
        rw [hhash₁]
      rcases h₂ with ⟨amounts, es₃, es₄, rfl, h₃, h₄⟩ | ⟨x, h₃, rfl⟩
      · obtain ⟨rfl, rfl⟩ := (Prog.ends_pure _ _ _).mp h₄
        rw [List.append_nil] at hf₂ ⊢
        obtain ⟨hreads, hhash₂, hamounts⟩ := ih h₃ hf₂
        refine ⟨?_, hhash₂.trans hhash₁, fun bs hbs => ?_⟩
        · intro e he
          rcases List.mem_cons.mp he with rfl | he
          · exact ⟨ex, rfl⟩
          · exact hreads e he
        · cases hbs
          rw [hamount amount rfl, hamounts amounts rfl]
          simp [hsame]
      · obtain ⟨hreads, hhash₂, -⟩ := ih h₃ hf₂
        refine ⟨?_, hhash₂.trans hhash₁, fun bs hbs => by cases hbs⟩
        intro e he
        rcases List.mem_cons.mp he with rfl | he
        · exact ⟨ex, rfl⟩
        · exact hreads e he
    · obtain ⟨⟨a, rfl⟩, hhash, -⟩ := getBalance_follows h₁ hf
      exact ⟨by simp, hhash, fun bs hbs => by cases hbs⟩

/-- What a transfer for an exchange that is not above the threshold does to the switch. -/
structure SwitchesFor (w : World) (threshold : ℚ) (es : List (Event Service))
    (r : Except PyExc (Option RebalanceResult)) : Prop where
  sound : (∃ e ∈ es, setsSwitch e) → w.Broke threshold
  quiet : w.Broke threshold → (∀ e ∈ es, e.call.sparesBalances = true) ∧
    ∀ rb, r = .ok rb → rb = none ∧ ∃ e ∈ es, setsSwitch e

theorem reads_noSwitch {es : List (Event Service)}
    (h : ∀ e ∈ es, ∃ ex, e.call = .hget (balanceKey ex) "USDT") :
    (¬∃ e ∈ es, setsSwitch e) ∧ ∀ e ∈ es, e.call.sparesBalances = true := by
  constructor
  · intro hset
    obtain ⟨e, he, hcall, -⟩ := hset
    obtain ⟨ex, hget⟩ := h e he
    rw [hget] at hcall
    cases hcall
  · intro e he
    obtain ⟨ex, hget⟩ := h e he
    rw [hget]
    rfl

theorem call_noSwitch {c : Call} (h : c ≠ .set killSwitchKey "1") :
    (Prog.call (S := Service) c).Uses (fun c => c ≠ Call.set killSwitchKey "1") :=
  (Prog.uses_call (S := Service) c).mpr h

theorem maybeRebalance_switches {exchange : String} {threshold : ℚ} {es : List (Event Service)}
    {r : Except PyExc (Option RebalanceResult)} {w w' : World}
    (hmap : exchange ∈ balanceExchanges) (hle : w.balanceOf exchange ≤ threshold)
    (h : (maybeRebalance exchange (w.balanceOf exchange) threshold).Ends es r)
    (hf : Follows World.serve w es w') : SwitchesFor w threshold es r := by
  unfold maybeRebalance at h
  rw [if_neg (not_lt.mpr hle), Prog.bind_eq, Prog.ends_bind] at h
  rcases h with ⟨balances, es₁, es₂, rfl, h₁, h₂⟩ | ⟨x, h₁, rfl⟩
  · obtain ⟨m, hf₁, hf₂⟩ := (follows_append _ _ _ _ _).mp hf
    obtain ⟨hreads, -, hbalances⟩ := readBalances_follows h₁ hf₁
    obtain ⟨hno, hspare⟩ := reads_noSwitch hreads
    cases hbalances balances rfl
    cases harg : (balanceExchanges.map fun ex => (ex, w.balanceOf ex)).argmax Prod.snd with
    | none => simp [balanceExchanges, initialBalancesUsdt] at harg
    | some top =>
      obtain ⟨donor, amount⟩ := top
      obtain ⟨hrich, hamount⟩ := argmax_richest (v := w.snapshot) harg
      have hmost := richest_le hrich
      simp only [harg] at h₂
      by_cases hstop : donor = exchange ∨ amount ≤ threshold
      · -- the richest is not above the threshold, so no exchange is
        have hbroke : w.Broke threshold := by
          intro ex hex
          refine (hmost ex hex).trans ?_
          rcases hstop with rfl | hlow
          · exact hle
          · rwa [← hamount]
        rw [if_pos hstop] at h₂
        have hspare' : ∀ {e}, e.call.sparesBalances = true →
            ∀ d ∈ es₁ ++ [e], d.call.sparesBalances = true := by
          intro e he d hd
          rcases List.mem_append.mp hd with hd | hd
          · exact hspare d hd
          · rwa [List.mem_singleton.mp hd]
        refine ⟨fun _ => hbroke, fun _ => ?_⟩
        rcases (Prog.ends_call_bind _ _ _ _).mp h₂ with ⟨u, es₃, rfl, hp⟩ | ⟨x, rfl, rfl⟩
        · obtain ⟨rfl, rfl⟩ := (Prog.ends_pure _ _ _).mp hp
          refine ⟨hspare' rfl, fun rb hrb => ?_⟩
          cases hrb
          exact ⟨rfl, _, List.mem_append_right _ List.mem_cons_self, rfl, rfl⟩
        · exact ⟨hspare' rfl, fun rb hrb => by cases hrb⟩
      · have hrich' : ¬w.Broke threshold := by
          intro hbroke
          have hdonor := hbroke donor (richest_mem hrich)
          rw [World.balanceOf] at hdonor
          exact hstop (.inr (hamount ▸ hdonor))
        refine ⟨fun hset => absurd hset ?_, fun hbroke => absurd hbroke hrich'⟩
        rw [if_neg hstop] at h₂
        have huses : ∀ e ∈ es₂, e.call ≠ .set killSwitchKey "1" := by
          cases hcfg : exchangeConfig donor with
          | none =>
            simp only [hcfg] at h₂
            obtain ⟨rfl, -⟩ := h₂
            simp
          | some cfg =>
            simp only [hcfg] at h₂
            refine @Prog.Uses.ends Service _ (fun c => c ≠ Call.set killSwitchKey "1") _ _ _ ?_ h₂
            exact Prog.uses_bind (call_noSwitch (by simp)) fun _ =>
              Prog.uses_bind (call_noSwitch (by simp)) fun _ =>
              Prog.uses_bind (call_noSwitch (by simp)) fun _ =>
                Prog.uses_pure _
        intro hset
        obtain ⟨e, he, hcall, hdone⟩ := hset
        rcases List.mem_append.mp he with he | he
        · exact hno ⟨e, he, hcall, hdone⟩
        · exact huses e he hcall
  · obtain ⟨hreads, -, -⟩ := readBalances_follows h₁ hf
    obtain ⟨hno, hspare⟩ := reads_noSwitch hreads
    exact ⟨fun hset => absurd hset hno, fun _ => ⟨hspare, fun rb hrb => by cases hrb⟩⟩

structure CallSwitches (w : World) (threshold : ℚ) (es : List (Event Service))
    (r : Except PyExc (Option ExecutionResult)) : Prop where
  sound : (∃ e ∈ es, setsSwitch e) → w.Broke threshold
  quiet : w.Broke threshold → (∀ e ∈ es, e.call.sparesBalances = true) ∧
    ∀ res, r = .ok res → res = none ∧ ∃ e ∈ es, setsSwitch e

theorem CallSwitches.cons {w m : World} {threshold : ℚ} {e : Event Service}
    {es : List (Event Service)} {r : Except PyExc (Option ExecutionResult)}
    (hset : e.call ≠ .set killSwitchKey "1") (hspare : e.call.sparesBalances = true)
    (hhash : m.hashes = w.hashes) (h : CallSwitches m threshold es r) :
    CallSwitches w threshold (e :: es) r := by
  constructor
  · intro hsets
    obtain ⟨d, hd, hcall, hdone⟩ := hsets
    rcases List.mem_cons.mp hd with rfl | hd
    · exact absurd hcall hset
    · exact (h.sound ⟨d, hd, hcall, hdone⟩).hashes hhash.symm
  · intro hbroke
    obtain ⟨hspares, hres⟩ := h.quiet (hbroke.hashes hhash)
    refine ⟨fun d hd => ?_, fun res hr => ?_⟩
    · rcases List.mem_cons.mp hd with rfl | hd
      · exact hspare
      · exact hspares d hd
    · obtain ⟨hnone, d, hd, hsetsd⟩ := hres res hr
      exact ⟨hnone, d, List.mem_cons_of_mem _ hd, hsetsd⟩

/-- No balance is changed and no call returns a trade. -/
structure Halted (es : List (Event Service)) : Prop where
  spares : ∀ e ∈ es, e.call.sparesBalances = true
  returned : ∀ res, returnedEvent res ∈ es → res = none

structure Disciplined (threshold : ℚ) (w : World) (es : List (Event Service)) (w' : World) :
    Prop where
  follows : Follows World.serve w es w'
  halts : ∀ pre e post, es = pre ++ e :: post → setsSwitch e → Halted post
  broke : (∃ e ∈ es, setsSwitch e) → w'.Broke threshold
  quiet : w.Broke threshold → Halted es

theorem Halted.append {es fs : List (Event Service)} (h : Halted es) (h' : Halted fs) :
    Halted (es ++ fs) where
  spares e he := by
    rcases List.mem_append.mp he with he | he
    · exact h.spares e he
    · exact h'.spares e he
  returned res hres := by
    rcases List.mem_append.mp hres with hres | hres
    · exact h.returned res hres
    · exact h'.returned res hres

theorem Halted.broke {threshold : ℚ} {es : List (Event Service)} {w w' : World}
    (h : Halted es) (hf : Follows World.serve w es w') (hb : w.Broke threshold) :
    w'.Broke threshold := hb.hashes (follows_hashes hf h.spares)

theorem Disciplined.append {threshold : ℚ} {w m w' : World} {es fs : List (Event Service)}
    (h : Disciplined threshold w es m) (h' : Disciplined threshold m fs w') :
    Disciplined threshold w (es ++ fs) w' := by
  refine ⟨(follows_append _ _ _ _ _).mpr ⟨m, h.follows, h'.follows⟩, ?_, ?_, ?_⟩
  · intro pre e post heq hset
    rcases List.append_eq_append_iff.mp heq with ⟨c, -, hfs⟩ | ⟨c, hes, hpost⟩
    · exact h'.halts c e post hfs hset
    · cases c with
      | nil => exact h'.halts [] e post (by simpa using hpost.symm) hset
      | cons d c =>
        obtain ⟨rfl, hc⟩ := List.cons.inj hpost
        rw [hc]
        exact (h.halts pre e c hes hset).append
          (h'.quiet (h.broke ⟨e, by rw [hes]; simp, hset⟩))
  · intro hset
    obtain ⟨e, he, hset⟩ := hset
    rcases List.mem_append.mp he with he | he
    · have hm := h.broke ⟨e, he, hset⟩
      exact (h'.quiet hm).broke h'.follows hm
    · exact h'.broke ⟨e, he, hset⟩
  · intro hb
    have hes := h.quiet hb
    exact hes.append (h'.quiet (hes.broke h.follows hb))

theorem disciplined_still {threshold : ℚ} {w w' : World} {es : List (Event Service)}
    (hf : Follows World.serve w es w') (h : Halted es) (hno : ¬∃ e ∈ es, setsSwitch e) :
    Disciplined threshold w es w' where
  follows := hf
  halts pre e post heq hset := absurd ⟨e, by rw [heq]; simp, hset⟩ hno
  broke hset := absurd hset hno
  quiet _ := h

section
variable [PyText]

theorem tradeWith_noSwitch (engine : Engine) (opp : Opportunity) (start balance : ℚ)
    (rb : Option RebalanceResult) :
    (tradeWith engine opp start balance rb).Uses (fun c => c ≠ Call.set killSwitchKey "1") := by
  unfold tradeWith
  by_cases hn : balance * engine.maxPositionPct / 100 < minNotionalUsdt
  · rw [if_pos hn]
    exact Prog.uses_pure _
  rw [if_neg hn]
  refine Prog.uses_bind (call_noSwitch (by simp)) fun _ =>
    Prog.uses_bind (call_noSwitch (by simp)) fun _ =>
    Prog.uses_bind (Prog.uses_lift _) fun fill => ?_
  cases fill with
  | none => exact Prog.uses_pure _
  | some f =>
    exact Prog.uses_bind (call_noSwitch (by simp)) fun _ =>
      Prog.uses_bind (call_noSwitch (by simp)) fun _ =>
      Prog.uses_bind (call_noSwitch (by simp)) fun _ =>
      Prog.uses_bind (call_noSwitch (by simp)) fun _ =>
      Prog.uses_bind (call_noSwitch (by simp)) fun _ => Prog.uses_pure _

theorem rebalanceAndTrade_switches {engine : Engine} {opp : Opportunity} {start : ℚ}
    {es : List (Event Service)} {r : Except PyExc (Option ExecutionResult)} {w w' : World}
    (hmap : opp.buyExchange ∈ balanceExchanges)
    (h : (maybeRebalance opp.buyExchange (w.balanceOf opp.buyExchange)
        engine.rebalanceThreshold >>= fun rebalanceResult =>
      match rebalanceResult with
      | some rb => tradeWith engine opp start rb.receiverNewBalance rebalanceResult
      | none =>
        if w.balanceOf opp.buyExchange ≤ engine.rebalanceThreshold then pure none
        else tradeWith engine opp start (w.balanceOf opp.buyExchange) none).Ends es r)
    (hf : Follows World.serve w es w') : CallSwitches w engine.rebalanceThreshold es r := by
  have htrade : ∀ {balance rb es r},
      (tradeWith engine opp start balance rb).Ends es r → ¬∃ e ∈ es, setsSwitch e := by
    intro balance rb es r h hset
    obtain ⟨e, he, hcall, -⟩ := hset
    exact (tradeWith_noSwitch engine opp start balance rb).ends h e he hcall
  by_cases hgt : engine.rebalanceThreshold < w.balanceOf opp.buyExchange
  · -- enough to trade with: no transfer, and the map is not broke
    have hrich : ¬w.Broke engine.rebalanceThreshold := fun hb => absurd (hb _ hmap) (not_le.mpr hgt)
    rw [maybeRebalance, if_pos hgt] at h
    have h' := if_neg (not_le.mpr hgt) ▸ h
    exact ⟨fun hset => absurd hset (htrade h'), fun hb => absurd hb hrich⟩
  · have hle := not_lt.mp hgt
    rw [Prog.bind_eq, Prog.ends_bind] at h
    rcases h with ⟨rb, es₁, es₂, rfl, h₁, h₂⟩ | ⟨x, h₁, rfl⟩
    · obtain ⟨m, hf₁, -⟩ := (follows_append _ _ _ _ _).mp hf
      obtain ⟨hsound, hquiet⟩ := maybeRebalance_switches hmap hle h₁ hf₁
      cases rb with
      | some rb =>
        have hrich : ¬w.Broke engine.rebalanceThreshold := by
          intro hb
          cases ((hquiet hb).2 _ rfl).1
        refine ⟨fun hset => ?_, fun hb => absurd hb hrich⟩
        obtain ⟨e, he, hsets⟩ := hset
        rcases List.mem_append.mp he with he | he
        · exact hsound ⟨e, he, hsets⟩
        · exact absurd ⟨e, he, hsets⟩ (htrade h₂)
      | none =>
        simp only [if_pos hle] at h₂
        obtain ⟨rfl, rfl⟩ := (Prog.ends_pure _ _ _).mp h₂
        rw [List.append_nil]
        refine ⟨hsound, fun hb => ⟨(hquiet hb).1, fun res hres => ?_⟩⟩
        cases hres
        exact ⟨rfl, ((hquiet hb).2 none rfl).2⟩
    · obtain ⟨hsound, hquiet⟩ := maybeRebalance_switches hmap hle h₁ hf
      exact ⟨hsound, fun hb => ⟨(hquiet hb).1, fun res hres => by cases hres⟩⟩

theorem executeOpportunity_switches {engine : Engine} {opp : Opportunity}
    {es : List (Event Service)} {r : Except PyExc (Option ExecutionResult)} {w w' : World}
    (hmap : opp.buyExchange ∈ balanceExchanges) (hoff : w.killSwitch = false)
    (h : (executeOpportunity engine opp).Ends es r) (hf : Follows World.serve w es w') :
    CallSwitches w engine.rebalanceThreshold es r := by
  unfold executeOpportunity at h
  obtain ⟨stopped, es₁, rfl, h, -⟩ := (follows_local hf).call_bind h rfl
  obtain ⟨hflag, hf₁⟩ := follows_cons_ok hf
  obtain rfl : stopped = false := hflag.trans hoff
  rw [if_neg Bool.false_ne_true] at h
  obtain ⟨start, es₂, rfl, h, -⟩ := (follows_local hf₁).call_bind h rfl
  obtain ⟨-, hf₂⟩ := follows_cons_ok hf₁
  refine CallSwitches.cons nofun rfl rfl (CallSwitches.cons nofun rfl rfl ?_)
  rw [Prog.bind_eq, Prog.ends_bind] at h
  rcases h with ⟨b, es₃, es₄, rfl, h₁, h₂⟩ | ⟨x, h₁, rfl⟩
  · obtain ⟨m, hf₃, hf₄⟩ := (follows_append _ _ _ _ _).mp hf₂
    obtain ⟨⟨a, rfl⟩, hhash, hb⟩ := getBalance_follows h₁ hf₃
    refine CallSwitches.cons nofun rfl hhash ?_
    have hbm : b = m.balanceOf opp.buyExchange := by
      rw [hb b rfl]
      unfold World.balanceOf
      rw [hhash]
    subst hbm
    exact rebalanceAndTrade_switches hmap h₂ hf₄
  · obtain ⟨⟨a, rfl⟩, hhash, -⟩ := getBalance_follows h₁ hf₂
    refine ⟨fun hset => ?_, fun _ => ⟨by simp [Call.sparesBalances], fun res hres => by cases hres⟩⟩
    obtain ⟨e, he, hcall, -⟩ := hset
    rw [List.mem_singleton.mp he] at hcall
    cases hcall

theorem executeOpportunity_any {engine : Engine} {opp : Opportunity}
    {es : List (Event Service)} {r : Except PyExc (Option ExecutionResult)} {w w' : World}
    (hmap : opp.buyExchange ∈ balanceExchanges) (h : (executeOpportunity engine opp).Ends es r)
    (hf : Follows World.serve w es w') :
    ((∃ e ∈ es, setsSwitch e) → w.Broke engine.rebalanceThreshold) ∧
      (w.Broke engine.rebalanceThreshold →
        Halted es ∧ ∀ res, r = .ok res → res = none) := by
  have hnote : ∀ res, returnedEvent res ∉ es := by
    intro res hres
    cases (executeOpportunity_uses engine opp).ends h _ hres
  cases hflag : w.killSwitch with
  | false =>
    obtain ⟨hsound, hquiet⟩ := executeOpportunity_switches hmap hflag h hf
    refine ⟨hsound, fun hb => ⟨⟨(hquiet hb).1, fun res hres => absurd hres (hnote res)⟩, ?_⟩⟩
    intro res hres
    exact ((hquiet hb).2 res hres).1
  | true =>
    unfold executeOpportunity at h
    obtain ⟨stopped, es₁, rfl, h, -⟩ := (follows_local hf).call_bind h rfl
    obtain rfl : stopped = true := (follows_cons_ok hf).1.trans hflag
    obtain ⟨rfl, rfl⟩ := (Prog.ends_pure _ _ _).mp h
    refine ⟨fun hset => ?_, fun _ => ⟨⟨by simp [Call.sparesBalances], fun res hres =>
      absurd hres (hnote res)⟩, fun res hres => ?_⟩⟩
    · obtain ⟨e, he, hcall, -⟩ := hset
      rw [List.mem_singleton.mp he] at hcall
      cases hcall
    · cases hres
      rfl

theorem disciplined_call {engine : Engine} {opp : Opportunity} {es tail : List (Event Service)}
    {r : Except PyExc (Option ExecutionResult)} {w w' : World}
    (hmap : opp.buyExchange ∈ balanceExchanges) (h : (executeOpportunity engine opp).Ends es r)
    (htail : ∀ e ∈ tail, ∃ res, e = returnedEvent res ∧ r = .ok res)
    (hf : Follows World.serve w (startedEvent opp :: (es ++ tail)) w') :
    Disciplined engine.rebalanceThreshold w (startedEvent opp :: (es ++ tail)) w' := by
  obtain ⟨-, hf₁⟩ := follows_cons_ok hf
  obtain ⟨m, hf₂, hf₃⟩ := (follows_append _ _ _ _ _).mp hf₁
  obtain ⟨hsound, hquiet⟩ := executeOpportunity_any hmap h hf₂
  have hhalted : w.Broke engine.rebalanceThreshold →
      Halted (startedEvent opp :: (es ++ tail)) := by
    intro hb
    obtain ⟨hes, hnone⟩ := hquiet hb
    have hstart : Halted [startedEvent opp] := ⟨by simp [startedEvent, Call.sparesBalances],
      fun res hres => by cases List.mem_singleton.mp hres⟩
    have hend : Halted tail := by
      constructor
      · intro e he
        obtain ⟨res, rfl, -⟩ := htail e he
        rfl
      · intro res hres
        obtain ⟨res', heq, hr⟩ := htail _ hres
        cases heq
        exact hnone res hr
    exact hstart.append (hes.append hend)
  have hset : (∃ e ∈ startedEvent opp :: (es ++ tail), setsSwitch e) →
      w.Broke engine.rebalanceThreshold := by
    intro hset
    obtain ⟨e, he, hset⟩ := hset
    rcases List.mem_cons.mp he with rfl | he
    · cases hset.1
    · rcases List.mem_append.mp he with he | he
      · exact hsound ⟨e, he, hset⟩
      · obtain ⟨res, rfl, -⟩ := htail e he
        cases hset.1
  refine ⟨hf, fun pre e post heq hsets => ?_, fun hsets => ?_, hhalted⟩
  · have hall := hhalted (hset ⟨e, by rw [heq]; simp, hsets⟩)
    rw [heq] at hall
    exact ⟨fun d hd => hall.spares d (by simp [hd]), fun res hres => hall.returned res (by simp [hres])⟩
  · have hb := hset hsets
    exact (hhalted hb).broke hf hb

theorem disciplined_batch {engine : Engine} {entries : List (Entry Fields)}
    {es : List (Event Service)} {r : Except PyExc (List ExecutionResult)} {w w' : World}
    (h : BatchRun engine entries es r)
    (hmap : ∀ opp, startedEvent opp ∈ es → opp.buyExchange ∈ balanceExchanges)
    (hf : Follows World.serve w es w') : Disciplined engine.rebalanceThreshold w es w' := by
  induction h generalizing w with
  | empty =>
    refine disciplined_still hf ⟨by simp, fun res hres => by cases hres⟩ (by simp)
  | unparsed entry rest x es r hparse hrest ih => exact ih hmap hf
  | failed entry rest opp es x hparse hcall =>
    have hnil : startedEvent opp :: es = startedEvent opp :: (es ++ []) := by simp
    rw [hnil] at hf ⊢
    exact disciplined_call (hmap opp List.mem_cons_self) hcall (by simp) hf
  | called entry rest opp es es' res r hparse hcall hrest ih =>
    have hsplit : startedEvent opp :: (es ++ returnedEvent res :: es') =
        (startedEvent opp :: (es ++ [returnedEvent res])) ++ es' := by simp
    rw [hsplit] at hf ⊢
    obtain ⟨m, hf₁, hf₂⟩ := (follows_append _ _ _ _ _).mp hf
    refine (disciplined_call (hmap opp List.mem_cons_self) hcall ?_ hf₁).append
      (ih (fun o ho => hmap o (by simp [ho])) hf₂)
    intro e he
    exact ⟨res, List.mem_singleton.mp he, rfl⟩

theorem disciplined_loop {engine : Engine} {es : List (Event Service)} {w w' : World}
    (h : LoopRun engine es)
    (hmap : ∀ opp, startedEvent opp ∈ es → opp.buyExchange ∈ balanceExchanges)
    (hf : Follows World.serve w es w') : Disciplined engine.rebalanceThreshold w es w' := by
  induction h generalizing w with
  | stop => exact disciplined_still hf ⟨by simp, fun res hres => by cases hres⟩ (by simp)
  | idle e es hcall hrest ih =>
    obtain ⟨m, hf₁, hf₂⟩ := (follows_append World.serve w w' [e] es).mp hf
    refine (disciplined_still hf₁ ⟨?_, ?_⟩ ?_).append
      (ih (fun o ho => hmap o (List.mem_cons_of_mem _ ho)) hf₂)
    · intro d hd
      rw [List.mem_singleton.mp hd]
      rcases hcall with hc | hc
      · cases h : e.call <;> simp_all [Call.opensPass, Call.sparesBalances]
      · rw [hc]
        rfl
    · intro res hres
      rw [← List.mem_singleton.mp hres] at hcall
      rcases hcall with hc | hc <;> cases hc
    · intro hset
      obtain ⟨d, hd, hset, -⟩ := hset
      rw [List.mem_singleton.mp hd] at hset
      rcases hcall with hc | hc
      · rw [hset] at hc
        cases hc
      · rw [hset] at hc
        cases hc
  | batch entries es es' r hbatch hrest ih =>
    obtain ⟨m, hf₁, hf₂⟩ := (follows_append _ _ _ _ _).mp hf
    refine Disciplined.append ?_ (ih (fun o ho => hmap o (List.mem_append_right _ ho)) hf₂)
    have hmap₁ := fun o ho => hmap o (List.mem_append_left es' ho)
    rcases handleBatch_ends hbatch (follows_local hf₁) with
      ⟨x, hrun, -⟩ | ⟨results, es₁, es₂, rfl, hrun, hsettle⟩
    · exact disciplined_batch hrun hmap₁ hf₁
    · obtain ⟨m', hf₃, hf₄⟩ := (follows_append _ _ _ _ _).mp hf₁
      refine (disciplined_batch hrun (fun o ho => hmap₁ o (List.mem_append_left _ ho)) hf₃).append ?_
      have hcalls := (settleBatch_uses entries results).ends hsettle
      refine disciplined_still hf₄ ⟨fun e he => ?_, fun res hres => ?_⟩ fun hset => ?_
      · have hc := hcalls e he
        cases h : e.call <;> simp_all [Call.persists, Call.sparesBalances]
      · cases hcalls _ hres
      · obtain ⟨e, he, hset, -⟩ := hset
        have hc := hcalls e he
        rw [hset] at hc
        cases hc

theorem executeOpportunity_broke {engine : Engine} {opp : Opportunity}
    {es : List (Event Service)} {r : Except PyExc (Option ExecutionResult)} {w w' : World}
    (hmap : opp.buyExchange ∈ balanceExchanges) (hb : w.Broke engine.rebalanceThreshold)
    (h : (executeOpportunity engine opp).Goes es r) (hf : Follows World.serve w es w') :
    r = .ok none := by
  obtain ⟨⟨hspares, -⟩, -⟩ := (executeOpportunity_any hmap h.1 hf).2 hb
  cases executeOpportunity_goes h with
  | stopped => rfl
  | broke start v es hr hle => rfl
  | funded start v es tail r hr hgt ht =>
    obtain ⟨-, hf₁⟩ := follows_cons_ok hf
    obtain ⟨-, hf₂⟩ := follows_cons_ok hf₁
    obtain rfl : v = w.snapshot opp.buyExchange := (follows_cons_ok hf₂).1
    exact absurd (hb _ hmap) (not_le.mpr hgt)
  | transferred start v rb es tail r hr ht =>
    cases hr with
    | transferred v' donor cfg donorNew receiverNew hle hd hne hgt hcfg =>
      have hmove := hspares (moveEvent donor (-((v' donor).getD 0 / 2)) donorNew)
        (by simp [transferEvents])
      cases hmove

/-- A call made while the flag is off sets the key exactly if no exchange of the map is above
the threshold. From then on no call of the run returns a trade or changes a balance. -/
theorem autoSwitch_sound_final (engine : Engine) :
    (∀ opp w, opp.buyExchange ∈ balanceExchanges → w.killSwitch = false →
      ((∃ e ∈ (executeOpportunity engine opp).trace World.serve w, setsSwitch e) →
        w.Broke engine.rebalanceThreshold) ∧
      (w.Broke engine.rebalanceThreshold →
        ∀ res, ((executeOpportunity engine opp).run World.serve w).1 = .ok res →
          ∃ e ∈ (executeOpportunity engine opp).trace World.serve w, setsSwitch e)) ∧
    (∀ n w, (∀ opp, startedEvent opp ∈ (consumeLoop engine n).trace World.serve w →
        opp.buyExchange ∈ balanceExchanges) →
      ∀ pre e post, (consumeLoop engine n).trace World.serve w = pre ++ e :: post →
        setsSwitch e → Halted post) ∧
    (∀ opp w, opp.buyExchange ∈ balanceExchanges → w.Broke engine.rebalanceThreshold →
      Clean ((executeOpportunity engine opp).trace World.serve w) →
      ((executeOpportunity engine opp).run World.serve w).1 = .ok none) := by
  refine ⟨?_, ?_, ?_⟩
  · intro opp w hmap hoff
    have hends := (executeOpportunity engine opp).ends_trace World.serve w
    have hf := (executeOpportunity engine opp).follows_trace World.serve w
    obtain ⟨hsound, hquiet⟩ := executeOpportunity_switches hmap hoff hends hf
    exact ⟨hsound, fun hb res hres => ((hquiet hb).2 res hres).2⟩
  · intro n w hmap
    have hends := (consumeLoop engine n).ends_trace World.serve w
    have hf := (consumeLoop engine n).follows_trace World.serve w
    exact (disciplined_loop (consumeLoop_run hends (follows_local hf)) hmap hf).halts
  · intro opp w hmap hb hclean
    exact executeOpportunity_broke hmap hb
      ⟨(executeOpportunity engine opp).ends_trace World.serve w, hclean⟩
      ((executeOpportunity engine opp).follows_trace World.serve w)

end

/-- Every exchange has exactly the threshold, and two opportunities wait. -/
def brokeWorld : World :=
  sampleWorld sampleOutside (balanceExchanges.map fun ex => (ex, 100))
    [sampleOpportunity "binance" "bybit" (1 / 10) (1 / 10),
      sampleOpportunity "kucoin" "bybit" (1 / 10) (1 / 10)]

/-- The first of the two sets the key. -/
theorem autoSwitch_sound_final_broke :
    ∃ e ∈ (@executeOpportunity sampleText ⟨10, 100⟩ (sampleOpportunity "binance" "bybit" (1 / 10)
      (1 / 10))).trace World.serve brokeWorld, setsSwitch e := by
  refine ((@autoSwitch_sound_final sampleText ⟨10, 100⟩).1
    (sampleOpportunity "binance" "bybit" (1 / 10) (1 / 10)) brokeWorld (by decide) rfl).2 ?_ none
    (by decide +kernel)
  unfold World.Broke
  decide +kernel

end CriptoParser
