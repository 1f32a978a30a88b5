import CriptoParser.BalanceLedger

set_option autoImplicit false

namespace CriptoParser

open Await

structure Transfer where
  donor : String
  gross : ℚ
  fee : ℚ
  deriving DecidableEq, Repr

namespace World

def snapshot (w : World) : String → Option ℚ := fun ex => w.hashes (balanceKey ex) "USDT"

/-- The transfer `maybe_rebalance` makes, if the balance of `exchange` calls for one and
another exchange can give it. -/
def transferDue (w : World) (exchange : String) (threshold : ℚ) : Option Transfer :=
  if threshold < w.balanceOf exchange then none
  else
    match richest w.snapshot with
    | none => none
    | some donor =>
      if donor = exchange ∨ w.balanceOf donor ≤ threshold then none
      else (exchangeConfig donor).map fun cfg =>
        ⟨donor, w.balanceOf donor / 2, cfg.withdrawalUsdt⟩

section
variable [PyText]

/-- The fill for a balance when the books are read `calls` calls from now. -/
def fillLater (w : World) (engine : Engine) (opp : Opportunity) (balance : ℚ) (calls : ℕ) :
    Except PyExc (Option Fill) :=
  if balance * engine.maxPositionPct / 100 < minNotionalUsdt then .ok none
  else fillAt opp (w.outside (w.tick + calls)).time (w.outside (w.tick + calls + 1)).depth
    (balance * engine.maxPositionPct / 100)

/-- The fill a call finds that the kill switch does not stop. Before the books it makes
three calls, and after a transfer ten more: seven reads, two changes and a log line. -/
def fillDue (w : World) (engine : Engine) (opp : Opportunity) : Except PyExc (Option Fill) :=
  match w.transferDue opp.buyExchange engine.rebalanceThreshold with
  | some t => w.fillLater engine opp (w.balanceOf opp.buyExchange + (t.gross - t.fee)) 13
  | none =>
    if w.balanceOf opp.buyExchange ≤ engine.rebalanceThreshold then .ok none
    else w.fillLater engine opp (w.balanceOf opp.buyExchange) 3

end

end World

theorem follows_cons_ok {c : Call} {v : c.Reply} {es : List (Event Service)} {w w' : World}
    (h : Follows World.serve w (⟨c, .ok v⟩ :: es) w') :
    v = w.arrive.answer c ∧ Follows World.serve (w.arrive.effect c).next es w' := by
  obtain ⟨hr, h⟩ := h
  cases hf : w.fault c with
  | none =>
    simp only [World.serve, hf] at hr h
    exact ⟨Except.ok.inj hr, h⟩
  | some x =>
    simp only [World.serve, hf] at hr
    cases hr

def Call.sparesBalances : Call → Bool
  | .hincrbyfloat _ _ _ | .hset _ _ _ => false
  | _ => true

theorem serve_hashes {c : Call} (hc : c.sparesBalances = true) (w : World) :
    (World.serve c w).2.hashes = w.hashes := by
  rw [serve_snd]
  split
  · cases c <;> first | rfl | cases hc
  · rfl

theorem follows_hashes {w w' : World} {es : List (Event Service)}
    (h : Follows World.serve w es w') (hes : ∀ e ∈ es, e.call.sparesBalances = true) :
    w'.hashes = w.hashes := by
  induction es generalizing w with
  | nil => cases h; rfl
  | cons e es ih =>
    rw [ih h.2 fun d hd => hes d (List.mem_cons_of_mem _ hd),
      serve_hashes (hes e List.mem_cons_self)]

/-- What a run without failing calls and without overwrites has to tell of its world. -/
structure Later (w : World) (n : ℕ) (w' : World) : Prop where
  outside : w'.outside = w.outside
  tick : w'.tick = w.tick + n

theorem Await.Follows.later {w w' : World} {es : List (Event Service)}
    (h : Follows World.serve w es w') : Later w es.length w' :=
  ⟨follows_outside h, follows_tick h⟩

theorem Later.trans {w m w' : World} {n k : ℕ} (h : Later w n m) (h' : Later m k w') :
    Later w (n + k) w' :=
  ⟨h'.outside.trans h.outside, by rw [h'.tick, h.tick, Nat.add_assoc]⟩

theorem readEvents_spare (names : List String) (v : String → Option ℚ) :
    ∀ e ∈ readEvents names v, e.call.sparesBalances = true := by
  intro e he
  obtain ⟨ex, -, rfl⟩ := List.mem_map.mp he
  rfl

theorem follows_readEvents {names : List String} {v : String → Option ℚ} {w w' : World}
    (h : Follows World.serve w (readEvents names v) w') :
    ∀ ex ∈ names, v ex = w.snapshot ex := by
  induction names generalizing w with
  | nil => simp
  | cons name rest ih =>
    obtain ⟨hv, h⟩ := follows_cons_ok h
    intro ex hex
    rcases List.mem_cons.mp hex with rfl | hex
    · exact hv
    · exact ih h ex hex

theorem moved_spare {es : List (Event Service)} (h : ∀ e ∈ es, e.call.sparesBalances = true)
    (exchange : String) : moved es exchange = 0 := by
  induction es with
  | nil => rfl
  | cons e es ih =>
    have hzero : eventChange exchange e = 0 := by
      have he := h e List.mem_cons_self
      obtain ⟨c, a⟩ := e
      cases c <;> first | rfl | cases he
    rw [moved_cons, hzero, ih fun d hd => h d (List.mem_cons_of_mem _ hd), add_zero]

@[simp] theorem eventChange_moveEvent (exchange other : String) (delta v : ℚ) :
    eventChange exchange (moveEvent other delta v) = if exchange = other then delta else 0 := by
  simp [eventChange, moveEvent, carriedOut, eq_comm]

@[simp] theorem eventChange_note (exchange : String) (n : Note) (v : Except PyExc Unit) :
    eventChange exchange ⟨.note n, v⟩ = 0 := rfl

/-- The change a transfer makes to the balance of `exchange`. -/
def transferChange (due : Option Transfer) (receiver exchange : String) : ℚ :=
  match due with
  | none => 0
  | some t =>
    (if exchange = t.donor then -t.gross else 0) +
      (if exchange = receiver then t.gross - t.fee else 0)

/-- The change the two legs of a trade make to the balance of `exchange`. -/
def fillChange (fill : Except PyExc (Option Fill)) (opp : Opportunity) (exchange : String) : ℚ :=
  match fill with
  | .ok (some f) =>
    (if exchange = opp.buyExchange then f.buyChange opp else 0) +
      (if exchange = opp.sellExchange then f.sellChange opp else 0)
  | _ => 0

theorem moved_legEvents (opp : Opportunity) (f : Fill) (newBuy newSell t : ℚ) (uuid : String)
    (t' : ℚ) (exchange : String) :
    moved (legEvents opp f newBuy newSell t uuid t') exchange =
      (if exchange = opp.buyExchange then f.buyChange opp else 0) +
        (if exchange = opp.sellExchange then f.sellChange opp else 0) := by
  have hrest : moved [(⟨.time, .ok t⟩ : Event Service), ⟨.uuid4, .ok uuid⟩, ⟨.time, .ok t'⟩]
      exchange = 0 := moved_spare (by simp [Call.sparesBalances]) exchange
  rw [legEvents, moved_cons, moved_cons, eventChange_moveEvent, eventChange_moveEvent, hrest,
    add_zero]

/-- The record returned of the transfer that was due in `w`. -/
def World.transferRecord (w : World) (receiver : String) (t : Transfer) : RebalanceResult :=
  transferResult receiver t.donor (w.balanceOf t.donor) t.fee
    (w.balanceOf t.donor - t.gross) (w.balanceOf receiver + (t.gross - t.fee))

theorem transferDue_spec {w : World} {exchange : String} {threshold : ℚ} {t : Transfer}
    (h : w.transferDue exchange threshold = some t) :
    t.donor ≠ exchange ∧ t.gross = w.balanceOf t.donor / 2 ∧
      threshold < w.balanceOf t.donor ∧ 0 ≤ t.fee := by
  unfold World.transferDue at h
  split at h
  · cases h
  · split at h
    · cases h
    · split at h
      · cases h
      · rename_i hno
        obtain ⟨cfg, hcfg, rfl⟩ := Option.map_eq_some_iff.mp h
        obtain ⟨hne, hle⟩ := not_or.mp hno
        exact ⟨hne, rfl, not_le.mp hle, withdrawalUsdt_nonneg hcfg⟩

theorem rebalanceRun_due {exchange : String} {balance threshold : ℚ} {w w' : World}
    {es : List (Event Service)} {rb : Option RebalanceResult}
    (h : RebalanceRun exchange balance threshold es rb) (hf : Follows World.serve w es w')
    (hbal : balance = w.balanceOf exchange) :
    rb = (w.transferDue exchange threshold).map (w.transferRecord exchange) ∧
      (∀ ex, w'.balanceOf ex =
        w.balanceOf ex + transferChange (w.transferDue exchange threshold) exchange ex) ∧
      (w.transferDue exchange threshold ≠ none → es.length = 10) := by
  subst hbal
  cases h with
  | enough hlt =>
    have hdue : w.transferDue exchange threshold = none := by
      rw [World.transferDue, if_pos hlt]
    cases hf
    simp [hdue, transferChange]
  | exhausted v donor hle hd hno =>
    obtain ⟨m, hread, hset⟩ := (follows_append _ _ _ _ _).mp hf
    have hv := follows_readEvents hread
    rw [richest_congr hv] at hd
    rw [hv donor (richest_mem hd)] at hno
    have hdue : w.transferDue exchange threshold = none := by
      rw [World.transferDue, if_neg (not_lt.mpr hle)]
      simp only [hd]
      exact if_pos hno
    have hsame : w'.hashes = w.hashes := by
      rw [follows_hashes hset (by simp [Call.sparesBalances]),
        follows_hashes hread (readEvents_spare _ _)]
    refine ⟨by rw [hdue]; rfl, fun ex => ?_, fun ht => absurd hdue ht⟩
    rw [hdue, World.balanceOf, hsame, transferChange, add_zero, World.balanceOf]
  | transferred v donor cfg donorNew receiverNew hle hd hne hgt hcfg =>
    have hmoves := follows_balanceOf hf (by
      intro e he
      rcases List.mem_append.mp he with he | he
      · obtain ⟨ex, -, rfl⟩ := List.mem_map.mp he
        rfl
      · simp only [transferEvents, List.mem_cons, List.not_mem_nil, or_false] at he
        rcases he with rfl | rfl | rfl <;> rfl)
    obtain ⟨m, hread, hmove⟩ := (follows_append _ _ _ _ _).mp hf
    have hv := follows_readEvents hread
    have hm := follows_hashes hread (readEvents_spare _ _)
    have hdonor : v donor = w.snapshot donor := hv donor (richest_mem hd)
    rw [richest_congr hv] at hd
    rw [hdonor] at hgt hmove hmoves ⊢
    change threshold < w.balanceOf donor at hgt
    have hdue : w.transferDue exchange threshold =
        some ⟨donor, w.balanceOf donor / 2, cfg.withdrawalUsdt⟩ := by
      rw [World.transferDue, if_neg (not_lt.mpr hle)]
      simp only [hd]
      rw [if_neg (not_or.mpr ⟨hne, not_le.mpr hgt⟩), hcfg]
      rfl
    have hbalm : ∀ ex, m.balanceOf ex = w.balanceOf ex := fun ex => by
      rw [World.balanceOf, World.balanceOf, hm]
    obtain ⟨hdn, hmove⟩ := follows_cons_ok hmove
    obtain ⟨hrn, -⟩ := follows_cons_ok hmove
    have hdn' : donorNew = w.balanceOf donor - w.balanceOf donor / 2 := by
      rw [hdn]
      change m.balanceOf donor + -(w.balanceOf donor / 2) = _
      rw [hbalm, sub_eq_add_neg]
    have hrn' : receiverNew =
        w.balanceOf exchange + (w.balanceOf donor / 2 - cfg.withdrawalUsdt) := by
      rw [hrn, ← hbalm exchange]
      simp [World.answer, World.effect, World.arrive, World.next, World.setHash,
        World.balanceOf, World.snapshot, Function.update_of_ne fun h :
          balanceKey exchange = balanceKey donor => hne (balanceKey_injective h).symm]
    refine ⟨?_, fun ex => ?_, fun _ => rfl⟩
    · rw [hdue, hdn', hrn']
      rfl
    · rw [hmoves ex, moved_append, moved_spare (readEvents_spare _ _), zero_add, hdue]
      simp only [transferEvents, moved_cons, moved_nil, eventChange_moveEvent,
        eventChange_note, transferChange, add_zero]
      rfl

theorem follows_openEvents {opp : Opportunity} {start : ℚ} {v : Option ℚ} {w w' : World}
    {tail : List (Event Service)}
    (h : Follows World.serve w (openEvents opp start v ++ tail) w') :
    ∃ m, Follows World.serve m tail w' ∧ m.hashes = w.hashes ∧ Later w 3 m ∧
      w.killSwitch = false ∧ v.getD 0 = w.balanceOf opp.buyExchange := by
  simp only [openEvents, List.cons_append, List.nil_append] at h
  obtain ⟨hoff, h⟩ := follows_cons_ok h
  obtain ⟨-, h⟩ := follows_cons_ok h
  obtain ⟨hv, h⟩ := follows_cons_ok h
  refine ⟨_, h, rfl, ⟨rfl, rfl⟩, hoff.symm, ?_⟩
  rw [hv]
  rfl

theorem follows_quoteEvents {opp : Opportunity} {t : ℚ} {raws : String → Option String}
    {w w' : World} {tail : List (Event Service)}
    (h : Follows World.serve w (quoteEvents opp t raws ++ tail) w') :
    ∃ m, Follows World.serve m tail w' ∧ m.hashes = w.hashes ∧
      t = (w.outside w.tick).time ∧ raws = (w.outside (w.tick + 1)).depth := by
  simp only [quoteEvents, List.cons_append, List.nil_append] at h
  obtain ⟨ht, h⟩ := follows_cons_ok h
  obtain ⟨hraws, h⟩ := follows_cons_ok h
  exact ⟨_, h, rfl, ht, hraws⟩

theorem same_balances {w m : World} (h : m.hashes = w.hashes) :
    (∀ ex, m.balanceOf ex = w.balanceOf ex) ∧
      m.transferDue = w.transferDue ∧ m.transferRecord = w.transferRecord := by
  have hbal : ∀ ex, m.balanceOf ex = w.balanceOf ex := fun ex => by
    rw [World.balanceOf, World.balanceOf, h]
  have hsnap : m.snapshot = w.snapshot := by
    funext ex
    rw [World.snapshot, World.snapshot, h]
  refine ⟨hbal, ?_, ?_⟩
  · funext exchange threshold
    simp only [World.transferDue, hbal, hsnap]
  · funext receiver t
    simp only [World.transferRecord, hbal]

section
variable [PyText]

/-- How the result of a call follows from the fill it finds; the trade begins in `m`. -/
inductive Found (opp : Opportunity) (rb : Option RebalanceResult) (m w' : World) :
    Except PyExc (Option Fill) → Except PyExc (Option ExecutionResult) → Prop
  | raised (x : PyExc) : Found opp rb m w' (.error x) (.error x)
  | skipped : Found opp rb m w' (.ok none) (.ok none)
  | traded (f : Fill) (now : ℤ) (uuid : String) (durationMs : ℤ) :
      Found opp rb m w' (.ok (some f)) (.ok (some (fillResult opp f rb
        (m.balanceOf opp.buyExchange + f.buyChange opp) (w'.balanceOf opp.sellExchange)
        now uuid durationMs)))

theorem tradeRun_found {engine : Engine} {opp : Opportunity} {balance : ℚ}
    {rb : Option RebalanceResult} {es : List (Event Service)}
    {r : Except PyExc (Option ExecutionResult)} {m w' : World}
    (h : TradeRun engine opp balance rb es r) (hf : Follows World.serve m es w') :
    Found opp rb m w' (m.fillLater engine opp balance 0) r ∧
      ∀ ex, w'.balanceOf ex =
        m.balanceOf ex + fillChange (m.fillLater engine opp balance 0) opp ex := by
  unfold World.fillLater
  cases h with
  | small hn =>
    cases hf
    rw [if_pos hn]
    exact ⟨.skipped, fun ex => (add_zero _).symm⟩
  | skipped t raws hn hfill =>
    rw [← List.append_nil (quoteEvents opp t raws)] at hf
    obtain ⟨m', hend, hm, rfl, rfl⟩ := follows_quoteEvents hf
    cases hend
    rw [if_neg (not_lt.mpr hn), Nat.add_zero, hfill]
    exact ⟨.skipped, fun ex => by simp [fillChange, World.balanceOf, hm]⟩
  | raised t raws x hn hfill =>
    rw [← List.append_nil (quoteEvents opp t raws)] at hf
    obtain ⟨m', hend, hm, rfl, rfl⟩ := follows_quoteEvents hf
    cases hend
    rw [if_neg (not_lt.mpr hn), Nat.add_zero, hfill]
    exact ⟨.raised x, fun ex => by simp [fillChange, World.balanceOf, hm]⟩
  | traded t raws f newBuy newSell t₁ uuid t₂ durationMs hn hfill =>
    obtain ⟨m', hlegs, hm, rfl, rfl⟩ := follows_quoteEvents hf
    rw [if_neg (not_lt.mpr hn), Nat.add_zero, hfill]
    have hmoves := follows_balanceOf hlegs (by
      intro e he
      simp only [legEvents, List.mem_cons, List.not_mem_nil, or_false] at he
      rcases he with rfl | rfl | rfl | rfl | rfl <;> rfl)
    obtain ⟨hbuy, hlegs⟩ := follows_cons_ok hlegs
    obtain ⟨hsell, hlegs⟩ := follows_cons_ok hlegs
    have hkeep := follows_hashes hlegs (by
      intro e he
      simp only [List.mem_cons, List.not_mem_nil, or_false] at he
      rcases he with rfl | rfl | rfl <;> rfl)
    have hbuy' : newBuy = m.balanceOf opp.buyExchange + f.buyChange opp := by
      rw [hbuy, World.balanceOf, ← hm]
      rfl
    have hsell' : newSell = w'.balanceOf opp.sellExchange := by
      rw [hsell, World.balanceOf, hkeep]
      simp [World.answer, World.effect, World.arrive, World.next, World.setHash]
    refine ⟨?_, fun ex => ?_⟩
    · rw [hbuy', hsell']
      exact .traded f _ uuid durationMs
    · rw [hmoves ex, moved_legEvents, World.balanceOf, hm]
      rfl

/-- What a call does, told from the world it starts in: the transfer due, then the fill. -/
inductive Outcome (engine : Engine) (opp : Opportunity) (w w' : World) :
    Except PyExc (Option ExecutionResult) → Prop
  | stopped (h : w.killSwitch = true) (hw' : ∀ ex, w'.balanceOf ex = w.balanceOf ex) :
      Outcome engine opp w w' (.ok none)
  | called (m : World) (r : Except PyExc (Option ExecutionResult))
      (h : w.killSwitch = false)
      (hm : ∀ ex, m.balanceOf ex = w.balanceOf ex + transferChange
        (w.transferDue opp.buyExchange engine.rebalanceThreshold) opp.buyExchange ex)
      (hw' : ∀ ex, w'.balanceOf ex = m.balanceOf ex + fillChange (w.fillDue engine opp) opp ex)
      (hr : Found opp ((w.transferDue opp.buyExchange engine.rebalanceThreshold).map
        (w.transferRecord opp.buyExchange)) m w' (w.fillDue engine opp) r) :
      Outcome engine opp w w' r

theorem Later.fillLater {w w' : World} {n : ℕ} (h : Later w n w') (engine : Engine)
    (opp : Opportunity) (balance : ℚ) :
    w'.fillLater engine opp balance 0 = w.fillLater engine opp balance n := by
  simp only [World.fillLater, h.outside, h.tick, Nat.add_zero]

theorem executeRun_outcome {engine : Engine} {opp : Opportunity} {es : List (Event Service)}
    {r : Except PyExc (Option ExecutionResult)} {w w' : World}
    (h : ExecuteRun engine opp es r) (hf : Follows World.serve w es w') :
    Outcome engine opp w w' r := by
  cases h with
  | stopped =>
    obtain ⟨hon, hend⟩ := follows_cons_ok hf
    cases hend
    exact .stopped hon.symm fun ex => rfl
  | broke start v es hr hle =>
    obtain ⟨m, htail, hm, -, hoff, hv⟩ := follows_openEvents hf
    obtain ⟨hbal, hdue, hrec⟩ := same_balances hm
    obtain ⟨hrb, hw', -⟩ := rebalanceRun_due hr htail (hv.trans (hbal _).symm)
    rw [hdue] at hrb hw'
    rw [hrec] at hrb
    have hnone : w.transferDue opp.buyExchange engine.rebalanceThreshold = none :=
      Option.map_eq_none_iff.mp hrb.symm
    have hfill : w.fillDue engine opp = .ok none := by
      rw [World.fillDue, hnone]
      exact if_pos (hv ▸ hle)
    refine .called w' _ hoff (fun ex => ?_) (fun ex => ?_) ?_
    · rw [hw' ex, hbal]
    · rw [hfill]
      exact (add_zero _).symm
    · rw [hfill]
      exact .skipped
  | funded start v es tail r hr hgt ht =>
    obtain ⟨m, hrest, hm, hlater, hoff, hv⟩ := follows_openEvents hf
    obtain ⟨hbal, hdue, hrec⟩ := same_balances hm
    obtain ⟨m₂, hreb, htail⟩ := (follows_append _ _ _ _ _).mp hrest
    obtain ⟨hrb, hm₂, -⟩ := rebalanceRun_due hr hreb (hv.trans (hbal _).symm)
    rw [hdue] at hrb hm₂
    rw [hrec] at hrb
    have hnone : w.transferDue opp.buyExchange engine.rebalanceThreshold = none :=
      Option.map_eq_none_iff.mp hrb.symm
    have hlen : es = [] := by
      cases hr with
      | enough _ => rfl
      | exhausted _ _ hle _ _ => exact absurd hle (not_le.mpr hgt)
    subst hlen
    cases hreb
    obtain ⟨hfound, hw'⟩ := tradeRun_found ht htail
    rw [hlater.fillLater, hv] at hfound hw'
    have hfill : w.fillDue engine opp =
        w.fillLater engine opp (w.balanceOf opp.buyExchange) 3 := by
      rw [World.fillDue, hnone]
      exact if_neg (not_le.mpr (hv ▸ hgt))
    rw [← hfill] at hfound hw'
    refine .called m _ hoff (fun ex => ?_) hw' ?_
    · rw [hm₂ ex, hbal]
    · rw [hnone]
      exact hfound
  | transferred start v rb es tail r hr ht =>
    obtain ⟨m, hrest, hm, hlater, hoff, hv⟩ := follows_openEvents hf
    obtain ⟨hbal, hdue, hrec⟩ := same_balances hm
    obtain ⟨m₂, hreb, htail⟩ := (follows_append _ _ _ _ _).mp hrest
    obtain ⟨hrb, hm₂, hlen⟩ := rebalanceRun_due hr hreb (hv.trans (hbal _).symm)
    rw [hdue] at hrb hm₂ hlen
    rw [hrec] at hrb
    obtain ⟨t, ht', htrb⟩ := Option.map_eq_some_iff.mp hrb.symm
    have hlen := hlen (by rw [ht']; exact Option.some_ne_none t)
    have hlater₂ : Later w 13 m₂ := hlater.trans (hlen ▸ hreb.later)
    obtain ⟨hfound, hw'⟩ := tradeRun_found ht htail
    have hnew : rb.receiverNewBalance =
        w.balanceOf opp.buyExchange + (t.gross - t.fee) := by
      rw [← htrb]
      rfl
    have hfill : w.fillDue engine opp = m₂.fillLater engine opp rb.receiverNewBalance 0 := by
      rw [World.fillDue, ht', hlater₂.fillLater, hnew]
    rw [← hfill] at hfound hw'
    refine .called m₂ _ hoff (fun ex => ?_) hw' ?_
    · rw [hm₂ ex, hbal]
    · rw [← hrb]
      exact hfound

end

end CriptoParser
