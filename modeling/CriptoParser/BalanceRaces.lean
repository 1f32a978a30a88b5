import CriptoParser.ExecutorPrudence
import CriptoParser.OperatorBalances

set_option autoImplicit false

namespace CriptoParser

open Await Streams

inductive BalanceTask where
  | executor | operator
  deriving DecidableEq, Repr

def balanceTasks [PyText] (engine : Engine) (n : ℕ) (paper : Bool)
    (requests : List BalanceUpdate) : BalanceTask → Task Unit
  | .executor => consumeLoop engine n
  | .operator => editBalances paper requests

/-- The key and the value of the operator's last read, until it overwrites the key. -/
def editNext (p : Option (String × ℚ)) : Event Service → Option (String × ℚ)
  | ⟨.hget key _, .ok v⟩ => some (key, Option.getD v 0)
  | ⟨.hset _ _ _, _⟩ => none
  | _ => p

def editChange (exchange : String) (p : Option (String × ℚ)) (e : Event Service) : ℚ :=
  match e.call, p with
  | .hset key _ amount, some (_, prev) => if key = balanceKey exchange then amount - prev else 0
  | _, _ => 0

def adjusted (exchange : String) : Option (String × ℚ) → List (Event Service) → ℚ
  | _, [] => 0
  | p, e :: es => editChange exchange p e + adjusted exchange (editNext p e) es

@[reducible] def edits : Monitor (Event Service) where
  State := Option (String × ℚ)
  next := editNext
  allows p e :=
    match e.call with
    | .hget _ field => field = "USDT"
    | .hset key field amount => field = "USDT" ∧ 0 ≤ amount ∧ ∃ prev, p = some (key, prev)
    | .hincrbyfloat _ _ _ => False
    | _ => True

@[reducible] def fits : Monitor (Event Service) where
  State := Option (String × ℚ)
  next := editNext
  allows p e :=
    match e.call with
    | .hset _ _ amount => ∀ prev ∈ p, |amount - prev.2| < colMax
    | _ => True

/-- The executor does not increment a balance between the operator's read and overwrite. -/
@[reducible] def undisturbed : Monitor (BalanceTask × Event Service) where
  State := Option (String × ℚ)
  next p ie :=
    match ie.1 with
    | .operator => editNext p ie.2
    | .executor => p
  allows p ie :=
    match ie.1, ie.2.call with
    | .executor, .hincrbyfloat key _ _ => ∀ prev ∈ p, prev.1 ≠ key
    | _, _ => True

instance (p : fits.State) (e : Event Service) : Decidable (fits.allows p e) := by
  obtain ⟨c, -⟩ := e
  cases c with
  | hset key field amount =>
    exact inferInstanceAs (Decidable (∀ prev ∈ p, |amount - prev.2| < colMax))
  | _ => exact .isTrue trivial

instance (p : undisturbed.State) (ie : BalanceTask × Event Service) :
    Decidable (undisturbed.allows p ie) := by
  unfold undisturbed
  dsimp only
  split <;> infer_instance

section Edits
variable {exchange : String}

theorem adjusted_append (p : Option (String × ℚ)) (es fs : List (Event Service)) :
    adjusted exchange p (es ++ fs) =
      adjusted exchange p es + adjusted exchange (edits.after p es) fs := by
  induction es generalizing p with
  | nil => exact (zero_add _).symm
  | cons e es ih =>
    simp only [List.cons_append, adjusted, ih, add_assoc]
    rfl

theorem editEvents_adjusted {now : ℚ} {balances : List (String × ℚ)} {vs : List (Option ℚ)}
    (p : Option (String × ℚ)) (hpos : ∀ b ∈ balances, 0 ≤ b.2)
    (hfits : fits.Accepts p (editEvents balances vs)) :
    edits.Accepts p (editEvents balances vs) ∧
      adjusted exchange p (editEvents balances vs) =
        rowsChange (editRows now balances vs) exchange := by
  induction balances generalizing vs p with
  | nil => simp [editEvents, editRows, adjusted, Monitor.Accepts]
  | cons b rest ih =>
    cases vs with
    | nil => simp [editEvents, editRows, adjusted, Monitor.Accepts]
    | cons v vs =>
      obtain ⟨-, hfit, hrest⟩ := hfits
      have hread : editNext p (readEvent b.1 v) = some (balanceKey b.1, v.getD 0) := rfl
      have hlt : |b.2 - v.getD 0| < colMax := hfit (balanceKey b.1, v.getD 0) hread
      obtain ⟨hacc, hsum⟩ := ih none (fun c hc => hpos c (List.mem_cons_of_mem _ hc)) hrest
      refine ⟨⟨rfl, ⟨rfl, hpos b List.mem_cons_self, v.getD 0, hread⟩, hacc⟩, ?_⟩
      have hrow : rowChange exchange (adjustmentRow now b.1 b.2 (b.2 - v.getD 0)) =
          if b.1 = exchange then b.2 - v.getD 0 else 0 := by
        simp [rowChange, adjustmentRow, not_le.mpr hlt]
      rw [editRows, rowsChange_cons, hrow, ← hsum]
      simp [editEvents, adjusted, editChange, editNext, readEvent]

theorem editEvents_unwritten (balances : List (String × ℚ)) (vs : List (Option ℚ)) :
    ∀ e ∈ editEvents balances vs, eventRows e = [] := by
  induction balances generalizing vs with
  | nil => simp [editEvents]
  | cons b rest ih =>
    cases vs with
    | nil => simp [editEvents]
    | cons v vs =>
      intro e he
      simp only [editEvents, List.mem_cons] at he
      rcases he with rfl | rfl | he
      · rfl
      · rfl
      · exact ih vs e he

theorem setBalances_adjusted {paper : Bool} {payload : BalanceUpdate}
    {es : List (Event Service)} {r : Except PyExc (Except HttpError (List (String × ℚ)))}
    {p : Option (String × ℚ)} (h : (setBalances paper payload).Goes es r)
    (hfits : fits.Accepts p es) :
    edits.Accepts p es ∧ adjusted exchange p es = written es exchange := by
  rcases setBalances_goes h with ⟨err, -, rfl, -⟩ | ⟨hrej, -, now, vs, -, rfl⟩
  · exact ⟨trivial, rfl⟩
  · have hpos : ∀ b ∈ payload.balances, 0 ≤ b.2 := fun b hb =>
      ((rejection_none hrej).2 b hb).2.1
    obtain ⟨hfits, -⟩ := (fits.accepts_append _ _ _).mp hfits.2
    obtain ⟨hacc, hsum⟩ : edits.Accepts p (editEvents payload.balances vs) ∧
        adjusted exchange p (editEvents payload.balances vs) =
          rowsChange (editRows now payload.balances vs) exchange :=
      editEvents_adjusted p hpos hfits
    refine ⟨⟨trivial, (edits.accepts_append _ _ _).mpr ⟨hacc, trivial, trivial⟩⟩, ?_⟩
    have hrows : written (editEvents payload.balances vs) exchange = 0 :=
      written_eq_zero (editEvents_unwritten _ _) exchange
    have hhead : adjusted exchange p (⟨.time, .ok now⟩ :: (editEvents payload.balances vs ++
        [⟨.copyBalance (editRows now payload.balances vs), .ok ()⟩])) =
        adjusted exchange p (editEvents payload.balances vs ++
          [⟨.copyBalance (editRows now payload.balances vs), .ok ()⟩]) := zero_add _
    rw [hhead, adjusted_append, hsum, written_cons, written_append, hrows, written_cons]
    simp [adjusted, editChange, eventRows, carriedOut]

theorem editBalances_adjusted {paper : Bool} {requests : List BalanceUpdate}
    {es : List (Event Service)} {r : Except PyExc Unit} {p : Option (String × ℚ)}
    (h : (editBalances paper requests).Goes es r) (hfits : fits.Accepts p es) :
    edits.Accepts p es ∧ adjusted exchange p es = written es exchange := by
  induction requests generalizing es p with
  | nil =>
    obtain ⟨rfl, -⟩ := (Prog.goes_pure _ _ _).mp h
    exact ⟨trivial, rfl⟩
  | cons payload rest ih =>
    rw [editBalances, Prog.goes_bind] at h
    rcases h with ⟨resp, es₁, es₂, rfl, h₁, h₂⟩ | ⟨x, h₁, -⟩
    · obtain ⟨hfits₁, hfits₂⟩ := (fits.accepts_append _ _ _).mp hfits
      obtain ⟨hacc₁, hsum₁⟩ := setBalances_adjusted h₁ hfits₁
      obtain ⟨hacc₂, hsum₂⟩ := ih h₂ hfits₂
      refine ⟨(edits.accepts_append _ _ _).mpr ⟨hacc₁, hacc₂⟩, ?_⟩
      rw [adjusted_append, hsum₁, written_append, ← hsum₂]
      rfl
    · exact setBalances_adjusted h₁ hfits

end Edits

theorem serve_hashes_other {c : Call} {key : String} (hc : c.overwrites = false)
    (hk : ∀ key' field delta, c = .hincrbyfloat key' field delta → key ≠ key') (w : World) :
    (World.serve c w).2.hashes key = w.hashes key := by
  rw [serve_snd]
  split
  · cases c with
    | hincrbyfloat key' field delta =>
      exact Function.update_of_ne (hk key' field delta rfl) _ _
    | hset key' field value => cases hc
    | _ => rfl
  · rfl

/-- A balance changes by the increments of the executor and the adjustments of the
operator, as long as no increment disturbs an edit. -/
theorem follows_adjusted {log : List (BalanceTask × Event Service)} {w w' : World}
    {p : Option (String × ℚ)} (hw : w.Calm) (hf : Follows World.serve w (merged log) w')
    (hexec : ∀ e ∈ own .executor log, e.call.overwrites = false)
    (hedits : edits.Accepts p (own .operator log)) (hund : undisturbed.Accepts p log)
    (hread : ∀ prev ∈ p, (w.hashes prev.1 "USDT").getD 0 = prev.2) (exchange : String) :
    w'.balanceOf exchange = w.balanceOf exchange + moved (own .executor log) exchange +
      adjusted exchange p (own .operator log) := by
  induction log generalizing w p with
  | nil =>
    cases hf
    simp [own, adjusted]
  | cons je log ih =>
    obtain ⟨task, c, v⟩ := je
    obtain ⟨hv, hf⟩ := hf
    change v = (World.serve c w).1 at hv
    have hcalm : (World.serve c w).2.Calm := fun n => by
      rw [serve_outside]
      exact hw n
    cases task with
    | executor =>
      rw [own_cons_self] at hexec ⊢
      rw [own_cons_other (by simp)] at hedits ⊢
      have hc : c.overwrites = false := hexec _ List.mem_cons_self
      rw [ih hcalm hf (fun e he => hexec e (List.mem_cons_of_mem _ he)) hedits hund.2 ?_,
        moved_cons, serve_balanceOf exchange c w hc, ← hv, ← add_assoc]
      intro prev hprev
      rw [← hread prev hprev, serve_hashes_other hc fun key field delta hcall => ?_]
      subst hcall
      exact hund.1 prev hprev
    | operator =>
      rw [own_cons_other (by simp)] at hexec ⊢
      rw [own_cons_self] at hedits ⊢
      have hkeep : ∀ prev, (c.sparesBalances = true) → adjusted exchange p
          (⟨c, v⟩ :: own .operator log) = adjusted exchange prev (own .operator log) →
          editNext p ⟨c, v⟩ = prev → (∀ q ∈ prev, (w.hashes q.1 "USDT").getD 0 = q.2) →
          w'.balanceOf exchange = w.balanceOf exchange + moved (own .executor log) exchange +
            adjusted exchange p (⟨c, v⟩ :: own .operator log) := by
        intro prev hspare hadj hnext hprev
        have hsame := serve_hashes hspare w
        subst hnext
        rw [hadj, ih hcalm hf hexec hedits.2 hund.2 (fun q hq => by rw [hsame]; exact hprev q hq),
          balanceOf_congr hsame]
      cases c with
      | hget key field =>
        obtain ⟨hfield, -⟩ := hedits
        have hfield : field = "USDT" := hfield
        rw [serve_calm hw] at hv
        subst hv hfield
        refine hkeep (some (key, (w.hashes key "USDT").getD 0)) rfl (zero_add _) rfl ?_
        intro q hq
        cases hq
        rfl
      | hset key field amount =>
        obtain ⟨⟨hfield, -, prev, hpend⟩, hrest⟩ := hedits
        subst hfield hpend
        have hprev : (w.hashes key "USDT").getD 0 = prev := hread (key, prev) rfl
        have hafter : (World.serve (.hset key "USDT" amount) w).2.balanceOf exchange =
            w.balanceOf exchange + if key = balanceKey exchange then amount - prev else 0 := by
          rw [serve_calm hw]
          simp only [World.effect, World.next, World.setHash, World.arrive, World.balanceOf]
          by_cases hk : key = balanceKey exchange
          · subst hk
            simp [hprev]
          · simp [hk, Function.update_of_ne (Ne.symm hk)]
        rw [ih hcalm hf hexec hrest hund.2 (by simp [editNext]), hafter]
        simp only [adjusted, editChange, editNext]
        ring
      | hincrbyfloat key field delta => exact hedits.1.elim
      | _ => exact hkeep p rfl (zero_add _) rfl hread

def touchedNext (t : String → Bool) : BalanceTask × Event Service → String → Bool
  | (.operator, ⟨.hset key _ _, _⟩) => Function.update t key true
  | (.executor, ⟨.hget key _, _⟩) => Function.update t key false
  | (.executor, ⟨.hincrbyfloat key _ _, _⟩) => Function.update t key false
  | _ => t

/-- An increment of a balance overwritten meanwhile leaves it non-negative. -/
@[reducible] def covered : Monitor (BalanceTask × Event Service) where
  State := String → Bool
  next := touchedNext
  allows t
    | (.executor, ⟨.hincrbyfloat key _ _, .ok v⟩) => t key = true → 0 ≤ (v : ℚ)
    | _ => True

@[reducible] def solvent : Monitor (BalanceTask × Event Service) where
  State := Unit
  next _ _ := ()
  allows _
    | (_, ⟨.hincrbyfloat _ _ _, .ok v⟩) => 0 ≤ (v : ℚ)
    | _ => True

def balanceMonitor : BalanceTask → Monitor (Event Service)
  | .executor => prudent
  | .operator => edits

structure Watched (w : World) (q : (i : BalanceTask) → (balanceMonitor i).State)
    (t : String → Bool) (_ : Unit) : Prop where
  calm : w.Calm
  nonneg : w.NonNegative
  seen : ∀ key b, t key = false → (q .executor : String → Option ℚ) key = some b →
    (w.hashes key "USDT").getD 0 = b

theorem setHash_nonneg {w : World} (h : w.NonNegative) (key : String) {v : ℚ} (hv : 0 ≤ v) :
    (w.setHash key "USDT" v).NonNegative := by
  intro ex
  by_cases hkey : balanceKey ex = key
  · subst hkey
    simpa [World.balanceOf, World.setHash] using hv
  · simpa [World.balanceOf, World.setHash, Function.update_of_ne hkey] using h ex

theorem setHash_getD_ne {w : World} {key other : String} (hkey : other ≠ key) (v : ℚ) :
    ((w.setHash key "USDT" v).hashes other "USDT").getD 0 = (w.hashes other "USDT").getD 0 := by
  simp [World.setHash, Function.update_of_ne hkey]

section Watched
variable {w : World} {q : (i : BalanceTask) → (balanceMonitor i).State} {t : String → Bool}
  {u : Unit}

theorem Watched.calm_next (h : Watched w q t u) (c : Call) : (World.serve c w).2.Calm := by
  intro n
  rw [serve_outside]
  exact h.calm n

theorem Watched.kept (h : Watched w q t u) {c : Call} (hc : c.sparesBalances = true)
    {q' : (i : BalanceTask) → (balanceMonitor i).State} (hq : q' .executor = q .executor) :
    Watched (World.serve c w).2 q' t u := by
  have hsame := serve_hashes hc w
  refine ⟨h.calm_next c, fun ex => ?_, fun key b ht hb => ?_⟩
  · rw [balanceOf_congr hsame]
    exact h.nonneg ex
  · rw [hsame]
    rw [hq] at hb
    exact h.seen key b ht hb

theorem Watched.incr (h : Watched w q t u) {key field : String} {delta : ℚ}
    (hi : prudent.allows (q .executor)
      ⟨.hincrbyfloat key field delta, (World.serve (.hincrbyfloat key field delta) w).1⟩)
    (ha : covered.allows t (.executor,
      ⟨.hincrbyfloat key field delta, (World.serve (.hincrbyfloat key field delta) w).1⟩))
    {q' : (i : BalanceTask) → (balanceMonitor i).State}
    (hq : q' .executor = seenNext (q .executor)
      ⟨.hincrbyfloat key field delta, (World.serve (.hincrbyfloat key field delta) w).1⟩) :
    solvent.allows u (.executor,
        ⟨.hincrbyfloat key field delta, (World.serve (.hincrbyfloat key field delta) w).1⟩) ∧
      Watched (World.serve (.hincrbyfloat key field delta) w).2 q' (Function.update t key false)
        u := by
  have hcalm' := h.calm_next (.hincrbyfloat key field delta)
  rw [serve_calm h.calm] at hi ha hq hcalm' ⊢
  obtain ⟨hfield, ⟨ex, hkey⟩, hfit⟩ := hi
  subst hfield hkey
  have hv : 0 ≤ w.balanceOf ex + delta := by
    rcases hfit with h' | h' | ⟨b, hb, hfit⟩
    · exact h'
    · exact add_nonneg (h.nonneg ex) h'
    · cases ht : t (balanceKey ex) with
      | true => exact ha ht
      | false =>
        have hbal : w.balanceOf ex = b := h.seen _ b ht hb
        have hposb := h.nonneg ex
        rw [hbal] at hposb ⊢
        exact hfit hposb
  refine ⟨hv, hcalm', setHash_nonneg h.nonneg (balanceKey ex) hv, fun key b ht hb => ?_⟩
  rw [hq] at hb
  by_cases hkey : key = balanceKey ex
  · subst hkey
    have hb' : some (w.balanceOf ex + delta) = some b :=
      (seenNext_incr (q .executor) _ _ _ _).symm.trans hb
    rw [← Option.some.inj hb']
    simp [World.balanceOf, World.effect, World.setHash, World.next, World.arrive]
  · have ht' : t key = false := (Function.update_of_ne hkey _ _).symm.trans ht
    have hb' : (q .executor : String → Option ℚ) key = some b :=
      (Function.update_of_ne hkey _ _).symm.trans hb
    exact (setHash_getD_ne hkey _).trans (h.seen key b ht' hb')

theorem Watched.read (h : Watched w q t u) (key : String)
    {q' : (i : BalanceTask) → (balanceMonitor i).State}
    (hq : q' .executor =
      seenNext (q .executor) ⟨.hget key "USDT", (World.serve (.hget key "USDT") w).1⟩) :
    Watched (World.serve (.hget key "USDT") w).2 q' (Function.update t key false) u := by
  have hsame : (World.serve (.hget key "USDT") w).2.hashes = w.hashes := serve_hashes rfl w
  refine ⟨h.calm_next _, fun ex => ?_, fun other b ht hb => ?_⟩
  · rw [balanceOf_congr hsame]
    exact h.nonneg ex
  · rw [hsame]
    rw [hq, serve_calm h.calm] at hb
    by_cases hkey : other = key
    · subst hkey
      have hb' : some ((w.hashes other "USDT").getD 0) = some b :=
        (seenNext_read (q .executor) _ _ _).symm.trans hb
      exact Option.some.inj hb'
    · exact h.seen other b ((Function.update_of_ne hkey _ _).symm.trans ht)
        ((Function.update_of_ne hkey _ _).symm.trans hb)

theorem Watched.edit (h : Watched w q t u) (key : String) {amount : ℚ} (hamount : 0 ≤ amount)
    {q' : (i : BalanceTask) → (balanceMonitor i).State} (hq : q' .executor = q .executor) :
    Watched (World.serve (.hset key "USDT" amount) w).2 q' (Function.update t key true) u := by
  have hcalm' := h.calm_next (.hset key "USDT" amount)
  rw [serve_calm h.calm] at hcalm' ⊢
  refine ⟨hcalm', setHash_nonneg h.nonneg key hamount, fun other b ht hb => ?_⟩
  rw [hq] at hb
  by_cases hkey : other = key
  · subst hkey
    have ht' : true = false := (Function.update_self _ _ _).symm.trans ht
    cases ht'
  · have ht' : t other = false := (Function.update_of_ne hkey _ _).symm.trans ht
    exact (setHash_getD_ne hkey _).trans (h.seen other b ht' hb)

end Watched

theorem watched_step (w : World) (q : (i : BalanceTask) → (balanceMonitor i).State)
    (t : String → Bool) (u : Unit) (i : BalanceTask) (c : Call) (h : Watched w q t u)
    (hi : (balanceMonitor i).allows (q i) ⟨c, (World.serve c w).1⟩)
    (ha : covered.allows t (i, ⟨c, (World.serve c w).1⟩)) :
    solvent.allows u (i, ⟨c, (World.serve c w).1⟩) ∧
      Watched (World.serve c w).2
        (Function.update q i ((balanceMonitor i).next (q i) ⟨c, (World.serve c w).1⟩))
        (covered.next t (i, ⟨c, (World.serve c w).1⟩))
        (solvent.next u (i, ⟨c, (World.serve c w).1⟩)) := by
  cases i with
  | executor =>
    have hnext : (Function.update q .executor ((balanceMonitor .executor).next (q .executor)
        ⟨c, (World.serve c w).1⟩)) .executor =
        seenNext (q .executor) ⟨c, (World.serve c w).1⟩ := Function.update_self _ _ _
    cases c with
    | hincrbyfloat key field delta => exact h.incr hi ha hnext
    | hget key field =>
      have hfield : field = "USDT" := hi
      subst hfield
      exact ⟨trivial, h.read key hnext⟩
    | hset key field value => exact hi.elim
    | _ => exact ⟨trivial, h.kept rfl hnext⟩
  | operator =>
    have hkeep : (Function.update q .operator ((balanceMonitor .operator).next (q .operator)
        ⟨c, (World.serve c w).1⟩)) .executor = q .executor := Function.update_of_ne (by simp) _ _
    cases c with
    | hset key field amount =>
      obtain ⟨hfield, hamount, -⟩ := hi
      subst hfield
      exact ⟨trivial, h.edit key hamount hkeep⟩
    | hincrbyfloat key field delta => exact hi.elim
    | _ => exact ⟨trivial, h.kept rfl hkeep⟩

theorem written_merged (log : List (BalanceTask × Event Service)) (exchange : String) :
    written (merged log) exchange =
      written (own .executor log) exchange + written (own .operator log) exchange := by
  induction log with
  | nil => simp [merged, own]
  | cons ie log ih =>
    obtain ⟨i, e⟩ := ie
    change written (e :: merged log) exchange = _
    cases i with
    | executor =>
      rw [own_cons_self, own_cons_other (by simp), written_cons, written_cons, ih, add_assoc]
    | operator =>
      rw [own_cons_self, own_cons_other (by simp), written_cons, written_cons, ih]
      ring

section
variable [PyText]

def balanceRun (engine : Engine) (n : ℕ) (paper : Bool) (requests : List BalanceUpdate)
    (schedule : List BalanceTask) (w : World) : Interleaved Service World BalanceTask Unit :=
  runTasks World.serve schedule (balanceTasks engine n paper requests) w

/-- Once both have finished, balances and history agree, if no increment of the executor
falls between the operator's read and overwrite of a balance, the differences fit their
column and every transfer is followed by its trade; and no balance has gone below zero, if
the executor debits no balance that was overwritten below the debit since it read it. -/
theorem balanceRun_agrees (engine : Engine) (n : ℕ) (paper : Bool)
    (requests : List BalanceUpdate) (schedule : List BalanceTask) (w : World)
    (hw : w.Calm) (hl : w.LedgerAgrees)
    (hexec : ((balanceRun engine n paper requests schedule w).tasks .executor).isDone = true)
    (hop : ((balanceRun engine n paper requests schedule w).tasks .operator).isDone = true)
    (hund : undisturbed.Accepts none (balanceRun engine n paper requests schedule w).log)
    (hfits : fits.Accepts none
      (own .operator (balanceRun engine n paper requests schedule w).log))
    (hsup : (supplied engine).Accepts .idle
      (own .executor (balanceRun engine n paper requests schedule w).log)) :
    (balanceRun engine n paper requests schedule w).state.LedgerAgrees ∧
      (w.NonNegative → 0 < engine.maxPositionPct → engine.maxPositionPct ≤ 10 →
        StartsScanned (own .executor (balanceRun engine n paper requests schedule w).log) →
        covered.Accepts (fun _ => false)
          (balanceRun engine n paper requests schedule w).log →
        solvent.Accepts () (balanceRun engine n paper requests schedule w).log ∧
          (balanceRun engine n paper requests schedule w).state.NonNegative) := by
  have hf : Follows World.serve w (merged (balanceRun engine n paper requests schedule w).log)
      (balanceRun engine n paper requests schedule w).state :=
    follows_runTasks World.serve schedule (balanceTasks engine n paper requests) w
  obtain ⟨r, hends⟩ := ends_of_isDone World.serve schedule _ w .executor hexec
  obtain ⟨r', hends'⟩ := ends_of_isDone World.serve schedule _ w .operator hop
  have hclean := clean_of_calm hw hf
  have hcleanOwn : ∀ i, Clean (own i (balanceRun engine n paper requests schedule w).log) :=
    fun i e he => hclean e (own_subset i _ e he)
  have hrun : LoopRun engine (own .executor (balanceRun engine n paper requests schedule w).log) :=
    consumeLoop_run hends fun e he _ => hcleanOwn .executor e he
  have hedits : ∀ exchange, edits.Accepts none
      (own .operator (balanceRun engine n paper requests schedule w).log) ∧
      adjusted exchange none (own .operator (balanceRun engine n paper requests schedule w).log) =
        written (own .operator (balanceRun engine n paper requests schedule w).log) exchange :=
    fun exchange => editBalances_adjusted ⟨hends', hcleanOwn .operator⟩ hfits
  have hover : ∀ e ∈ own .executor (balanceRun engine n paper requests schedule w).log,
      e.call.overwrites = false := by
    intro e he
    have hc := (consumeLoop_uses engine n).ends hends e he
    cases h : e.call <;> simp_all [Call.ofLoop, Call.ofEngine, Call.persists, Call.opensPass,
      Call.overwrites]
  constructor
  · intro exchange
    rw [follows_ledger hf, follows_adjusted hw hf hover (hedits exchange).1 hund (by simp) exchange,
      (hedits exchange).2, hl exchange, loopRun_supplied hrun (hcleanOwn .executor) hsup exchange,
      written_merged, add_assoc]
  · intro hpos hpct hpct' hscan hcov
    let q : (i : BalanceTask) → (balanceMonitor i).State
      | .executor => fun _ => (none : Option ℚ)
      | .operator => (none : Option (String × ℚ))
    have hstart : Watched w q (fun _ => false) () := ⟨hw, hpos, fun key b _ hb => by cases hb⟩
    have hown : ∀ i, (balanceMonitor i).Accepts (q i)
        (own i (balanceRun engine n paper requests schedule w).log) := by
      intro i
      cases i with
      | executor =>
        exact loopRun_prudent hrun (hcleanOwn .executor) hsup hscan ⟨hpct, hpct'⟩ _
      | operator => exact (hedits "").1
    obtain ⟨hsolvent, q', t', hend⟩ := accepts_of_tasks World.serve balanceMonitor covered solvent
      Watched (fun w q t u i c => watched_step w q t u i c) hf hstart hown hcov
    exact ⟨hsolvent, hend.nonneg⟩

end

/-- 10000 everywhere and one opportunity, bought on binance for 1000 and a fee of one. -/
def editedWorld : World :=
  sampleWorld sampleOutside (balanceExchanges.map fun ex => (ex, 10000))
    [sampleOpportunity "binance" "bybit" (1 / 10) (1 / 10)]

def binanceUpdate (amount : ℚ) : BalanceUpdate :=
  ⟨[("binance", amount)], by simp, by simp⟩

instance (t : covered.State) (ie : BalanceTask × Event Service) :
    Decidable (covered.allows t ie) := by
  unfold covered
  dsimp only
  split <;> infer_instance

/-- The operator's edit before the executor reads: both are in the history. -/
theorem balanceRun_agrees_apart :
    (@balanceRun sampleText ⟨10, 100⟩ 1 true [binanceUpdate 5000]
        (.replicate 4 .operator ++ .replicate 30 .executor) editedWorld).state.LedgerAgrees ∧
      (@balanceRun sampleText ⟨10, 100⟩ 1 true [binanceUpdate 5000]
        (.replicate 4 .operator ++ .replicate 30 .executor) editedWorld).state.NonNegative := by
  obtain ⟨hledger, hpos⟩ := @balanceRun_agrees sampleText ⟨10, 100⟩ 1 true [binanceUpdate 5000]
    (.replicate 4 .operator ++ .replicate 30 .executor) editedWorld (fun _ => rfl)
    (sampleWorld_seeded _ _ _).agrees (by decide +kernel) (by decide +kernel)
    (by decide +kernel) (by decide +kernel) (by decide +kernel)
  refine ⟨hledger, (hpos (sampleWorld_nonneg _ _ _ ?_) ?_ ?_ ?_ ?_).2⟩ <;> decide +kernel

/-- An increment between the operator's read and overwrite is lost: Redis says 5000, the
history 3999. An overwrite between the executor's read and its debit leaves -996. -/
theorem balanceRun_loses_increment :
    editedWorld.Calm ∧ editedWorld.Seeded ∧
      (@balanceRun sampleText ⟨10, 100⟩ 1 true [binanceUpdate 5000]
        (.replicate 2 .operator ++ .replicate 30 .executor ++ .replicate 2 .operator)
        editedWorld).state.balanceOf "binance" = 5000 ∧
      (@balanceRun sampleText ⟨10, 100⟩ 1 true [binanceUpdate 5000]
        (.replicate 2 .operator ++ .replicate 30 .executor ++ .replicate 2 .operator)
        editedWorld).state.ledger "binance" = 3999 ∧
      (@balanceRun sampleText ⟨10, 100⟩ 1 true [binanceUpdate 5]
        (.replicate 9 .executor ++ .replicate 4 .operator ++ .replicate 30 .executor)
        editedWorld).state.balanceOf "binance" = -996 :=
  ⟨fun _ => rfl, sampleWorld_seeded _ _ _, by decide +kernel, by decide +kernel,
    by decide +kernel⟩

end CriptoParser
