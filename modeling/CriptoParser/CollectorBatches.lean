import CriptoParser.CollectorWriter

set_option autoImplicit false

namespace CriptoParser

open Await Streams

/-- What a part of a run adds: rows in the table, calls made, rows counted. -/
structure Moves (w w' : WriterWorld) (rows : List PriceRow) (calls written : ℕ) : Prop where
  prices : w'.prices = w.prices ++ rows
  tick : w'.tick = w.tick + calls
  outside : w'.outside = w.outside
  groups : w'.stream.groups = w.stream.groups
  written : w'.rowsWritten = w.rowsWritten + written

theorem Moves.refl (w : WriterWorld) : Moves w w [] 0 0 :=
  ⟨by simp, rfl, rfl, rfl, rfl⟩

theorem Moves.trans {a b c : WriterWorld} {rows rows' : List PriceRow} {k k' n n' : ℕ}
    (h : Moves a b rows k n) (h' : Moves b c rows' k' n') :
    Moves a c (rows ++ rows') (k + k') (n + n') := by
  refine ⟨?_, ?_, h'.outside.trans h.outside, h'.groups.trans h.groups, ?_⟩
  · rw [h'.prices, h.prices, List.append_assoc]
  · rw [h'.tick, h.tick, Nat.add_assoc]
  · rw [h'.written, h.written, Nat.add_assoc]

section Calls
variable (w : WriterWorld)

theorem writer_serve_snd (c : WriterCall) :
    (WriterWorld.serve c w).2 =
      if carried (w.fault c) then (w.arrive.effect c).next else w.arrive.next := by
  unfold WriterWorld.serve
  cases w.fault c <;> rfl

def copied (rows : List PriceRow) : List PriceRow :=
  if rows.all PriceRow.accepted && carried w.now.fault then rows.map PriceRow.stored else []

theorem arrived_moves : Moves w w.arrive.next [] 1 0 :=
  ⟨by simp [WriterWorld.arrive, WriterWorld.next], rfl, rfl, rfl, rfl⟩

theorem copy_moves (rows : List PriceRow) :
    Moves w (WriterWorld.serve (.copyPrices rows) w).2 (copied w rows) 1 0 := by
  rw [writer_serve_snd, copied]
  cases hall : rows.all PriceRow.accepted with
  | true =>
    have hfault : w.fault (.copyPrices rows) = w.now.fault := by
      simp [WriterWorld.fault, hall]
    have heffect : w.arrive.effect (.copyPrices rows) =
        { w.arrive with prices := w.prices ++ rows.map PriceRow.stored } := by
      simp [WriterWorld.effect, hall, WriterWorld.arrive]
    rw [hfault, heffect, Bool.true_and]
    cases carried w.now.fault with
    | true => exact ⟨rfl, rfl, rfl, rfl, rfl⟩
    | false => exact arrived_moves w
  | false =>
    have heffect : w.arrive.effect (.copyPrices rows) = w.arrive := by
      simp [WriterWorld.effect, hall]
    rw [heffect, ite_self]
    exact arrived_moves w

theorem insert_eq_copy (row : PriceRow) :
    (WriterWorld.serve (.insertPrice row) w).2 =
        (WriterWorld.serve (.copyPrices [row]) w).2 ∧
      w.fault (.insertPrice row) = w.fault (.copyPrices [row]) := by
  have hfault : w.fault (.insertPrice row) = w.fault (.copyPrices [row]) := by
    simp [WriterWorld.fault]
  refine ⟨?_, hfault⟩
  rw [writer_serve_snd, writer_serve_snd, hfault]
  simp [WriterWorld.effect]

theorem addWritten_moves (n : ℕ) :
    Moves w (WriterWorld.serve (.addWritten n) w).2 [] 1 n :=
  ⟨by simp [WriterWorld.serve, WriterWorld.fault, WriterWorld.effect, WriterWorld.arrive,
    WriterWorld.next], rfl, rfl, rfl, rfl⟩

theorem copy_returns {rows : List PriceRow} :
    w.fault (.copyPrices rows) = none ↔ w.now.fault = none ∧ rows.all PriceRow.accepted = true := by
  cases h : rows.all PriceRow.accepted <;> cases hf : w.now.fault <;>
    simp [WriterWorld.fault, h, hf]

theorem copy_exception {rows : List PriceRow} {x : PyExc}
    (h : w.fault (.copyPrices rows) = some x) :
    x.isException = true ↔ ∀ y ∈ w.now.fault, y.isException = true := by
  cases hf : w.now.fault with
  | none =>
    have hx : x = .callFailed false := by
      cases hall : rows.all PriceRow.accepted <;> simp_all [WriterWorld.fault]
    simp [hx, PyExc.isException]
  | some y =>
    have hx : y = x := by simpa [WriterWorld.fault, hf] using h
    simp [hx]

end Calls

def Uncancelled (outside : ℕ → WriterOutside) (t : ℕ) (rows : List PriceRow) : Prop :=
  ∀ r ∈ rows.zipIdx t, ∀ x ∈ (outside r.2).fault, x.isException = true

def insertedRows (outside : ℕ → WriterOutside) (t : ℕ) (rows : List PriceRow) :
    List PriceRow :=
  ((rows.zipIdx t).filter fun r => r.1.accepted && carried (outside r.2).fault).map
    fun r => r.1.stored

def insertedCount (outside : ℕ → WriterOutside) (t : ℕ) (rows : List PriceRow) : ℕ :=
  (rows.zipIdx t).countP fun r => r.1.accepted && (outside r.2).fault.isNone

def insertOne (row : PriceRow) (ok : ℕ) : Prog Writer ℕ :=
  (do
    Prog.call (S := Writer) (.insertPrice row)
    return ok + 1 : Prog Writer ℕ).handle fun x =>
      if x.isException then pure ok else Prog.lift (.error x)

theorem insertEach_cons (row : PriceRow) (rest : List PriceRow) (ok : ℕ) :
    insertEach (row :: rest) ok = insertOne row ok >>= insertEach rest := rfl

theorem insertOne_run (row : PriceRow) (ok : ℕ) (w : WriterWorld) :
    (insertOne row ok).run WriterWorld.serve w =
      match w.fault (.copyPrices [row]) with
      | none => (.ok (ok + 1), (WriterWorld.serve (.copyPrices [row]) w).2)
      | some x => (if x.isException then .ok ok else .error x,
          (WriterWorld.serve (.copyPrices [row]) w).2) := by
  obtain ⟨hsame, hfault⟩ := insert_eq_copy w row
  have hcall : (do
      Prog.call (S := Writer) (.insertPrice row)
      return ok + 1 : Prog Writer ℕ).run WriterWorld.serve w =
        match w.fault (.insertPrice row) with
        | none => (.ok (ok + 1), (WriterWorld.serve (.insertPrice row) w).2)
        | some x => (.error x, (WriterWorld.serve (.insertPrice row) w).2) := by
    rw [Prog.run_bind]
    have hserve : (WriterWorld.serve (.insertPrice row) w).1 =
        match w.fault (.insertPrice row) with
        | none => .ok ()
        | some x => .error x := by
      unfold WriterWorld.serve
      cases w.fault (.insertPrice row) <;> rfl
    rw [Prog.run_call, hserve]
    cases w.fault (.insertPrice row) <;> rfl
  rw [insertOne, Prog.run_handle, hcall, hsame, hfault]
  cases w.fault (.copyPrices [row]) with
  | none => rfl
  | some x =>
    dsimp only
    cases x.isException <;> rfl

theorem uncancelled_cons {outside : ℕ → WriterOutside} {t : ℕ} {row : PriceRow}
    {rest : List PriceRow} : Uncancelled outside t (row :: rest) ↔
      (∀ x ∈ (outside t).fault, x.isException = true) ∧ Uncancelled outside (t + 1) rest := by
  simp [Uncancelled, List.zipIdx_cons]

theorem insertedRows_cons (outside : ℕ → WriterOutside) (t : ℕ) (row : PriceRow)
    (rest : List PriceRow) : insertedRows outside t (row :: rest) =
      (if row.accepted && carried (outside t).fault then [row.stored] else []) ++
        insertedRows outside (t + 1) rest := by
  rw [insertedRows, List.zipIdx_cons, List.filter_cons]
  split <;> simp [insertedRows]

theorem insertedCount_cons (outside : ℕ → WriterOutside) (t : ℕ) (row : PriceRow)
    (rest : List PriceRow) : insertedCount outside t (row :: rest) =
      (if row.accepted && (outside t).fault.isNone then 1 else 0) +
        insertedCount outside (t + 1) rest := by
  rw [insertedCount, List.zipIdx_cons, List.countP_cons, insertedCount, Nat.add_comm]

theorem insertEach_run {rows : List PriceRow} {w : WriterWorld}
    (h : Uncancelled w.outside w.tick rows) (ok : ℕ) :
    ((insertEach rows ok).run WriterWorld.serve w).1 =
        .ok (ok + insertedCount w.outside w.tick rows) ∧
      Moves w ((insertEach rows ok).run WriterWorld.serve w).2
        (insertedRows w.outside w.tick rows) rows.length 0 := by
  induction rows generalizing w ok with
  | nil => exact ⟨rfl, Moves.refl w⟩
  | cons row rest ih =>
    obtain ⟨hrow, hrest⟩ := uncancelled_cons.mp h
    have hmove := copy_moves w [row]
    rw [insertEach_cons, Prog.run_bind, insertOne_run, insertedRows_cons, insertedCount_cons]
    generalize hw₁ : (WriterWorld.serve (.copyPrices [row]) w).2 = w₁ at hmove ⊢
    rw [← hmove.outside, ← hmove.tick] at hrest
    have hcopied : copied w [row] =
        if row.accepted && carried (w.outside w.tick).fault then [row.stored] else [] := by
      simp [copied, WriterWorld.now]
    rw [hcopied] at hmove
    cases hfault : w.fault (.copyPrices [row]) with
    | none =>
      obtain ⟨hnone, hacc⟩ := (copy_returns w).mp hfault
      obtain ⟨hreply, hmoves⟩ := ih hrest (ok + 1)
      have hcount : (row.accepted && (w.outside w.tick).fault.isNone) = true := by
        have hnow : (w.outside w.tick).fault = none := hnone
        simpa [hnow] using hacc
      rw [hmove.outside, hmove.tick] at hreply hmoves
      refine ⟨?_, ?_⟩
      · rw [hcount, if_pos rfl, hreply, Nat.add_assoc]
      · have hall := hmove.trans hmoves
        rwa [Nat.add_comm 1] at hall
    | some x =>
      have hx : x.isException = true := (copy_exception w hfault).mpr hrow
      obtain ⟨hreply, hmoves⟩ := ih hrest ok
      have hcount : (row.accepted && (w.outside w.tick).fault.isNone) = false := by
        by_contra hne
        have hboth := Bool.and_eq_true_iff.mp (Bool.eq_true_of_not_eq_false hne)
        have hreturns := (@copy_returns w [row]).mpr
          ⟨Option.isNone_iff_eq_none.mp hboth.2, by simpa using hboth.1⟩
        rw [hreturns] at hfault
        cases hfault
      rw [hmove.outside, hmove.tick] at hreply hmoves
      simp only [hx, if_true]
      refine ⟨?_, ?_⟩
      · rw [hcount, if_neg Bool.false_ne_true, hreply, Nat.zero_add]
      · have hall := hmove.trans hmoves
        rwa [Nat.add_comm 1] at hall

theorem insertEach_cancelled {rows : List PriceRow} {w : WriterWorld}
    (h : ¬Uncancelled w.outside w.tick rows) (ok : ℕ) :
    ∃ x, ((insertEach rows ok).run WriterWorld.serve w).1 = .error x ∧
      ((insertEach rows ok).run WriterWorld.serve w).2.stream.groups = w.stream.groups := by
  induction rows generalizing w ok with
  | nil => exact absurd (by simp [Uncancelled]) h
  | cons row rest ih =>
    have hmove := copy_moves w [row]
    rw [insertEach_cons, Prog.run_bind, insertOne_run]
    generalize (WriterWorld.serve (.copyPrices [row]) w).2 = w₁ at hmove ⊢
    have hnext : (∀ x ∈ w.now.fault, x.isException = true) →
        ¬Uncancelled w₁.outside w₁.tick rest := by
      intro hrow hrest
      rw [hmove.outside, hmove.tick] at hrest
      exact h (uncancelled_cons.mpr ⟨hrow, hrest⟩)
    cases hfault : w.fault (.copyPrices [row]) with
    | none =>
      have hnone := ((copy_returns w).mp hfault).1
      obtain ⟨x, hreply, hgroups⟩ := ih (hnext (by simp [hnone])) (ok + 1)
      exact ⟨x, hreply, hgroups.trans hmove.groups⟩
    | some x =>
      cases hx : x.isException with
      | false =>
        simp only [hx, Bool.false_eq_true, if_false]
        exact ⟨x, rfl, hmove.groups⟩
      | true =>
        simp only [hx, if_true]
        obtain ⟨y, hreply, hgroups⟩ := ih (hnext ((copy_exception w hfault).mp hx)) ok
        exact ⟨y, hreply, hgroups.trans hmove.groups⟩

def CopyReturns (w : WriterWorld) (rows : List PriceRow) : Prop :=
  w.now.fault = none ∧ rows.all PriceRow.accepted = true

instance (w : WriterWorld) (rows : List PriceRow) : Decidable (CopyReturns w rows) := by
  unfold CopyReturns
  infer_instance

def Passes (w : WriterWorld) (rows : List PriceRow) : Prop :=
  rows = [] ∨ CopyReturns w rows ∨
    (∀ x ∈ w.now.fault, x.isException = true) ∧ Uncancelled w.outside (w.tick + 1) rows

def batchStored (w : WriterWorld) (rows : List PriceRow) : List PriceRow :=
  if rows = [] then []
  else if CopyReturns w rows then rows.map PriceRow.stored
  else copied w rows ++ insertedRows w.outside (w.tick + 1) rows

def batchCalls (w : WriterWorld) (rows : List PriceRow) : ℕ :=
  if rows = [] then 0 else if CopyReturns w rows then 2 else rows.length + 2

def batchCounted (w : WriterWorld) (rows : List PriceRow) : ℕ :=
  if rows = [] then 0
  else if CopyReturns w rows then rows.length
  else insertedCount w.outside (w.tick + 1) rows

section Batch
variable {w : WriterWorld} {rows : List PriceRow}

theorem copyRows_run :
    (copyRows rows).run WriterWorld.serve w =
      match w.fault (.copyPrices rows) with
      | none => (.ok (), (WriterWorld.serve (.addWritten rows.length)
          (WriterWorld.serve (.copyPrices rows) w).2).2)
      | some x => (.error x, (WriterWorld.serve (.copyPrices rows) w).2) := by
  have hserve : (WriterWorld.serve (.copyPrices rows) w).1 =
      match w.fault (.copyPrices rows) with
      | none => .ok ()
      | some x => .error x := by
    unfold WriterWorld.serve
    cases w.fault (.copyPrices rows) <;> rfl
  rw [copyRows, Prog.run_bind, Prog.run_call, hserve]
  cases w.fault (.copyPrices rows) <;> rfl

theorem insertIndividually_run (h : Uncancelled w.outside w.tick rows) :
    ((insertIndividually rows).run WriterWorld.serve w).1 = .ok () ∧
      Moves w ((insertIndividually rows).run WriterWorld.serve w).2
        (insertedRows w.outside w.tick rows) (rows.length + 1)
        (insertedCount w.outside w.tick rows) := by
  obtain ⟨hreply, hmoves⟩ := insertEach_run h 0
  rw [insertIndividually, Prog.run_bind, hreply]
  refine ⟨rfl, ?_⟩
  have hall := hmoves.trans (addWritten_moves _ (0 + insertedCount w.outside w.tick rows))
  rw [List.append_nil, Nat.zero_add, Nat.zero_add] at hall
  rw [Nat.zero_add]
  exact hall

theorem writeRows_run (h : Passes w rows) :
    ((writeRows rows).run WriterWorld.serve w).1 = .ok () ∧
      Moves w ((writeRows rows).run WriterWorld.serve w).2 (batchStored w rows)
        (batchCalls w rows) (batchCounted w rows) := by
  unfold writeRows batchStored batchCalls batchCounted
  by_cases hempty : rows = []
  · simp only [hempty, if_true]
    exact ⟨rfl, Moves.refl w⟩
  · have hcopy := copy_moves w rows
    simp only [if_neg hempty]
    rw [Prog.run_handle, copyRows_run]
    by_cases hreturns : CopyReturns w rows
    · have hfault := (copy_returns w).mpr hreturns
      have hcopied : copied w rows = rows.map PriceRow.stored := by
        simp [copied, hreturns.2, hreturns.1, carried]
      rw [hcopied] at hcopy
      simp only [hfault, if_pos hreturns]
      refine ⟨trivial, ?_⟩
      have hall := hcopy.trans (addWritten_moves _ rows.length)
      rwa [List.append_nil, Nat.zero_add] at hall
    · obtain ⟨hnow, hinserts⟩ := (h.resolve_left hempty).resolve_left hreturns
      cases hfault : w.fault (.copyPrices rows) with
      | none => exact absurd ((copy_returns w).mp hfault) hreturns
      | some x =>
        have hx : x.isException = true := (copy_exception w hfault).mpr hnow
        simp only [hx, if_true, if_neg hreturns]
        rw [← hcopy.outside, ← hcopy.tick] at hinserts
        obtain ⟨hreply, hmoves⟩ := insertIndividually_run hinserts
        refine ⟨hreply, ?_⟩
        rw [hcopy.outside, hcopy.tick] at hmoves
        have hall := hcopy.trans hmoves
        rwa [Nat.zero_add, Nat.add_comm 1] at hall

theorem writeRows_cancelled (h : ¬Passes w rows) :
    ∃ x, ((writeRows rows).run WriterWorld.serve w).1 = .error x ∧
      ((writeRows rows).run WriterWorld.serve w).2.stream.groups = w.stream.groups := by
  obtain ⟨hempty, hother⟩ := not_or.mp h
  obtain ⟨hreturns, hstop⟩ := not_or.mp hother
  have hcopy := copy_moves w rows
  rw [writeRows, if_neg hempty, Prog.run_handle, copyRows_run]
  cases hfault : w.fault (.copyPrices rows) with
  | none => exact absurd ((copy_returns w).mp hfault) hreturns
  | some x =>
    cases hx : x.isException with
    | false =>
      simp only [hx, Bool.false_eq_true, if_false]
      exact ⟨x, rfl, hcopy.groups⟩
    | true =>
      simp only [hx, if_true]
      have hcancelled : ¬Uncancelled (WriterWorld.serve (.copyPrices rows) w).2.outside
          (WriterWorld.serve (.copyPrices rows) w).2.tick rows := by
        rw [hcopy.outside, hcopy.tick]
        exact fun hinserts => hstop ⟨(copy_exception w hfault).mp hx, hinserts⟩
      obtain ⟨y, hreply, hgroups⟩ := insertEach_cancelled hcancelled 0
      rw [insertIndividually, Prog.run_bind, hreply]
      exact ⟨y, rfl, hgroups.trans hcopy.groups⟩

end Batch

def admissible [PyText] (entries : List (Entry Fields)) : List PriceRow :=
  (entries.filterMap fun e =>
    match toRecord e.payload with
    | .ok record => record
    | .error _ => none).filter PriceRow.accepted

/-- The rows come to the table once: by the `COPY`, or, where it has stored nothing, by an
`INSERT` for each row the table accepts. -/
def Settles (w : WriterWorld) (rows : List PriceRow) : Prop :=
  CopyReturns w rows ∨
    if rows.all PriceRow.accepted && carried w.now.fault then
      ∀ r ∈ rows.zipIdx (w.tick + 1), carried (w.outside r.2).fault = false
    else ∀ r ∈ rows.zipIdx (w.tick + 1),
      r.1.accepted = true → carried (w.outside r.2).fault = true

section Settled
variable {w : WriterWorld} {rows : List PriceRow}

theorem toRecords_rows [PyText] {entries : List (Entry Fields)}
    (h : toRecords entries = .ok rows) : admissible entries = rows.filter PriceRow.accepted := by
  induction entries generalizing rows with
  | nil =>
    obtain rfl := Except.ok.inj h
    rfl
  | cons e rest ih =>
    simp only [toRecords, bind, Except.bind] at h
    cases hrecord : toRecord e.payload with
    | error x => simp [hrecord] at h
    | ok record =>
      cases hrest : toRecords rest with
      | error x => simp [hrecord, hrest] at h
      | ok records =>
        simp only [hrecord, hrest, pure, Except.pure, Except.ok.injEq] at h
        rw [← h, List.filter_append, ← ih hrest, admissible, List.filterMap_cons]
        cases record with
        | none => simp [hrecord, admissible]
        | some row => simp [hrecord, admissible, List.filter_cons]; split <;> simp_all

theorem insertedRows_nil (t : ℕ) (outside : ℕ → WriterOutside) (hall : rows.all PriceRow.accepted) :
    insertedRows outside t rows = [] ↔
      ∀ r ∈ rows.zipIdx t, carried (outside r.2).fault = false := by
  have hacc : ∀ r ∈ rows.zipIdx t, r.1.accepted = true := fun r hr =>
    List.all_eq_true.mp hall r.1 (List.fst_mem_of_mem_zipIdx hr)
  rw [insertedRows, List.map_eq_nil_iff, List.filter_eq_nil_iff]
  constructor
  · intro h r hr
    simpa [hacc r hr] using h r hr
  · intro h r hr
    simp [h r hr]

theorem insertedRows_length_le (t : ℕ) (outside : ℕ → WriterOutside) (rows : List PriceRow) :
    (insertedRows outside t rows).length ≤ (rows.filter PriceRow.accepted).length := by
  induction rows generalizing t with
  | nil => simp [insertedRows]
  | cons row rest ih =>
    rw [insertedRows_cons, List.filter_cons]
    have hrest := ih (t + 1)
    cases row.accepted with
    | false => simpa using hrest
    | true =>
      split
      · simpa using hrest
      · simp only [List.nil_append, if_true, List.length_cons]
        omega

theorem insertedRows_full (t : ℕ) (outside : ℕ → WriterOutside) :
    insertedRows outside t rows = (rows.filter PriceRow.accepted).map PriceRow.stored ↔
      ∀ r ∈ rows.zipIdx t, r.1.accepted = true → carried (outside r.2).fault = true := by
  induction rows generalizing t with
  | nil => simp [insertedRows]
  | cons row rest ih =>
    rw [insertedRows_cons, List.zipIdx_cons, List.forall_mem_cons, ← ih (t + 1), List.filter_cons]
    cases hrow : row.accepted with
    | false => simp
    | true =>
      cases hfault : carried (outside t).fault with
      | true => simp
      | false =>
        have hlen := insertedRows_length_le (t + 1) outside rest
        simp only [Bool.and_false, Bool.false_eq_true, if_false, List.nil_append, if_true,
          List.map_cons, imp_false, not_true_eq_false, false_and, iff_false]
        intro heq
        rw [heq, List.length_cons, List.length_map] at hlen
        omega

theorem batchStored_iff : batchStored w rows = (rows.filter PriceRow.accepted).map
    PriceRow.stored ↔ Settles w rows := by
  unfold batchStored Settles
  by_cases hempty : rows = []
  · simp [hempty]
  · rw [if_neg hempty]
    by_cases hreturns : CopyReturns w rows
    · have hfilter : rows.filter PriceRow.accepted = rows :=
        List.filter_eq_self.mpr (List.all_eq_true.mp hreturns.2)
      simp [hreturns, hfilter]
    · rw [if_neg hreturns, copied]
      simp only [hreturns, false_or]
      split
      · rename_i hcopied
        have hall := (Bool.and_eq_true_iff.mp hcopied).1
        have hfilter : rows.filter PriceRow.accepted = rows :=
          List.filter_eq_self.mpr (List.all_eq_true.mp hall)
        rw [hfilter, List.append_right_eq_self]
        exact insertedRows_nil _ _ hall
      · rw [List.nil_append]
        exact insertedRows_full _ _

end Settled

def WriterWorld.pending (w : WriterWorld) : List ℕ := (w.stream.groups writerGroup).pending

theorem xack_serve (ids : List ℕ) (w : WriterWorld) :
    (WriterWorld.serve (.xack ids) w).2.prices = w.prices ∧
      (WriterWorld.serve (.xack ids) w).2.rowsWritten = w.rowsWritten ∧
      (WriterWorld.serve (.xack ids) w).2.pending =
        if carried w.now.fault then w.pending.filter (fun i => decide (i ∉ ids))
        else w.pending := by
  have hfault : w.fault (.xack ids) = w.now.fault := rfl
  rw [writer_serve_snd, hfault]
  cases carried w.now.fault with
  | true =>
    refine ⟨rfl, rfl, ?_⟩
    exact pending_ack (w.stream.append w.now.arrivals) writerGroup ids
  | false => exact ⟨rfl, rfl, rfl⟩

section Flush
variable [PyText] {entries : List (Entry Fields)} {w : WriterWorld} {rows : List PriceRow}

theorem flush_unread {x : PyExc} (h : toRecords entries = .error x) :
    (flush entries).run WriterWorld.serve w = (.error x, w) := by
  rw [flush, Prog.run_bind, h]
  rfl

theorem flush_run (h : toRecords entries = .ok rows) (hpass : Passes w rows)
    (hne : entries ≠ []) :
    ∃ w₁, Moves w w₁ (batchStored w rows) (batchCalls w rows) (batchCounted w rows) ∧
      (flush entries).run WriterWorld.serve w =
        WriterWorld.serve (.xack (entries.map Entry.id)) w₁ := by
  obtain ⟨hreply, hmoves⟩ := writeRows_run hpass
  refine ⟨_, hmoves, ?_⟩
  rw [flush, Prog.run_bind, h]
  change ((writeRows rows >>= fun _ => if entries = [] then pure ()
    else Prog.call (S := Writer) (.xack (entries.map Entry.id)) : Prog Writer Unit)).run _ w = _
  rw [Prog.run_bind, hreply]
  simp only [if_neg hne]
  rfl

theorem flush_stopped (h : toRecords entries = .ok rows) (hpass : ¬Passes w rows) :
    ∃ x, ((flush entries).run WriterWorld.serve w).1 = .error x ∧
      ((flush entries).run WriterWorld.serve w).2.pending = w.pending := by
  obtain ⟨x, hreply, hgroups⟩ := writeRows_cancelled hpass
  rw [flush, Prog.run_bind, h]
  change ∃ x, ((writeRows rows >>= fun _ => if entries = [] then pure ()
    else Prog.call (S := Writer) (.xack (entries.map Entry.id)) : Prog Writer Unit).run _ w).1 =
      .error x ∧ ((writeRows rows >>= fun _ => if entries = [] then pure ()
    else Prog.call (S := Writer) (.xack (entries.map Entry.id)) : Prog Writer Unit).run _
      w).2.pending = w.pending
  rw [Prog.run_bind, hreply]
  exact ⟨x, rfl, by rw [WriterWorld.pending, hgroups, WriterWorld.pending]⟩

/-- If a pending message of the batch is acknowledged, the table has got every row of the batch
that it accepts, and each once. -/
def SafelyAcked (entries : List (Entry Fields)) (w : WriterWorld) : Prop :=
  (∃ e ∈ entries, e.id ∈ w.pending ∧
      e.id ∉ ((flush entries).run WriterWorld.serve w).2.pending) →
    ((flush entries).run WriterWorld.serve w).2.prices =
      w.prices ++ (admissible entries).map PriceRow.stored

/-- The batch is read, nothing is cancelled on the way and the `XACK` is carried out. -/
structure Acknowledges (entries : List (Entry Fields)) (w : WriterWorld)
    (rows : List PriceRow) : Prop where
  read : toRecords entries = .ok rows
  passes : Passes w rows
  acked : carried (w.outside (w.tick + batchCalls w rows)).fault = true
  pending : ∃ e ∈ entries, e.id ∈ w.pending

theorem Acknowledges.flushed (h : Acknowledges entries w rows) :
    ((flush entries).run WriterWorld.serve w).2.prices = w.prices ++ batchStored w rows ∧
      ((flush entries).run WriterWorld.serve w).2.pending =
        w.pending.filter (fun i => decide (i ∉ entries.map Entry.id)) := by
  have hne : entries ≠ [] := by
    obtain ⟨e, he, -⟩ := h.pending
    exact List.ne_nil_of_mem he
  obtain ⟨w₁, hmoves, hrun⟩ := flush_run h.read h.passes hne
  obtain ⟨hprices, -, hpending⟩ := xack_serve (entries.map Entry.id) w₁
  have hacked : carried w₁.now.fault = true := by
    rw [WriterWorld.now, hmoves.outside, hmoves.tick]
    exact h.acked
  rw [hrun, hprices, hpending, if_pos hacked, hmoves.prices, WriterWorld.pending, hmoves.groups]
  exact ⟨rfl, rfl⟩

theorem unacknowledged (h : ¬∃ rows, Acknowledges entries w rows) :
    ∀ e ∈ entries, e.id ∈ w.pending →
      e.id ∈ ((flush entries).run WriterWorld.serve w).2.pending := by
  intro e he hin
  cases hread : toRecords entries with
  | error x =>
    rw [flush_unread hread]
    exact hin
  | ok rows =>
    by_cases hpass : Passes w rows
    · obtain ⟨w₁, hmoves, hrun⟩ := flush_run hread hpass (List.ne_nil_of_mem he)
      obtain ⟨-, -, hpending⟩ := xack_serve (entries.map Entry.id) w₁
      have hacked : ¬carried w₁.now.fault = true := by
        rw [WriterWorld.now, hmoves.outside, hmoves.tick]
        exact fun hacked => h ⟨rows, hread, hpass, hacked, e, he, hin⟩
      rw [hrun, hpending, if_neg hacked, WriterWorld.pending, hmoves.groups]
      exact hin
    · obtain ⟨x, -, hpending⟩ := flush_stopped hread hpass
      rw [hpending]
      exact hin

/-- An acknowledgement is safe exactly when the batch it acknowledges settles. -/
theorem safelyAcked_iff (entries : List (Entry Fields)) (w : WriterWorld) :
    SafelyAcked entries w ↔ ∀ rows, Acknowledges entries w rows → Settles w rows := by
  constructor
  · intro hsafe rows h
    obtain ⟨hprices, hpending⟩ := h.flushed
    obtain ⟨e, he, hin⟩ := h.pending
    have hstored := hsafe ⟨e, he, hin, by
      rw [hpending]
      simpa using fun _ => List.mem_map_of_mem he⟩
    rw [hprices, List.append_cancel_left_eq, toRecords_rows h.read] at hstored
    exact batchStored_iff.mp hstored
  · intro hsettles
    by_cases h : ∃ rows, Acknowledges entries w rows
    · obtain ⟨rows, h⟩ := h
      intro _
      rw [h.flushed.1, toRecords_rows h.read, batchStored_iff.mpr (hsettles rows h)]
    · rintro ⟨e, he, hin, hout⟩
      exact absurd (unacknowledged h e he hin) hout

end Flush

@[reducible] def tickText : PyText := PyText.ofTables [("1", 1), ("2", 2)] []

def sampleTick : Entry Fields :=
  ⟨0, [("exchange", "binance"), ("symbol", "BTC/USDT"), ("bid", "1"), ("ask", "2"),
    ("received_at", "0")]⟩

def writerWorld (fault : ℕ → Option PyExc) (entry : Entry Fields) : WriterWorld where
  stream := ⟨[entry.payload], fun _ => ⟨1, [entry.id]⟩⟩
  prices := []
  rowsWritten := 0
  outside n := ⟨fault n, []⟩
  tick := 0

/-- The database is away for the `COPY` and for the `INSERT`, and the tick is acknowledged. -/
theorem acked_unstored :
    ¬@SafelyAcked tickText [sampleTick]
      (writerWorld (fun n => if n < 2 then some (.callFailed false) else none) sampleTick) := by
  intro h
  have hstored := h ⟨sampleTick, by decide, by decide +kernel, by decide +kernel⟩
  revert hstored
  decide +kernel

def WriterWorld.Calm (w : WriterWorld) : Prop := ∀ n, (w.outside n).fault = none

def PyDecimal.above (limit : ℚ) (digits : ℕ) : PyDecimal → Prop
  | .finite q => limit < pyRound |q| digits
  | .inf => True
  | .nan => False

def PyDecimal.tooDear : PyDecimal → Prop := PyDecimal.above priceMax 18

def PyDecimal.comparable : PyDecimal → Prop
  | .finite q => |q| < decimalTop
  | .inf => True
  | .nan => False

structure Named (f : Fields) (tick : ParsedTick) : Prop where
  bidVolume : ∀ v ∈ tick.bidVolume, v.comparable
  askVolume : ∀ v ∈ tick.askVolume, v.comparable
  exchange : (f.lookup "exchange").isSome = true
  symbol : (f.lookup "symbol").isSome = true

/-- The platform has a date for the time stamp, if it is a number: for the float nearest to
its thousandth. -/
def Dated [PyText] (f : Fields) : Prop :=
  ∀ s ∈ f.lookup "received_at", ∀ n ∈ PyText.intStr s,
    -67768040609740804000 ≤ n ∧ n < 67768036191676796000

/-- An entry whose conversion raises nothing: the platform has a date for its time stamp, the
numbers it compares can be compared, and the names it stores are there. -/
structure Convertible [PyText] (f : Fields) : Prop where
  dated : Dated f
  tick : ∀ tick, parseTick f = .ok tick → tick.bid.comparable ∧ (tick.bid.tooDear ∨
    tick.ask.comparable ∧ (tick.ask.tooDear ∨ Named f tick))

section Convert
variable {f : Fields}

theorem except_bind_ok {α β : Type} (r : Except PyExc α) (g : α → Except PyExc β) :
    (∃ b, r >>= g = .ok b) ↔ ∃ a, r = .ok a ∧ ∃ b, g a = .ok b := by
  cases r with
  | ok a =>
    constructor
    · intro h
      exact ⟨a, rfl, h⟩
    · intro ⟨a', ha, h⟩
      obtain rfl := Except.ok.inj ha
      exact h
  | error x => simp [bind, Except.bind]

theorem exceeds_eq (limit : ℚ) (digits : ℕ) (d : PyDecimal) :
    (¬d.comparable ∧ ∃ x, exceeds limit digits d = .error x) ∨
      (d.comparable ∧ d.above limit digits ∧ exceeds limit digits d = .ok true) ∨
      (d.comparable ∧ ¬d.above limit digits ∧ exceeds limit digits d = .ok false) := by
  cases d with
  | finite q =>
    by_cases htop : |q| < decimalTop
    · have hexceeds : exceeds limit digits (.finite q) =
          .ok (decide (limit < pyRound |q| digits)) := if_neg (not_le.mpr htop)
      by_cases h : limit < pyRound |q| digits
      · exact .inr (.inl ⟨htop, h, by rw [hexceeds, decide_eq_true h]⟩)
      · exact .inr (.inr ⟨htop, h, by rw [hexceeds, decide_eq_false h]⟩)
    · exact .inl ⟨htop, .decimalOverflow, if_pos (not_lt.mp htop)⟩
  | inf => exact .inr (.inl ⟨trivial, trivial, rfl⟩)
  | nan => exact .inl ⟨id, .invalidOperation, rfl⟩

theorem screenVolume_ok (v : Option PyDecimal) :
    (∃ q, screenVolume v = .ok q) ↔ ∀ d ∈ v, d.comparable := by
  cases v with
  | none => simp [screenVolume]
  | some d =>
    rcases exceeds_eq volumeMax 8 d with ⟨hd, x, h⟩ | ⟨hd, -, h⟩ | ⟨hd, -, h⟩
    · simp [screenVolume, volumeExceeds, h, bind, Except.bind, hd]
    · simp [screenVolume, volumeExceeds, h, bind, Except.bind, hd, pure, Except.pure]
    · simp [screenVolume, volumeExceeds, h, bind, Except.bind, hd, pure, Except.pure]

theorem fieldAt_ok (key : String) :
    (∃ s, fieldAt f key = .ok s) ↔ (f.lookup key).isSome = true := by
  unfold fieldAt
  cases f.lookup key <;> simp

end Convert

section Convert
variable [PyText] {f : Fields}

theorem tickRecord_ok (tick : ParsedTick) :
    (∃ r, tickRecord f tick = .ok r) ↔ Named f tick := by
  simp only [tickRecord, except_bind_ok, pure, Except.pure, Except.ok.injEq, exists_eq', and_true,
    exists_and_right, screenVolume_ok, fieldAt_ok]
  constructor
  · intro ⟨hbid, hask, hexchange, hsymbol⟩
    exact ⟨hbid, hask, hexchange, hsymbol⟩
  · intro h
    exact ⟨h.bidVolume, h.askVolume, h.exchange, h.symbol⟩

theorem screenTick_ok (tick : ParsedTick) :
    (∃ r, screenTick f tick = .ok r) ↔ tick.bid.comparable ∧ (tick.bid.tooDear ∨
      tick.ask.comparable ∧ (tick.ask.tooDear ∨ Named f tick)) := by
  rcases exceeds_eq priceMax 18 tick.bid with ⟨hbid, x, h⟩ | ⟨hbid, hdear, h⟩ | ⟨hbid, hcheap, h⟩
  · refine iff_of_false ?_ fun hall => hbid hall.1
    intro ⟨r, hr⟩
    simp [screenTick, priceExceeds, h, bind, Except.bind] at hr
  · refine iff_of_true ⟨none, ?_⟩ ⟨hbid, .inl hdear⟩
    simp [screenTick, priceExceeds, h, bind, Except.bind, pure, Except.pure]
  · rcases exceeds_eq priceMax 18 tick.ask with
      ⟨hask, x, h'⟩ | ⟨hask, hdear, h'⟩ | ⟨hask, hcheap', h'⟩
    · refine iff_of_false ?_ fun hall => hask (hall.2.resolve_left hcheap).1
      intro ⟨r, hr⟩
      simp [screenTick, priceExceeds, h, h', bind, Except.bind] at hr
    · refine iff_of_true ⟨none, ?_⟩ ⟨hbid, .inr ⟨hask, .inl hdear⟩⟩
      simp [screenTick, priceExceeds, h, h', bind, Except.bind, pure, Except.pure]
    · have hrest : screenTick f tick = tickRecord f tick := by
        simp [screenTick, priceExceeds, h, h', bind, Except.bind]
      rw [hrest, tickRecord_ok]
      constructor
      · intro hcomplete
        exact ⟨hbid, .inr ⟨hask, .inr hcomplete⟩⟩
      · intro ⟨_, hall⟩
        exact (hall.resolve_left hcheap).2.resolve_left hcheap'

end Convert

def Skipping {α : Type} (r : Except PyExc α) : Prop := ∀ x, r = .error x → x.skipsTick = true

theorem Skipping.bind {α β : Type} {r : Except PyExc α} {g : α → Except PyExc β}
    (hr : Skipping r) (hg : ∀ a, r = .ok a → Skipping (g a)) : Skipping (r >>= g) := by
  cases r with
  | ok a => exact hg a rfl
  | error y =>
    intro x hx
    have hxy : y = x := by simpa [Bind.bind, Except.bind] using hx
    exact hxy ▸ hr y rfl

theorem fieldAt_skipping (f : Fields) (key : String) : Skipping (fieldAt f key) := by
  intro x hx
  unfold fieldAt at hx
  split at hx
  · cases hx
  · obtain rfl := Except.error.inj hx
    rfl

theorem fieldAt_eq {f : Fields} {key s : String} (h : fieldAt f key = .ok s) :
    f.lookup key = some s := by
  unfold fieldAt at h
  split at h
  · rename_i hlookup
    rw [hlookup, Except.ok.inj h]
  · cases h

theorem timeval_seconds (x : ℚ) : x.floor ≤ (timeval x).1 ∧ (timeval x).1 ≤ x.floor + 1 := by
  have hmono : ∀ {a b : ℚ}, a ≤ b →
      roundHalfEven (double.nearest a) ≤ roundHalfEven (double.nearest b) :=
    fun h => roundHalfEven_mono (double.nearest_mono (by decide) h)
  have hzero : roundHalfEven (double.nearest 0) = 0 := by
    rw [double.nearest_zero]
    exact roundHalfEven_intCast 0
  have hmicros : ∀ frac : ℚ, (0 ≤ frac → 0 ≤ roundHalfEven (double.nearest (frac * 10 ^ 6))) ∧
      (frac ≤ 0 → roundHalfEven (double.nearest (frac * 10 ^ 6)) ≤ 0) := by
    intro frac
    refine ⟨fun h => ?_, fun h => ?_⟩
    · exact hzero ▸ hmono (mul_nonneg h (by norm_num))
    · exact hzero ▸ hmono (mul_nonpos_of_nonpos_of_nonneg h (by norm_num))
  have hfloor : (x.floor : ℚ) ≤ x := Rat.floor_le x
  by_cases hx : 0 ≤ x
  · have hint : pyInt x = x.floor := if_pos hx
    have hnonneg := (hmicros (x - pyInt x)).1 (by rw [hint]; linarith)
    unfold timeval
    simp only
    split_ifs <;> omega
  · have hint : pyInt x = x.ceil := if_neg hx
    have hceil : x ≤ (x.ceil : ℚ) := Rat.le_ceil
    have hnonpos := (hmicros (x - pyInt x)).2 (by rw [hint]; linarith)
    have hnext : x.ceil ≤ x.floor + 1 := by
      rw [Rat.ceil_le_iff]
      exact_mod_cast (Rat.lt_floor_add_one x).le
    have hbelow : x.floor ≤ x.ceil := by exact_mod_cast hfloor.trans hceil
    -- only of a fraction are there microseconds to borrow for
    have hborrow : roundHalfEven (double.nearest ((x - pyInt x) * 10 ^ 6)) < 0 →
        x.floor < x.ceil := by
      intro hneg
      refine lt_of_le_of_ne hbelow fun heq => ?_
      have hwhole : x - (pyInt x : ℚ) = 0 := by
        rw [hint]
        have : (x.floor : ℚ) = x.ceil := by exact_mod_cast heq
        linarith
      rw [hwhole, zero_mul, hzero] at hneg
      exact absurd hneg (lt_irrefl 0)
    unfold timeval
    simp only
    split_ifs <;> omega

theorem seconds_range (n : ℤ) :
    (-67768040609740800 ≤ (timeval (double.nearest (n / 1000))).1 ∧
        (timeval (double.nearest (n / 1000))).1 ≤ 67768036191676799) ↔
      -67768040609740804000 ≤ n ∧ n < 67768036191676796000 := by
  obtain ⟨hlow, hhigh⟩ := timeval_seconds (double.nearest ((n : ℚ) / 1000))
  have hmono : ∀ {a b : ℤ}, a ≤ b →
      (double.nearest ((a : ℚ) / 1000)).floor ≤ (double.nearest ((b : ℚ) / 1000)).floor := by
    intro a b h
    refine Rat.floor_monotone (double.nearest_mono (by decide) ?_)
    have : (a : ℚ) ≤ b := by exact_mod_cast h
    linarith
  constructor
  · rintro ⟨hmin, hmax⟩
    constructor
    · by_contra hn
      have hle := hmono (show n ≤ -67768040609740804001 by omega)
      rw [show (double.nearest (((-67768040609740804001 : ℤ) : ℚ) / 1000)).floor =
        -67768040609740808 by decide +kernel] at hle
      omega
    · by_contra hn
      have hle := hmono (show 67768036191676796000 ≤ n by omega)
      rw [show (double.nearest (((67768036191676796000 : ℤ) : ℚ) / 1000)).floor =
        67768036191676800 by decide +kernel] at hle
      omega
  · rintro ⟨hmin, hmax⟩
    have hge := hmono hmin
    have hle := hmono (show n ≤ 67768036191676795999 by omega)
    rw [show (double.nearest (((-67768040609740804000 : ℤ) : ℚ) / 1000)).floor =
      -67768040609740800 by decide +kernel] at hge
    rw [show (double.nearest (((67768036191676795999 : ℤ) : ℚ) / 1000)).floor =
      67768036191676792 by decide +kernel] at hle
    omega

theorem fromTimestamp_skipping {n : ℤ}
    (h : -67768040609740804000 ≤ n ∧ n < 67768036191676796000) : Skipping (fromTimestamp n) := by
  obtain ⟨hmin, hmax⟩ := (seconds_range n).mpr h
  intro x hx
  unfold fromTimestamp at hx
  simp only at hx
  rw [if_neg (by omega), if_neg (by omega)] at hx
  split at hx
  · obtain rfl := Except.error.inj hx
    rfl
  · cases hx

theorem fromTimestamp_undated {n : ℤ}
    (h : ¬(-67768040609740804000 ≤ n ∧ n < 67768036191676796000)) :
    ∃ x, fromTimestamp n = .error x ∧ x.skipsTick = false := by
  rw [← seconds_range, not_and_or, not_le, not_le] at h
  unfold fromTimestamp
  simp only
  split
  · exact ⟨_, rfl, rfl⟩
  · exact ⟨_, rfl, rfl⟩

theorem calm_count {w : WriterWorld} (h : w.Calm) (rows : List PriceRow) :
    batchCounted w rows = (rows.filter PriceRow.accepted).length := by
  unfold batchCounted
  by_cases hempty : rows = []
  · simp [hempty]
  · rw [if_neg hempty]
    by_cases hreturns : CopyReturns w rows
    · rw [if_pos hreturns, List.filter_eq_self.mpr (List.all_eq_true.mp hreturns.2)]
    · have hall : ∀ t, (w.outside t).fault.isNone = true := fun t => by rw [h t]; rfl
      rw [if_neg hreturns, insertedCount, ← List.countP_eq_length_filter]
      simp only [hall, Bool.and_true]
      rw [← Function.comp_def PriceRow.accepted Prod.fst, ← List.countP_map, List.zipIdx_map_fst]

theorem calm_passes {w : WriterWorld} (h : w.Calm) (rows : List PriceRow) : Passes w rows := by
  refine .inr (.inr ⟨?_, fun r _ => ?_⟩)
  · simp [WriterWorld.now, h w.tick]
  · simp [h r.2]

theorem calm_settles {w : WriterWorld} (h : w.Calm) (rows : List PriceRow) : Settles w rows := by
  have hnow : w.now.fault = none := h w.tick
  cases hall : rows.all PriceRow.accepted with
  | true => exact .inl ⟨hnow, hall⟩
  | false =>
    refine .inr ?_
    rw [hall, Bool.false_and, if_neg Bool.false_ne_true]
    intro r _ _
    rw [h r.2]
    rfl

section Convert
variable [PyText] {f : Fields}

theorem readDecimal_skipping (s : String) : Skipping (readDecimal s) := by
  intro x hx
  unfold readDecimal at hx
  split at hx
  · cases hx
  · obtain rfl := Except.error.inj hx
    rfl

theorem readVolume_skipping (s : Option String) : Skipping (readVolume s) := by
  intro x hx
  cases s with
  | none => cases hx
  | some s =>
    refine readDecimal_skipping s x ?_
    simp only [readVolume, Functor.map, Except.map] at hx
    split at hx
    · rename_i y hy
      rw [hy, Except.error.inj hx]
    · cases hx

theorem parseTick_dated (h : Dated f) : Skipping (parseTick f) := by
  unfold parseTick
  refine Skipping.bind (fieldAt_skipping f _) fun s hs => ?_
  have hstamp : Skipping (readStamp s) := by
    intro x hx
    unfold readStamp at hx
    split at hx
    · rename_i n hn
      exact fromTimestamp_skipping (h s (fieldAt_eq hs) n hn) x hx
    · obtain rfl := Except.error.inj hx
      rfl
  refine Skipping.bind hstamp fun _ _ => ?_
  refine Skipping.bind (fieldAt_skipping f _) fun _ _ => ?_
  refine Skipping.bind (readDecimal_skipping _) fun _ _ => ?_
  refine Skipping.bind (fieldAt_skipping f _) fun _ _ => ?_
  refine Skipping.bind (readDecimal_skipping _) fun _ _ => ?_
  refine Skipping.bind (readVolume_skipping _) fun _ _ => ?_
  refine Skipping.bind (readVolume_skipping _) fun _ _ => ?_
  intro x hx
  cases hx

theorem parseTick_undated (h : ¬Dated f) :
    ∃ x, parseTick f = .error x ∧ x.skipsTick = false := by
  simp only [Dated, Option.mem_def, not_forall] at h
  obtain ⟨s, hs, n, hn, hrange⟩ := h
  obtain ⟨x, hx, hskips⟩ := fromTimestamp_undated hrange
  exact ⟨x, by simp [parseTick, fieldAt, hs, readStamp, hn, hx, bind, Except.bind], hskips⟩

theorem toRecord_ok (f : Fields) : (∃ r, toRecord f = .ok r) ↔ Convertible f := by
  by_cases hdated : Dated f
  · unfold toRecord
    cases hparse : parseTick f with
    | ok tick =>
      simp only [screenTick_ok]
      constructor
      · intro h
        refine ⟨hdated, fun tick' htick' => ?_⟩
        rw [hparse] at htick'
        obtain rfl := Except.ok.inj htick'
        exact h
      · intro h
        exact h.tick tick hparse
    | error x =>
      have hx := parseTick_dated hdated x hparse
      refine iff_of_true ⟨none, by simp [hx]⟩ ⟨hdated, fun tick htick => ?_⟩
      rw [hparse] at htick
      cases htick
  · refine iff_of_false ?_ fun h => hdated h.dated
    intro ⟨r, hr⟩
    obtain ⟨x, hx, hskips⟩ := parseTick_undated hdated
    simp [toRecord, hx, hskips] at hr

theorem toRecords_ok (entries : List (Entry Fields)) :
    (∃ rows, toRecords entries = .ok rows) ↔ ∀ e ∈ entries, Convertible e.payload := by
  induction entries with
  | nil => simp [toRecords]
  | cons e rest ih =>
    rw [List.forall_mem_cons, ← ih, ← toRecord_ok, toRecords]
    simp only [except_bind_ok, pure, Except.pure, Except.ok.injEq, exists_eq', and_true,
      exists_and_right]

/-- With the database and Redis at hand: nothing is raised, the rows that the table accepts are
stored and counted, and the batch is acknowledged. -/
structure Flushed (entries : List (Entry Fields)) (w : WriterWorld)
    (out : Except PyExc Unit × WriterWorld) : Prop where
  reply : out.1 = .ok ()
  prices : out.2.prices = w.prices ++ (admissible entries).map PriceRow.stored
  counted : out.2.rowsWritten = w.rowsWritten + (admissible entries).length
  acked : out.2.pending = w.pending.filter (fun i => decide (i ∉ entries.map Entry.id))

/-- A batch is flushed as it should exactly when every entry is convertible. -/
theorem flushed_iff {w : WriterWorld} (entries : List (Entry Fields)) (h : w.Calm) :
    Flushed entries w ((flush entries).run WriterWorld.serve w) ↔
      ∀ e ∈ entries, Convertible e.payload := by
  rw [← toRecords_ok]
  constructor
  · intro hflushed
    cases hread : toRecords entries with
    | ok rows => exact ⟨rows, rfl⟩
    | error x =>
      have hreply := hflushed.reply
      rw [flush_unread hread] at hreply
      cases hreply
  · intro ⟨rows, hread⟩
    have hstored := batchStored_iff.mpr (calm_settles h rows)
    have hcounted := calm_count h rows
    rw [← toRecords_rows hread] at hstored hcounted
    by_cases hempty : entries = []
    · subst hempty
      obtain rfl := Except.ok.inj hread
      have hrun : (flush []).run WriterWorld.serve w = (.ok (), w) := rfl
      rw [hrun]
      exact ⟨rfl, by simp [admissible], rfl, by simp⟩
    · obtain ⟨w₁, hmoves, hrun⟩ := flush_run hread (calm_passes h rows) hempty
      obtain ⟨hprices, hwritten, hpending⟩ := xack_serve (entries.map Entry.id) w₁
      have hfault : w₁.now.fault = none := by
        rw [WriterWorld.now, hmoves.outside]
        exact h w₁.tick
      rw [hrun]
      refine ⟨?_, ?_, ?_, ?_⟩
      · have hxack : w₁.fault (.xack (entries.map Entry.id)) = none := hfault
        simp [WriterWorld.serve, hxack]
      · rw [hprices, hmoves.prices, hstored]
      · rw [hwritten, hmoves.written, hcounted]
      · rw [hpending, hfault, carried, if_pos rfl, WriterWorld.pending, hmoves.groups]
        rfl

end Convert

/-- A tick that converts is stored and counted. -/
theorem flushed_iff_sample :
    @Flushed tickText [sampleTick] (writerWorld (fun _ => none) sampleTick)
      ((@flush tickText [sampleTick]).run WriterWorld.serve
        (writerWorld (fun _ => none) sampleTick)) := by
  refine (@flushed_iff tickText _ [sampleTick] fun _ => rfl).mpr fun e he => ?_
  obtain rfl := List.mem_singleton.mp he
  have hok : (@toRecord tickText sampleTick.payload).isOk = true := by decide +kernel
  refine (@toRecord_ok tickText _).mp ?_
  cases hrecord : @toRecord tickText sampleTick.payload with
  | ok r => exact ⟨r, rfl⟩
  | error x =>
    rw [hrecord] at hok
    cases hok

def namelessBatch : List (Entry Fields) :=
  [⟨0, sampleTick.payload.tail⟩, ⟨1, sampleTick.payload⟩]

/-- Neither is stored, and neither is acknowledged. -/
theorem nameless_unflushed :
    ¬@Flushed tickText namelessBatch (writerWorld (fun _ => none) sampleTick)
      ((@flush tickText namelessBatch).run WriterWorld.serve
        (writerWorld (fun _ => none) sampleTick)) := by
  intro h
  have hacked := @Flushed.acked tickText _ _ _ h
  revert hacked
  decide +kernel

end CriptoParser
