import CriptoParser.CollectorSockets
import CriptoParser.CollectorTargets

/-!
What the sockets of one exchange publish. A book becomes a tick on the stream and then the
document of its symbol. The tasks of the exchange share the stream and write each its own
documents, in any order of their awaits.
-/

set_option autoImplicit false

namespace CriptoParser

open Await

def taskSymbols (multiplexed : Bool) (name : String) (symbols : List String) :
    Fin (taskCount multiplexed name symbols) → List String :=
  match multiplexed with
  | true => fun i => (symbolChunks (multiplexChunkSize name) symbols).get i
  | false => fun i => [symbols.get i]

theorem get_symbolChunks {chunk : ℕ} {symbols : List String} {i : ℕ}
    (h : i < (symbolChunks chunk symbols).length) :
    (symbolChunks chunk symbols).get ⟨i, h⟩ = (symbols.drop (i * chunk)).take chunk := by
  simp [symbolChunks]

theorem mem_chunk {chunk : ℕ} {symbols : List String} {s : String} (i : ℕ)
    (h : s ∈ (symbols.drop (i * chunk)).take chunk) :
    ∃ k, k / chunk = i ∧ symbols[k]? = some s := by
  obtain ⟨m, hm⟩ := List.mem_iff_getElem?.mp h
  rw [List.getElem?_take] at hm
  split at hm
  · rename_i hlt
    rw [List.getElem?_drop] at hm
    refine ⟨i * chunk + m, ?_, hm⟩
    rw [Nat.add_comm, Nat.add_mul_div_right _ _ (by omega), Nat.div_eq_of_lt hlt, Nat.zero_add]
  · cases hm

theorem taskSymbols_disjoint {multiplexed : Bool} {name : String} {symbols : List String}
    (hnodup : symbols.Nodup) {i j : Fin (taskCount multiplexed name symbols)} {s : String}
    (hi : s ∈ taskSymbols multiplexed name symbols i)
    (hj : s ∈ taskSymbols multiplexed name symbols j) : i = j := by
  have hplace : ∀ {k l : ℕ}, symbols[k]? = some s → symbols[l]? = some s → k = l := by
    intro k l hk hl
    obtain ⟨hlt, -⟩ := List.getElem?_eq_some_iff.mp hk
    exact (List.getElem?_inj hlt hnodup).mp (hk.trans hl.symm)
  apply Fin.ext
  cases multiplexed with
  | true =>
    have hchunk : ∀ {i : ℕ} (h : i < (symbolChunks (multiplexChunkSize name) symbols).length),
        s ∈ (symbolChunks (multiplexChunkSize name) symbols).get ⟨i, h⟩ →
          ∃ k, k / multiplexChunkSize name = i ∧ symbols[k]? = some s := by
      intro i h hs
      rw [get_symbolChunks] at hs
      exact mem_chunk i hs
    obtain ⟨k, hk, hsk⟩ := hchunk i.isLt hi
    obtain ⟨l, hl, hsl⟩ := hchunk j.isLt hj
    rw [← hk, ← hl, hplace hsk hsl]
  | false =>
    have hget : ∀ {i : ℕ} (h : i < symbols.length), s ∈ [symbols.get ⟨i, h⟩] →
        symbols[i]? = some s := by
      intro i h hs
      rw [List.mem_singleton.mp hs, List.getElem?_eq_getElem h]
      rfl
    exact hplace (hget i.isLt hi) (hget j.isLt hj)

theorem loadTargets_nodup {db : Option CollectorDb} {target : String × List String}
    (h : target ∈ loadTargets db) : target.2.Nodup := by
  have hdefault : defaultSymbols.Nodup := by decide
  have hsymbols : ∀ (pairs : TrackedPairs) name, (targetSymbols pairs name).Nodup := by
    intro pairs name
    have hkeys := pairs.unique.sublist
      ((List.filter_sublist (p := fun r => r.isActive && r.exchange == name)).map PairRow.key)
    have hactive : (activeSymbols pairs name).Nodup := by
      refine List.Nodup.of_map (fun s => (s, name)) ?_
      have hsame : (activeSymbols pairs name).map (fun s => (s, name)) =
          (pairs.rows.filter fun r => r.isActive && r.exchange == name).map PairRow.key := by
        rw [activeSymbols, List.map_map]
        refine List.map_congr_left fun r hr => ?_
        have hname : r.exchange = name := by
          simpa using ((Bool.and_eq_true _ _).mp (List.mem_filter.mp hr).2).2
        simp [PairRow.key, hname]
      rw [hsame]
      exact hkeys
    unfold targetSymbols
    split
    · exact hdefault
    · exact hactive
  unfold loadTargets at h
  split at h
  · rw [List.mem_singleton.mp h]
    exact hdefault
  · simp only at h
    split at h
    · rw [List.mem_singleton.mp h]
      exact hdefault
    · obtain ⟨name, -, rfl⟩ := List.mem_map.mp h
      exact hsymbols _ name

def bookFor : Event Sockets → Option (String × OrderBook)
  | ⟨.watchOrderBook symbol, .ok book⟩ => some (symbol, book)
  | ⟨.watchOrderBookForSymbols _, .ok book⟩ => book.symbol.map fun symbol => (symbol, book)
  | _ => none

def entryOf : Event Sockets → Option Fields
  | ⟨.xadd fields, .ok _⟩ => some fields
  | ⟨.xadd fields, .error x⟩ => if x.served then some fields else none
  | _ => none

def booksOf (symbol : String) (es : List (Event Sockets)) : List OrderBook :=
  ((es.filterMap bookFor).filter fun p => p.1 == symbol).map Prod.snd

def ticksOf (symbol : String) (es : List (Event Sockets)) : List Fields :=
  (es.filterMap entryOf).filter fun fields => fields.lookup "symbol" == some symbol

theorem booksOf_append (symbol : String) (es fs : List (Event Sockets)) :
    booksOf symbol (es ++ fs) = booksOf symbol es ++ booksOf symbol fs := by
  simp [booksOf]

theorem ticksOf_append (symbol : String) (es fs : List (Event Sockets)) :
    ticksOf symbol (es ++ fs) = ticksOf symbol es ++ ticksOf symbol fs := by
  simp [ticksOf]

theorem event_cases (e : Event Sockets) :
    (∃ s book, bookFor e = some (s, book) ∧ entryOf e = none) ∨
      (∃ fields, e.call = .xadd fields ∧ bookFor e = none ∧ entryOf e = some fields) ∨
        bookFor e = none ∧ entryOf e = none := by
  obtain ⟨c, a⟩ := e
  cases c with
  | watchOrderBook s =>
    cases a with
    | ok book => exact .inl ⟨s, book, rfl, rfl⟩
    | error x => exact .inr (.inr ⟨rfl, rfl⟩)
  | watchOrderBookForSymbols ss =>
    cases a with
    | error x => exact .inr (.inr ⟨rfl, rfl⟩)
    | ok book =>
      cases hs : (book : OrderBook).symbol with
      | none => exact .inr (.inr ⟨by simp [bookFor, hs], rfl⟩)
      | some s => exact .inl ⟨s, book, by simp [bookFor, hs], rfl⟩
  | xadd fields =>
    cases a with
    | ok _ => exact .inr (.inl ⟨fields, rfl, rfl, rfl⟩)
    | error x =>
      cases hx : PyExc.served x with
      | true => exact .inr (.inl ⟨fields, rfl, rfl, by simp [entryOf, hx]⟩)
      | false => exact .inr (.inr ⟨rfl, by simp [entryOf, hx]⟩)
  | _ => exact .inr (.inr ⟨rfl, rfl⟩)

section
variable [PyText] {name symbol : String} {log : List (Event Sockets)} {e : Event Sockets}

def TickOf (name symbol : String) (book : OrderBook) (fields : Fields) : Prop :=
  ∃ now tick, bookTick name symbol book now = .ok tick ∧ fields = tick.toRedis

/-- The ticks are those of some of the books, each book once and in the order they came; the
books of `rest` came later. -/
def Handed (name symbol : String) (rest : List OrderBook) (log : List (Event Sockets)) : Prop :=
  ∃ handed, (handed ++ rest).Sublist (booksOf symbol log) ∧
    List.Forall₂ (TickOf name symbol) handed (ticksOf symbol log)

theorem Handed.came {book : OrderBook} (h : Handed name symbol [book] log) :
    book ∈ booksOf symbol log := by
  obtain ⟨handed, hsub, -⟩ := h
  exact hsub.subset (List.mem_append_right _ (List.mem_singleton_self book))

theorem tick_symbol {book : OrderBook} {now : ℤ} {tick : PriceTick}
    (h : bookTick name symbol book now = .ok tick) :
    tick.toRedis.lookup "symbol" = some symbol := by
  have hsymbol : tick.symbol = symbol := by
    unfold bookTick at h
    simp only [bind, Except.bind] at h
    split at h
    · cases h
    · split at h
      · cases h
      · split at h
        · cases h
          rfl
        · cases h
  rw [← hsymbol]
  rfl

inductive Handling where
  | idle
  | received (symbol : String) (book : OrderBook)
  | timed (symbol : String) (book : OrderBook) (now : ℤ)
  | ticked (symbol : String) (book : OrderBook) (now : ℤ)

def Handling.step (q : Handling) (e : Event Sockets) : Handling :=
  match bookFor e with
  | some (symbol, book) => .received symbol book
  | none => match e, q with
    | ⟨.time, .ok t⟩, .received symbol book => .timed symbol book (pyInt (t * 1000))
    | ⟨.xadd _, .ok _⟩, .timed symbol book now => .ticked symbol book now
    | ⟨.xadd _, .error _⟩, _ | ⟨.set _ _ _, _⟩, _ => .idle
    | _, q => q

/-- A tick is that of the book at hand, and a document follows the tick of its book. -/
abbrev handling (name : String) (mine : List String) : Monitor (Event Sockets) where
  State := Handling
  next := Handling.step
  allows q e := match e.call with
    | .watchOrderBook symbol => symbol ∈ mine
    | .watchOrderBookForSymbols symbols => symbols = mine
    | .xadd fields => ∃ symbol book now tick, q = .timed symbol book now ∧
        bookTick name symbol book now = .ok tick ∧ fields = tick.toRedis
    | .set key value _ => ∃ symbol book now, q = .ticked symbol book now ∧
        key = depthKey name symbol ∧ dumpDepth book.bids book.asks now depthLevels = .ok value
    | _ => True

variable {can : (c : SocketCall) → Except PyExc c.Reply → Prop} {mine : List String}

theorem handleOrderBook_handling (book : OrderBook) (q : Handling)
    (hq : q = .received symbol book) :
    (handleOrderBook name symbol book).Meets (handling name mine) can q fun _ _ => True := by
  subst hq
  unfold handleOrderBook
  split
  · trivial
  · refine (Prog.meets_call_bind _ _ _).mpr ⟨fun t _ => ⟨trivial, ?_⟩, fun x _ => ⟨trivial, trivial⟩⟩
    rw [Prog.meets_bind]
    cases htick : bookTick name symbol book (pyInt (t * 1000)) with
    | error x => trivial
    | ok tick =>
      refine (Prog.meets_call_bind _ _ _).mpr ⟨fun _ _ => ⟨⟨_, _, _, _, rfl, htick, rfl⟩, ?_⟩,
        fun x _ => ⟨⟨_, _, _, _, rfl, htick, rfl⟩, trivial⟩⟩
      rw [Prog.meets_bind]
      cases hvalue : dumpDepth book.bids book.asks (pyInt (t * 1000)) depthLevels with
      | error x => trivial
      | ok value =>
        refine (Prog.meets_call_bind _ _ _).mpr ⟨fun _ _ => ⟨⟨_, _, _, rfl, rfl, hvalue⟩, ?_⟩,
          fun x _ => ⟨⟨_, _, _, rfl, rfl, hvalue⟩, trivial⟩⟩
        exact fun _ _ => ⟨trivial, trivial⟩

def SocketCall.silent : SocketCall → Prop
  | .watchOrderBook _ | .watchOrderBookForSymbols _ | .xadd _ | .set _ _ _ => False
  | _ => True

theorem reconnect_handling (attempt : ℤ) (x : PyExc) (q : Handling) :
    (reconnect attempt x).Meets (handling name mine) can q fun _ _ => True := by
  have hsilent : (reconnect attempt x).Uses SocketCall.silent := by
    unfold reconnect backoffDelay
    split
    · refine Prog.uses_bind ((Prog.uses_call _).mpr trivial) fun _ => ?_
      refine Prog.uses_bind (Prog.uses_bind ((Prog.uses_call _).mpr trivial) fun _ =>
        Prog.uses_pure _) fun _ => ?_
      exact Prog.uses_bind ((Prog.uses_call _).mpr trivial) fun _ => Prog.uses_pure _
    · exact Prog.uses_lift _
  refine Prog.Uses.meets hsilent (fun q c a _ hc => ?_) trivial
  cases c <;> first | exact hc.elim | exact ⟨trivial, trivial⟩

theorem awaitBook_handling (connectedOnce : Bool) (q : Handling) (hsymbol : symbol ∈ mine) :
    (awaitBook symbol connectedOnce).Meets (handling name mine) can q fun r q' =>
      ∀ book, r = .ok book → q' = .received symbol book := by
  unfold awaitBook
  split
  · rintro (x | book) -
    · exact ⟨hsymbol, fun _ h => (by cases h)⟩
    · exact ⟨hsymbol, fun _ h => by cases h; rfl⟩
  · refine (Prog.meets_call_bind _ _ _).mpr ⟨fun _ _ => ⟨trivial, ?_⟩,
      fun x _ => ⟨trivial, fun _ h => (by cases h)⟩⟩
    rw [Prog.meets_ensure]
    rintro (x | book) -
    · refine ⟨hsymbol, ?_⟩
      rintro (y | _) -
      · exact ⟨trivial, fun _ h => (by cases h)⟩
      · exact ⟨trivial, fun _ h => (by cases h)⟩
    · refine ⟨hsymbol, ?_⟩
      rintro (y | _) -
      · exact ⟨trivial, fun _ h => (by cases h)⟩
      · exact ⟨trivial, fun _ h => by cases h; rfl⟩

theorem symbolPass_handling (attempt : ℤ) (connectedOnce : Bool) (q : Handling)
    (hsymbol : symbol ∈ mine) :
    (symbolPass name symbol attempt connectedOnce).Meets (handling name mine) can q
      fun _ _ => True := by
  have hfailed : ∀ (attempt : ℤ) (x : PyExc) (q : Handling),
      (do return (← reconnect attempt x, false) : Prog Sockets (ℤ × Bool)).Meets
        (handling name mine) can q fun _ _ => True := by
    intro attempt x q
    rw [Prog.meets_bind]
    exact (reconnect_handling attempt x q).mono fun r q' _ => by cases r <;> trivial
  unfold symbolPass
  rw [Prog.meets_bind, Prog.meets_attempt]
  refine (awaitBook_handling connectedOnce q hsymbol).mono ?_
  rintro (x | book) q' hq'
  · exact hfailed attempt x q'
  · obtain rfl := hq' book rfl
    refine (Prog.meets_call_bind _ _ _).mpr ⟨fun _ _ => ⟨trivial, ?_⟩, fun y _ => ⟨trivial, trivial⟩⟩
    rw [Prog.meets_bind, Prog.meets_attempt]
    refine (handleOrderBook_handling book _ rfl).mono ?_
    rintro (x | _) q'' -
    · exact hfailed 0 x q''
    · trivial

theorem multiplexedPass_handling (symbols : List String) (attempt : ℤ) (q : Handling)
    (hsymbols : symbols = mine) :
    (multiplexedPass name symbols attempt).Meets (handling name mine) can q
      fun _ _ => True := by
  unfold multiplexedPass
  rw [Prog.meets_bind, Prog.meets_attempt]
  rintro (x | book) -
  · exact ⟨hsymbols, reconnect_handling attempt x _⟩
  · refine ⟨hsymbols, ?_⟩
    refine (Prog.meets_call_bind _ _ _).mpr ⟨fun _ _ => ⟨trivial, ?_⟩, fun y _ => ⟨trivial, trivial⟩⟩
    rw [Prog.meets_bind, Prog.meets_attempt]
    refine Prog.Meets.mono (?_ : Prog.Meets (handling name mine) can _
      (q.step ⟨.watchOrderBookForSymbols symbols, .ok book⟩) fun _ _ => True) ?_
    · split
      · trivial
      · trivial
      · rename_i symbol hnonempty hsymbol
        exact handleOrderBook_handling book _ (by simp [Handling.step, bookFor, hsymbol])
    · rintro (x | _) q'' -
      · exact reconnect_handling 0 x q''
      · trivial

theorem symbolLoop_handling (n : ℕ) (attempt : ℤ) (connectedOnce : Bool) (q : Handling)
    (hsymbol : symbol ∈ mine) :
    (symbolLoop name symbol n attempt connectedOnce).Meets (handling name mine) can q
      fun _ _ => True := by
  induction n generalizing attempt connectedOnce q with
  | zero => trivial
  | succ n ih =>
    unfold symbolLoop
    refine (Prog.meets_call_bind _ _ _).mpr ⟨fun b _ => ⟨trivial, ?_⟩, fun x _ => ⟨trivial, trivial⟩⟩
    cases b with
    | false => trivial
    | true =>
      simp only [if_true]
      rw [Prog.meets_bind]
      refine (symbolPass_handling attempt connectedOnce _ hsymbol).mono ?_
      rintro (x | ⟨attempt, connected⟩) q' -
      · trivial
      · exact ih attempt connected q'

theorem watchMultiplexed_handling (n : ℕ) (attempt : ℤ) (q : Handling) :
    (watchMultiplexed name mine n attempt).Meets (handling name mine) can q
      fun _ _ => True := by
  induction n generalizing attempt q with
  | zero => trivial
  | succ n ih =>
    unfold watchMultiplexed
    refine (Prog.meets_call_bind _ _ _).mpr ⟨fun b _ => ⟨trivial, ?_⟩, fun x _ => ⟨trivial, trivial⟩⟩
    cases b with
    | false => trivial
    | true =>
      simp only [if_true]
      rw [Prog.meets_bind]
      refine (multiplexedPass_handling mine attempt _ rfl).mono ?_
      rintro (x | attempt) q' -
      · trivial
      · exact ih attempt q'

theorem startTasks_handling (multiplexed : Bool) (symbols : List String) (n : ℕ)
    (i : Fin (taskCount multiplexed name symbols)) :
    (startTasks multiplexed name symbols n i).Meets
      (handling name (taskSymbols multiplexed name symbols i)) can Handling.idle
      fun _ _ => True := by
  cases multiplexed with
  | true => exact watchMultiplexed_handling n 0 _
  | false =>
    have hmine : symbols.get i ∈ taskSymbols false name symbols i := List.mem_singleton.mpr rfl
    simp only [startTasks, symbolTasks, watchSymbol]
    split
    · refine (Prog.meets_call_bind _ _ _).mpr ⟨fun _ _ => ⟨trivial, ?_⟩,
        fun x _ => ⟨trivial, trivial⟩⟩
      exact symbolLoop_handling n 0 false _ hmine
    · exact symbolLoop_handling n 0 false _ hmine

/-- The book at hand has not been handed on, or its tick is the newest of its symbol. -/
def Handling.Fits (name : String) (mine : List String) (log : List (Event Sockets)) :
    Handling → Prop
  | .idle => True
  | .received symbol book | .timed symbol book _ =>
    symbol ∈ mine ∧ Handed name symbol [book] log
  | .ticked symbol book now => symbol ∈ mine ∧ book ∈ booksOf symbol log ∧
    ∃ tick, bookTick name symbol book now = .ok tick ∧
      (ticksOf symbol log).getLast? = some tick.toRedis

theorem Handling.Fits.other {q : Handling} (h : q.Fits name mine log)
    (hbooks : ∀ s ∈ mine, booksOf s [e] = []) (hticks : ∀ s ∈ mine, ticksOf s [e] = []) :
    q.Fits name mine (log ++ [e]) := by
  have hhanded : ∀ s ∈ mine, ∀ rest, Handed name s rest log → Handed name s rest (log ++ [e]) := by
    rintro s hs rest ⟨handed, hsub, hall⟩
    refine ⟨handed, ?_, ?_⟩
    · rw [booksOf_append, hbooks s hs, List.append_nil]
      exact hsub
    · rw [ticksOf_append, hticks s hs, List.append_nil]
      exact hall
  cases q with
  | idle => trivial
  | received s b => exact ⟨h.1, hhanded s h.1 _ h.2⟩
  | timed s b now => exact ⟨h.1, hhanded s h.1 _ h.2⟩
  | ticked s b now =>
    obtain ⟨hs, hcame, tick, htick, hlast⟩ := h
    refine ⟨hs, ?_, tick, htick, ?_⟩
    · rw [booksOf_append]
      exact List.mem_append_left _ hcame
    · rw [ticksOf_append, hticks s hs, List.append_nil]
      exact hlast

structure FeedState (name : String) {ι : Type} (mine : ι → List String) (q : ι → Handling)
    (log : List (Event Sockets)) : Prop where
  handed : ∀ s, Handed name s [] log
  fits : ∀ i, (q i).Fits name (mine i) log

theorem handed_book {s : String} {book : OrderBook} (hbook : bookFor e = some (s, book))
    (hentry : entryOf e = none) (h : ∀ s, Handed name s [] log) :
    (∀ s, Handed name s [] (log ++ [e])) ∧ Handed name s [book] (log ++ [e]) := by
  have hticks : ∀ s, ticksOf s [e] = [] := fun s => by simp [ticksOf, hentry]
  constructor
  · intro s'
    obtain ⟨handed, hsub, hall⟩ := h s'
    refine ⟨handed, ?_, ?_⟩
    · rw [booksOf_append]
      exact hsub.trans (List.sublist_append_left _ _)
    · rw [ticksOf_append, hticks, List.append_nil]
      exact hall
  · obtain ⟨handed, hsub, hall⟩ := h s
    refine ⟨handed, ?_, ?_⟩
    · rw [booksOf_append, show booksOf s [e] = [book] by simp [booksOf, hbook]]
      rw [List.append_nil] at hsub
      exact hsub.append (List.Sublist.refl _)
    · rw [ticksOf_append, hticks, List.append_nil]
      exact hall

theorem handed_tick {s : String} {book : OrderBook} {now : ℤ} {tick : PriceTick}
    (hbook : bookFor e = none) (hentry : entryOf e = some tick.toRedis)
    (htick : bookTick name s book now = .ok tick) (h : ∀ s, Handed name s [] log)
    (hone : Handed name s [book] log) :
    (∀ s, Handed name s [] (log ++ [e])) ∧
      (ticksOf s (log ++ [e])).getLast? = some tick.toRedis := by
  have hbooks : ∀ s, booksOf s [e] = [] := fun s => by simp [booksOf, hbook]
  have hown : ticksOf s [e] = [tick.toRedis] := by
    simp [ticksOf, hentry, tick_symbol htick]
  constructor
  · intro s'
    by_cases hs : s' = s
    · subst hs
      obtain ⟨handed, hsub, hall⟩ := hone
      refine ⟨handed ++ [book], ?_, ?_⟩
      · rw [booksOf_append, hbooks]
        simpa using hsub
      · rw [ticksOf_append, hown]
        exact List.rel_append hall (.cons ⟨now, tick, htick, rfl⟩ .nil)
    · have hother : ticksOf s' [e] = [] := by
        simp [ticksOf, hentry, tick_symbol htick, Ne.symm hs]
      obtain ⟨handed, hsub, hall⟩ := h s'
      refine ⟨handed, ?_, ?_⟩
      · rw [booksOf_append, hbooks]
        simpa using hsub
      · rw [ticksOf_append, hother, List.append_nil]
        exact hall
  · rw [ticksOf_append, hown, List.getLast?_append]
    rfl

theorem bookFor_mine {q : Handling} {c : SocketCall} {w : SocketWorld} {s : String}
    {book : OrderBook}
    (hq : (handling name mine).allows q ⟨c, (SocketWorld.serve c w).1⟩)
    (h : bookFor ⟨c, (SocketWorld.serve c w).1⟩ = some (s, book)) : s ∈ mine := by
  cases c with
  | watchOrderBook symbol =>
    unfold SocketWorld.serve at h
    split at h
    · cases h
      exact hq
    · cases h
  | watchOrderBookForSymbols symbols =>
    have hmine : symbols = mine := hq
    unfold SocketWorld.serve at h
    split at h
    · simp only [bookFor, SocketWorld.answer, Option.map_eq_some_iff] at h
      obtain ⟨s', hs', heq⟩ := h
      cases heq
      rw [← hmine]
      exact List.mem_of_getElem? hs'
    · cases h
  | _ => cases h

theorem Handling.Fits.quiet {q : Handling} (h : q.Fits name mine log)
    (hbook : bookFor e = none) (hentry : entryOf e = none) :
    (q.step e).Fits name mine (log ++ [e]) := by
  have hkept : q.Fits name mine (log ++ [e]) :=
    h.other (fun s _ => by simp [booksOf, hbook]) (fun s _ => by simp [ticksOf, hentry])
  simp only [Handling.step, hbook]
  split
  · exact hkept
  · cases hentry
  · trivial
  · trivial
  · exact hkept

theorem FeedState.step {ι : Type} [DecidableEq ι] {mine : ι → List String} {q : ι → Handling}
    (hdisjoint : ∀ i j s, s ∈ mine i → s ∈ mine j → i = j) (h : FeedState name mine q log)
    (i : ι) (c : SocketCall) (w : SocketWorld)
    (hq : (handling name (mine i)).allows (q i) ⟨c, (SocketWorld.serve c w).1⟩) :
    FeedState name mine (Function.update q i ((q i).step ⟨c, (SocketWorld.serve c w).1⟩))
      (log ++ [⟨c, (SocketWorld.serve c w).1⟩]) := by
  generalize he : (⟨c, (SocketWorld.serve c w).1⟩ : Event Sockets) = e at hq ⊢
  have hothers : (∀ s, booksOf s [e] ≠ [] → s ∈ mine i) → (∀ s, ticksOf s [e] ≠ [] → s ∈ mine i) →
      ((q i).step e).Fits name (mine i) (log ++ [e]) →
      ∀ j, (Function.update q i ((q i).step e) j).Fits name (mine j) (log ++ [e]) := by
    intro hbooks hticks hown j
    by_cases hj : j = i
    · subst hj
      rw [Function.update_self]
      exact hown
    · rw [Function.update_of_ne hj]
      refine (h.fits j).other ?_ ?_
      · intro s hs
        by_contra hne
        exact hj (hdisjoint j i s hs (hbooks s hne))
      · intro s hs
        by_contra hne
        exact hj (hdisjoint j i s hs (hticks s hne))
  rcases event_cases e with ⟨s, book, hbook, hentry⟩ | ⟨fields, hcall, hbook, hentry⟩ |
      ⟨hbook, hentry⟩
  · obtain ⟨hall, hone⟩ := handed_book hbook hentry h.handed
    have hmine : s ∈ mine i := by
      subst he
      exact bookFor_mine hq hbook
    refine ⟨hall, hothers ?_ ?_ ?_⟩
    · intro s' hs'
      by_cases hss : s = s'
      · rwa [← hss]
      · exact absurd (by simp [booksOf, hbook, hss]) hs'
    · intro s' hs'
      exact absurd (by simp [ticksOf, hentry]) hs'
    · simp only [Handling.step, hbook]
      exact ⟨hmine, hone⟩
  · obtain ⟨c', a⟩ := e
    change c' = _ at hcall
    subst hcall
    obtain ⟨s, book, now, tick, hqi, htick, rfl⟩ := hq
    have hfits := h.fits i
    rw [hqi] at hfits
    obtain ⟨hall, hlast⟩ := handed_tick hbook hentry htick h.handed hfits.2
    refine ⟨hall, hothers ?_ ?_ ?_⟩
    · intro s' hs'
      exact absurd (by simp [booksOf, hbook]) hs'
    · intro s' hs'
      by_cases hss : s = s'
      · rw [← hss]
        exact hfits.1
      · exact absurd (by simp [ticksOf, hentry, tick_symbol htick, hss]) hs'
    · rw [hqi]
      cases a with
      | ok _ =>
        refine ⟨hfits.1, ?_, tick, htick, hlast⟩
        rw [booksOf_append]
        exact List.mem_append_left _ hfits.2.came
      | error x => trivial
  · refine ⟨fun s => ?_, hothers ?_ ?_ ((h.fits i).quiet hbook hentry)⟩
    · obtain ⟨handed, hsub, hall⟩ := h.handed s
      refine ⟨handed, ?_, ?_⟩
      · simpa [booksOf_append, booksOf, hbook] using hsub
      · simpa [ticksOf_append, ticksOf, hentry] using hall
    · intro s hs
      exact absurd (by simp [booksOf, hbook]) hs
    · intro s hs
      exact absurd (by simp [ticksOf, hentry]) hs

end

theorem serve_prices (c : SocketCall) (w : SocketWorld) :
    (SocketWorld.serve c w).2.prices =
      w.prices ++ (entryOf ⟨c, (SocketWorld.serve c w).1⟩).toList := by
  unfold SocketWorld.serve
  split
  · cases c <;> simp [SocketWorld.effect, SocketWorld.next, entryOf]
  · rename_i x _
    cases c with
    | xadd fields =>
      cases hx : x.served <;>
        simp [SocketWorld.failed, SocketWorld.effect, SocketWorld.next, entryOf, hx]
    | acquire => simp [SocketWorld.failed, SocketWorld.next, entryOf]
    | _ =>
      simp only [SocketWorld.failed]
      split <;> simp [SocketWorld.effect, SocketWorld.next, entryOf]

theorem serve_strings (c : SocketCall) (w : SocketWorld) :
    (SocketWorld.serve c w).2.strings = w.strings ∨
      ∃ key value ex, c = .set key value ex ∧
        (SocketWorld.serve c w).2.strings = Function.update w.strings key (some value) := by
  unfold SocketWorld.serve
  split
  · cases c with
    | set key value ex => exact .inr ⟨key, value, ex, rfl, rfl⟩
    | _ => exact .inl rfl
  · cases c with
    | set key value ex =>
      simp only [SocketWorld.failed]
      split
      · exact .inr ⟨key, value, ex, rfl, rfl⟩
      · exact .inl rfl
    | acquire => exact .inl rfl
    | _ =>
      simp only [SocketWorld.failed]
      split <;> exact .inl rfl

theorem follows_prices {w w' : SocketWorld} {es : List (Event Sockets)}
    (h : Follows SocketWorld.serve w es w') :
    w'.prices = w.prices ++ es.filterMap entryOf := by
  induction es generalizing w with
  | nil =>
    cases h
    simp
  | cons e es ih =>
    obtain ⟨hr, h⟩ := h
    have he : (⟨e.call, (SocketWorld.serve e.call w).1⟩ : Event Sockets) = e := by rw [← hr]
    rw [ih h, serve_prices, he, List.append_assoc, List.filterMap_cons]
    cases entryOf e <;> rfl

theorem follows_strings (key : String) {w w' : SocketWorld} {es : List (Event Sockets)}
    (h : Follows SocketWorld.serve w es w') :
    w'.strings key = w.strings key ∨
      ∃ before value ex a rest, es = before ++ ⟨.set key value ex, a⟩ :: rest ∧
        w'.strings key = some value := by
  induction es generalizing w with
  | nil =>
    cases h
    exact .inl rfl
  | cons e es ih =>
    obtain ⟨-, h⟩ := h
    rcases ih h with hsame | ⟨before, value, ex, a, rest, rfl, hvalue⟩
    · rcases serve_strings e.call w with hkept | ⟨k, value, ex, hcall, hset⟩
      · exact .inl (by rw [hsame, hkept])
      · rw [hset] at hsame
        by_cases hk : key = k
        · subst hk
          rw [Function.update_self] at hsame
          obtain ⟨c, a⟩ := e
          change c = _ at hcall
          subst hcall
          exact .inr ⟨[], value, ex, a, es, rfl, hsame⟩
        · rw [Function.update_of_ne hk] at hsame
          exact .inl hsame
    · exact .inr ⟨e :: before, value, ex, a, rest, rfl, hvalue⟩

/-- The document is that of a book that came, and the tick of this book is by then the newest of
its symbol. -/
def Documented [PyText] (name : String) (before : List (Event Sockets)) (key value : String) :
    Prop :=
  ∃ symbol book now tick, book ∈ booksOf symbol before ∧ key = depthKey name symbol ∧
    bookTick name symbol book now = .ok tick ∧
    dumpDepth book.bids book.asks now depthLevels = .ok value ∧
    (ticksOf symbol before).getLast? = some tick.toRedis

def WellDocumented [PyText] (name : String) (before : List (Event Sockets))
    (e : Event Sockets) : Prop :=
  match e.call with
  | .set key value _ => Documented name before key value
  | _ => True

theorem FeedState.documents [PyText] {name : String} {ι : Type} {mine : ι → List String}
    {q : ι → Handling} {log : List (Event Sockets)} (h : FeedState name mine q log) (i : ι)
    (c : SocketCall) (w : SocketWorld)
    (hq : (handling name (mine i)).allows (q i) ⟨c, (SocketWorld.serve c w).1⟩) :
    WellDocumented name log ⟨c, (SocketWorld.serve c w).1⟩ := by
  cases c with
  | set key value ex =>
    obtain ⟨s, book, now, hqi, hkey, hvalue⟩ := hq
    have hfits := h.fits i
    rw [hqi] at hfits
    obtain ⟨-, hcame, tick, htick, hlast⟩ := hfits
    exact ⟨s, book, now, tick, hcame, hkey, htick, hvalue, hlast⟩
  | _ => trivial

/-- However the tasks of a target are interleaved and whatever fails, the stream gets ticks of the
books that came, for each symbol in their order and each book at most once; and whenever a
document is stored, the newest tick of its symbol is the one of the same book. -/
theorem feed_consistent [PyText] (db : Option CollectorDb) (target : String × List String)
    (htarget : target ∈ loadTargets db) (multiplexed : Bool) (n : ℕ) (w : SocketWorld)
    (schedule : List (Fin (taskCount multiplexed target.1 target.2))) :
    let run := runReady (fun c w => w.ready c) SocketWorld.serve schedule
      (startTasks multiplexed target.1 target.2 n) w
    run.state.prices = w.prices ++ (merged run.log).filterMap entryOf ∧
    (∀ symbol, Handed target.1 symbol [] (merged run.log)) ∧
    ∀ key, run.state.strings key = w.strings key ∨
      ∃ before value ex a rest, merged run.log = before ++ ⟨.set key value ex, a⟩ :: rest ∧
        Documented target.1 before key value ∧ run.state.strings key = some value := by
  intro run
  have hf : FollowsReady (fun c w => SocketWorld.ready c w) SocketWorld.serve w (merged run.log)
      run.state := followsReady_runReady _ _ schedule _ w
  have hown : ∀ i, (handling target.1 (taskSymbols multiplexed target.1 target.2 i)).Accepts
      Handling.idle (own i run.log) := fun i =>
    (meets_runReady _ _ schedule _ w i (startTasks_handling multiplexed target.2 n i)).1
  have hstart : FeedState target.1 (taskSymbols multiplexed target.1 target.2)
      (fun _ => Handling.idle)
      (merged ([] : List (Fin (taskCount multiplexed target.1 target.2) × Event Sockets))) :=
    ⟨fun s => ⟨[], .slnil, .nil⟩, fun i => trivial⟩
  obtain ⟨hdocuments, q, -, hend⟩ := accepts_of_tasks SocketWorld.serve
    (fun i => handling target.1 (taskSymbols multiplexed target.1 target.2 i))
    (Monitor.free _) (Monitor.history fun log ie => WellDocumented target.1 (merged log) ie.2)
    (fun _ q _ log =>
      FeedState target.1 (taskSymbols multiplexed target.1 target.2) q (merged log))
    (fun s q a log i c hinv hq _ => by
      have hnext := hinv.step (fun i j s => taskSymbols_disjoint (loadTargets_nodup htarget))
        i c s hq
      refine ⟨hinv.documents i c s hq, ?_⟩
      rw [merged, List.map_append]
      exact hnext)
    hf.follows hstart hown (Monitor.free_accepts _)
  rw [Monitor.history_after, List.nil_append] at hend
  refine ⟨follows_prices hf.follows, hend.handed, fun key => ?_⟩
  rcases follows_strings key hf.follows with hsame | ⟨before, value, ex, a, rest, hlog, hvalue⟩
  · exact .inl hsame
  · refine .inr ⟨before, value, ex, a, rest, hlog, ?_, hvalue⟩
    obtain ⟨first, last, hsplit, hfirst, hlast⟩ := List.map_eq_append_iff.mp hlog
    obtain ⟨⟨i, e⟩, last, rfl, he, -⟩ := List.map_eq_cons_iff.mp hlast
    rw [hsplit] at hdocuments
    have hdocument := Monitor.history_split hdocuments
    simp only [List.nil_append] at he hdocument
    rw [he] at hdocument
    rw [← hfirst]
    exact hdocument

theorem draw_zero : (0 : ℚ) ≤ 0 ∧ (0 : ℚ) ≤ 1 := ⟨le_refl 0, zero_le_one⟩

def twoPairs : CollectorDb :=
  ⟨⟨[⟨"kucoin", true⟩], by decide⟩,
    ⟨[⟨"BTC/USDT", "kucoin", true, 2⟩, ⟨"ETH/USDT", "kucoin", true, 2⟩], by decide⟩⟩

def twoSymbols : List String := ["BTC/USDT", "ETH/USDT"]

def movingBook (moved : Bool) : OrderBook :=
  ⟨none, [[if moved then 101 else 100, 1], [99, 4]], [[if moved then 103 else 102, 1], [104, 4]],
    none⟩

/-- A world in which the market moves, and the last document does not get through. -/
def movingWorld : SocketWorld :=
  SocketWorld.start [] (fun _ => none) fun n =>
    ⟨if n = 31 then some (.callFailed false) else none, movingBook (20 ≤ n), 0, true, n,
      ⟨0, draw_zero⟩⟩

@[reducible] def feedText : PyText :=
  .ofTables [("1.0", 1), ("4.0", 4), ("99.0", 99), ("100.0", 100), ("101.0", 101), ("102.0", 102),
    ("103.0", 103), ("104.0", 104)] []

def twoTasksRun : Interleaved Sockets SocketWorld (Fin (taskCount false "kucoin" twoSymbols))
    Unit :=
  runReady (fun c w => w.ready c) SocketWorld.serve
    ((List.replicate 18 [⟨0, by decide⟩, ⟨1, by decide⟩]).flatten)
    (@startTasks feedText false "kucoin" twoSymbols 2) movingWorld

def ethDocument : String :=
  "\x7b\"ts\": 13000, \"bids\": [[100.0, 1.0], [99.0, 4.0]], \"asks\": [[102.0, 1.0], [104.0, 4.0]]\x7d"

/-- Each symbol has two ticks, and ETH/USDT still has its first document. -/
theorem feed_consistent_kucoin :
    (∀ symbol ∈ twoSymbols, (ticksOf symbol (merged twoTasksRun.log)).length = 2 ∧
      @Handed feedText "kucoin" symbol [] (merged twoTasksRun.log)) ∧
    ∃ before ex a rest, merged twoTasksRun.log =
        before ++ ⟨.set "depth:kucoin:ETH/USDT" ethDocument ex, a⟩ :: rest ∧
      @Documented feedText "kucoin" before "depth:kucoin:ETH/USDT" ethDocument := by
  obtain ⟨-, hhanded, hstored⟩ := @feed_consistent feedText (some twoPairs)
    ("kucoin", twoSymbols) (by decide +kernel) false 2 movingWorld
    ((List.replicate 18 [⟨0, by decide⟩, ⟨1, by decide⟩]).flatten)
  have hticks : ∀ symbol ∈ twoSymbols,
      (ticksOf symbol (merged twoTasksRun.log)).length = 2 := by decide +kernel
  have hdocument : twoTasksRun.state.strings "depth:kucoin:ETH/USDT" = some ethDocument := by
    decide +kernel
  refine ⟨fun symbol hsymbol => ⟨hticks symbol hsymbol, hhanded symbol⟩, ?_⟩
  rcases hstored "depth:kucoin:ETH/USDT" with hnone | ⟨before, value, ex, a, rest, hlog, hdoc, hvalue⟩
  · cases hdocument.symm.trans hnone
  · obtain rfl := Option.some.inj (hvalue.symm.trans hdocument)
    exact ⟨before, ex, a, rest, hlog, hdoc⟩

end CriptoParser
