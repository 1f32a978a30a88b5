import CriptoParser.PythonFloats
import CriptoParser.SharedDepth

/-!
The depth functions on everything a JSON document may hold. What is read under `try` is caught
for three kinds of errors; the levels are destructured later, outside it.
-/

set_option autoImplicit false

namespace CriptoParser.Floating

structure Depth where
  ts : ℤ
  bids : JsonValue
  asks : JsonValue

section
variable [PyReader]

def readDepth (raw : String) : Except PyExc (Option Depth) := do
  let d ← match PyReader.loads raw with
    | .value v => Except.ok v
    | .malformed => .error .valueError
    | .tooDeep => .error .recursionError
  let bids ← d.get "bids"
  match bids.filter JsonOf.truthy with
  | none => .ok none
  | some bids =>
    let asks ← d.get "asks"
    match asks.filter JsonOf.truthy with
    | none => .ok none
    | some asks =>
      match ← d.get "ts" with
      | none => .error .keyError
      | some ts => .ok (some ⟨← JsonValue.toInt ts, bids, asks⟩)

/-- `except (ValueError, KeyError, TypeError)`. -/
def parseDepth : Option String → Except PyExc (Option Depth)
  | none => .ok none
  | some raw =>
    if raw = "" then .ok none
    else match readDepth raw with
      | .error .valueError | .error .keyError | .error .typeError => .ok none
      | r => r

variable [FloatRounding]

def eps : PyFloat := FloatRounding.round depthEps

def readLevel (level : JsonValue) : Except PyExc (PyFloat × PyFloat) := do
  let (price, qty) ← level.unpackPair
  .ok (← JsonValue.toFloat price, ← JsonValue.toFloat qty)

def walkAsksLoop : List JsonValue → PyFloat → PyFloat → Except PyExc (PyFloat × PyFloat)
  | [], remaining, amount => .ok (remaining, amount)
  | level :: rest, remaining, amount => do
    let (price, qty) ← readLevel level
    if price.le (.finite 0) || qty.le (.finite 0) then walkAsksLoop rest remaining amount
    else if remaining.le (price.mul qty) then .ok (.finite 0, amount.add (← remaining.div price))
    else walkAsksLoop rest (remaining.sub (price.mul qty)) (amount.add qty)

def walkAsksForNotional (asks : JsonValue) (notionalUsd : PyFloat) :
    Except PyExc (Option (PyFloat × PyFloat)) :=
  if notionalUsd.le (.finite 0) then .ok none
  else do
    let (remaining, amount) ← walkAsksLoop (← asks.items) notionalUsd (.finite 0)
    if (eps.mul notionalUsd).lt remaining || amount.le (.finite 0) then .ok none
    else .ok (some (amount, ← notionalUsd.div amount))

def walkBidsLoop : List JsonValue → PyFloat → PyFloat → Except PyExc (PyFloat × PyFloat)
  | [], remaining, proceeds => .ok (remaining, proceeds)
  | level :: rest, remaining, proceeds => do
    let (price, qty) ← readLevel level
    if price.le (.finite 0) || qty.le (.finite 0) then walkBidsLoop rest remaining proceeds
    else
      let take := if qty.lt remaining then qty else remaining
      if (remaining.sub take).le (.finite 0) then
        .ok (remaining.sub take, proceeds.add (take.mul price))
      else walkBidsLoop rest (remaining.sub take) (proceeds.add (take.mul price))

def walkBidsForAmount (bids : JsonValue) (amountBase : PyFloat) :
    Except PyExc (Option PyFloat) :=
  if amountBase.le (.finite 0) then .ok none
  else do
    let (remaining, proceeds) ← walkBidsLoop (← bids.items) amountBase (.finite 0)
    if (eps.mul amountBase).lt remaining then .ok none
    else .ok (some (← proceeds.div amountBase))

def topPrice (side : JsonValue) : Except PyExc PyFloat := do
  let level ← side.first
  let price ← level.first
  JsonValue.toFloat price

end

section
variable [PyReader]

theorem toInt_cases (ts : JsonValue) :
    (∃ n, ts.toInt = .ok n) ∨ ts.toInt = .error .valueError ∨ ts.toInt = .error .typeError ∨
      (ts.toInt = .error .overflowError ∧ (ts = .float .inf ∨ ts = .float .negInf)) := by
  cases ts with
  | bool b => exact .inl ⟨_, rfl⟩
  | number n =>
    cases n with
    | int n => exact .inl ⟨n, rfl⟩
    | float x =>
      cases x with
      | finite q => exact .inl ⟨_, rfl⟩
      | inf => exact .inr (.inr (.inr ⟨rfl, .inl rfl⟩))
      | negInf => exact .inr (.inr (.inr ⟨rfl, .inr rfl⟩))
      | nan => exact .inr (.inl rfl)
  | str s =>
    cases hs : PyReader.int s with
    | some n => exact .inl ⟨n, by simp only [JsonValue.toInt, JsonOf.convert, hs]⟩
    | none => exact .inr (.inl (by simp only [JsonValue.toInt, JsonOf.convert, hs]))
  | null | list | dict => exact .inr (.inr (.inl rfl))

theorem parseDepth_read {s : String} (hs : s ≠ "") :
    parseDepth (some s) = match readDepth s with
      | .error .valueError | .error .keyError | .error .typeError => .ok none
      | r => r := by
  unfold parseDepth
  exact if_neg hs

theorem readDepth_dict {s : String} {kvs : List (String × JsonValue)}
    (hl : PyReader.loads s = .value (.dict kvs)) :
    readDepth s =
      match (kvs.lookup "bids").filter JsonOf.truthy,
        (kvs.lookup "asks").filter JsonOf.truthy, kvs.lookup "ts" with
      | some bids, some asks, some ts => ts.toInt.map fun n => some ⟨n, bids, asks⟩
      | some _, some _, none => .error .keyError
      | _, _, _ => .ok none := by
  simp only [readDepth, hl, JsonOf.get, bind, Except.bind]
  cases (kvs.lookup "bids").filter JsonOf.truthy with
  | none => rfl
  | some bids =>
    cases (kvs.lookup "asks").filter JsonOf.truthy with
    | none => rfl
    | some asks =>
      cases kvs.lookup "ts" with
      | none => rfl
      | some ts => cases ts.toInt <;> rfl

theorem readDepth_other {s : String} {v : JsonValue} (hl : PyReader.loads s = .value v)
    (hv : ∀ kvs, v ≠ .dict kvs) : readDepth s = .error .attributeError := by
  have hget : v.get "bids" = .error .attributeError := by
    cases v with
    | dict kvs => exact absurd rfl (hv kvs)
    | _ => rfl
  simp only [readDepth, hl, hget, bind, Except.bind]

end

def Returns {α : Type} (r : Except PyExc α) : Prop := ∃ a, r = .ok a

section
variable [PyReader] [FloatRounding] {level : JsonValue} {levels : List JsonValue}
  {side : JsonValue}

def Readable (level : JsonValue) : Prop :=
  ∃ price qty, level.items = .ok [price, qty] ∧ Returns (JsonValue.toFloat price) ∧
    Returns (JsonValue.toFloat qty)

theorem returns_readLevel : Returns (readLevel level) ↔ Readable level := by
  constructor
  · rintro ⟨pq, h⟩
    unfold readLevel JsonOf.unpackPair at h
    cases hi : level.items with
    | error x =>
      rw [hi] at h
      cases h
    | ok l =>
      rw [hi] at h
      match l, h with
      | [price, qty], h =>
        simp only [bind, Except.bind] at h
        cases hp : JsonValue.toFloat price with
        | error x =>
          rw [hp] at h
          cases h
        | ok p =>
          cases hq : JsonValue.toFloat qty with
          | error x =>
            rw [hp, hq] at h
            cases h
          | ok q => exact ⟨price, qty, hi, ⟨p, hp⟩, q, hq⟩
  · rintro ⟨price, qty, hi, ⟨p, hp⟩, q, hq⟩
    refine ⟨(p, q), ?_⟩
    simp only [readLevel, JsonOf.unpackPair, hi, hp, hq, bind, Except.bind]

theorem walkAsksLoop_returns (h : ∀ l ∈ levels, Readable l) (remaining amount : PyFloat) :
    Returns (walkAsksLoop levels remaining amount) := by
  induction levels generalizing remaining amount with
  | nil => exact ⟨_, rfl⟩
  | cons level rest ih =>
    obtain ⟨⟨price, qty⟩, hl⟩ := returns_readLevel.mpr (h level List.mem_cons_self)
    have hrest := ih fun l hl => h l (List.mem_cons_of_mem _ hl)
    simp only [walkAsksLoop, hl, bind, Except.bind]
    by_cases hskip : price.le (.finite 0) || qty.le (.finite 0)
    · rw [if_pos hskip]
      exact hrest _ _
    · rw [if_neg hskip]
      simp only [Bool.or_eq_true, not_or, Bool.not_eq_true] at hskip
      split
      · obtain ⟨z, hz⟩ := PyFloat.div_ok remaining hskip.1
        exact ⟨_, by rw [hz]⟩
      · exact hrest _ _

theorem walkBidsLoop_returns (h : ∀ l ∈ levels, Readable l) (remaining proceeds : PyFloat) :
    Returns (walkBidsLoop levels remaining proceeds) := by
  induction levels generalizing remaining proceeds with
  | nil => exact ⟨_, rfl⟩
  | cons level rest ih =>
    obtain ⟨⟨price, qty⟩, hl⟩ := returns_readLevel.mpr (h level List.mem_cons_self)
    have hrest := ih fun l hl => h l (List.mem_cons_of_mem _ hl)
    simp only [walkBidsLoop, hl, bind, Except.bind]
    split
    · exact hrest _ _
    · generalize (if qty.lt remaining then qty else remaining) = take
      split
      · exact ⟨_, rfl⟩
      · exact hrest _ _

theorem walkAsksLoop_nan {amount : PyFloat} (h : Returns (walkAsksLoop levels .nan amount)) :
    ∀ l ∈ levels, Readable l := by
  induction levels generalizing amount with
  | nil => simp
  | cons level rest ih =>
    cases hl : readLevel level with
    | error x =>
      obtain ⟨r, hr⟩ := h
      simp only [walkAsksLoop, hl, bind, Except.bind] at hr
      cases hr
    | ok pq =>
      obtain ⟨price, qty⟩ := pq
      have hrest : ∃ amount, Returns (walkAsksLoop rest .nan amount) := by
        simp only [walkAsksLoop, hl, bind, Except.bind, PyFloat.nan_le, PyFloat.nan_sub,
          Bool.false_eq_true, if_false] at h
        split at h
        · exact ⟨_, h⟩
        · exact ⟨_, h⟩
      obtain ⟨amount, hrest⟩ := hrest
      exact List.forall_mem_cons.mpr ⟨returns_readLevel.mp ⟨_, hl⟩, ih hrest⟩

theorem walkBidsLoop_nan {proceeds : PyFloat}
    (h : Returns (walkBidsLoop levels .nan proceeds)) : ∀ l ∈ levels, Readable l := by
  induction levels generalizing proceeds with
  | nil => simp
  | cons level rest ih =>
    cases hl : readLevel level with
    | error x =>
      obtain ⟨r, hr⟩ := h
      simp only [walkBidsLoop, hl, bind, Except.bind] at hr
      cases hr
    | ok pq =>
      obtain ⟨price, qty⟩ := pq
      have hrest : ∃ proceeds, Returns (walkBidsLoop rest .nan proceeds) := by
        simp only [walkBidsLoop, hl, bind, Except.bind, PyFloat.nan_le, PyFloat.nan_sub,
          PyFloat.lt_nan, Bool.false_eq_true, if_false] at h
        split at h
        · exact ⟨_, h⟩
        · exact ⟨_, h⟩
      obtain ⟨proceeds, hrest⟩ := hrest
      exact List.forall_mem_cons.mpr ⟨returns_readLevel.mp ⟨_, hl⟩, ih hrest⟩

theorem walkAsksForNotional_returns :
    (∀ n, Returns (walkAsksForNotional side n)) ↔
      ∃ levels, side.items = .ok levels ∧ ∀ l ∈ levels, Readable l := by
  constructor
  · intro h
    obtain ⟨r, hr⟩ := h .nan
    simp only [walkAsksForNotional, PyFloat.nan_le, Bool.false_eq_true, if_false, bind,
      Except.bind] at hr
    cases hi : side.items with
    | error x =>
      rw [hi] at hr
      cases hr
    | ok levels =>
      rw [hi] at hr
      cases hl : walkAsksLoop levels .nan (.finite 0) with
      | error x =>
        simp only [hl] at hr
        cases hr
      | ok ra => exact ⟨levels, rfl, walkAsksLoop_nan ⟨ra, hl⟩⟩
  · rintro ⟨levels, hi, hread⟩ n
    unfold walkAsksForNotional
    split
    · exact ⟨_, rfl⟩
    · obtain ⟨⟨remaining, amount⟩, hl⟩ := walkAsksLoop_returns hread n (.finite 0)
      simp only [hi, hl, bind, Except.bind]
      split
      · exact ⟨_, rfl⟩
      · rename_i hrest
        simp only [Bool.or_eq_true, not_or, Bool.not_eq_true] at hrest
        obtain ⟨z, hz⟩ := PyFloat.div_ok n hrest.2
        exact ⟨_, by rw [hz]⟩

theorem walkBidsForAmount_returns :
    (∀ a, Returns (walkBidsForAmount side a)) ↔
      ∃ levels, side.items = .ok levels ∧ ∀ l ∈ levels, Readable l := by
  constructor
  · intro h
    obtain ⟨r, hr⟩ := h .nan
    simp only [walkBidsForAmount, PyFloat.nan_le, Bool.false_eq_true, if_false, bind,
      Except.bind] at hr
    cases hi : side.items with
    | error x =>
      rw [hi] at hr
      cases hr
    | ok levels =>
      rw [hi] at hr
      cases hl : walkBidsLoop levels .nan (.finite 0) with
      | error x =>
        simp only [hl] at hr
        cases hr
      | ok rp => exact ⟨levels, rfl, walkBidsLoop_nan ⟨rp, hl⟩⟩
  · rintro ⟨levels, hi, hread⟩ a
    unfold walkBidsForAmount
    split
    · exact ⟨_, rfl⟩
    · rename_i ha
      obtain ⟨⟨remaining, proceeds⟩, hl⟩ := walkBidsLoop_returns hread a (.finite 0)
      simp only [hi, hl, bind, Except.bind]
      split
      · exact ⟨_, rfl⟩
      · obtain ⟨z, hz⟩ := PyFloat.div_ok proceeds (Bool.not_eq_true _ ▸ ha)
        exact ⟨_, by rw [hz]⟩

def Walkable (side : JsonValue) : Prop :=
  ∃ level rest, side = .list (level :: rest) ∧ (∀ kvs, level ≠ .dict kvs) ∧
    ∀ l ∈ level :: rest, Readable l

theorem not_readable_char (c : Char) : ¬Readable (.str (String.singleton c)) := by
  rintro ⟨price, qty, hi, -⟩
  simp [JsonOf.items] at hi

theorem readable_first (h : Readable level) (hdict : ∀ kvs, level ≠ .dict kvs) :
    ∃ price, level.first = .ok price ∧ Returns (JsonValue.toFloat price) := by
  obtain ⟨price, qty, hi, hprice, -⟩ := h
  cases level with
  | list l =>
    cases hi
    exact ⟨price, rfl, hprice⟩
  | str s =>
    refine ⟨price, ?_, hprice⟩
    simp only [JsonOf.items, Except.ok.injEq] at hi
    cases hs : s.toList with
    | nil => simp [hs] at hi
    | cons c cs =>
      simp only [hs, List.map_cons, List.cons.injEq] at hi
      simp [JsonOf.first, hs, hi.1]
  | dict kvs => exact absurd rfl (hdict kvs)
  | _ => cases hi

theorem walkable_iff (htrue : side.truthy = true) :
    (∃ levels, side.items = .ok levels ∧ ∀ l ∈ levels, Readable l) ∧ Returns (topPrice side) ↔
      Walkable side := by
  constructor
  · rintro ⟨⟨levels, hi, hread⟩, top, htop⟩
    cases side with
    | list l =>
      cases hi
      cases levels with
      | nil => cases htrue
      | cons level rest =>
        refine ⟨level, rest, rfl, ?_, hread⟩
        rintro kvs rfl
        cases htop
    | str s =>
      cases hi
      cases hs : s.toList with
      | nil => simp [JsonOf.truthy, String.toList_eq_nil_iff.mp hs] at htrue
      | cons c cs => exact absurd (hread _ (by simp [hs])) (not_readable_char c)
    | dict kvs => cases htop
    | _ => cases hi
  · rintro ⟨level, rest, rfl, hdict, hread⟩
    obtain ⟨price, hfirst, top, htop⟩ := readable_first (hread level List.mem_cons_self) hdict
    refine ⟨⟨_, rfl, hread⟩, top, ?_⟩
    have hside : (JsonOf.list (level :: rest)).first = .ok level := rfl
    simp only [topPrice, hside, hfirst, htop, bind, Except.bind]

end

section
variable [PyReader] [FloatRounding]

/-- Neither `parse_depth` nor a use of what it returns raises; the freshness is a difference of
ints. -/
def Sound (raw : Option String) : Prop :=
  ∃ r, parseDepth raw = .ok r ∧ ∀ d ∈ r,
    (∀ notional, Returns (walkAsksForNotional d.asks notional)) ∧
    (∀ amount, Returns (walkBidsForAmount d.bids amount)) ∧
    Returns (topPrice d.asks) ∧ Returns (topPrice d.bids)

/-- A dict with two sides and a time has no infinite time, and two walkable sides if the time
can be read. -/
def Harmless (kvs : List (String × JsonValue)) : Prop :=
  ∀ bids asks ts, kvs.lookup "bids" = some bids → kvs.lookup "asks" = some asks →
    kvs.lookup "ts" = some ts → bids.truthy = true → asks.truthy = true →
    ts ≠ .float .inf ∧ ts ≠ .float .negInf ∧
      ((∃ n, ts.toInt = .ok n) → Walkable bids ∧ Walkable asks)

def WellFormed (raw : Option String) : Prop :=
  ∀ s, raw = some s → s ≠ "" →
    match PyReader.loads s with
    | .malformed => True
    | .tooDeep => False
    | .value (.dict kvs) => Harmless kvs
    | .value _ => False

theorem sound_of_none {raw : Option String} (h : parseDepth raw = .ok none) : Sound raw :=
  ⟨none, h, by simp⟩

theorem not_sound_of_error {raw : Option String} {x : PyExc} (h : parseDepth raw = .error x) :
    ¬Sound raw := by
  rintro ⟨r, hr, -⟩
  rw [h] at hr
  cases hr

theorem sound_of_some {raw : Option String} {d : Depth} (h : parseDepth raw = .ok (some d))
    (hbids : d.bids.truthy = true) (hasks : d.asks.truthy = true) :
    Sound raw ↔ Walkable d.bids ∧ Walkable d.asks := by
  rw [← walkable_iff hbids, ← walkable_iff hasks, ← walkBidsForAmount_returns,
    ← walkAsksForNotional_returns]
  constructor
  · rintro ⟨r, hr, huse⟩
    rw [h] at hr
    cases hr
    obtain ⟨hwalkAsks, hwalkBids, htopAsk, htopBid⟩ := huse d rfl
    exact ⟨⟨hwalkBids, htopBid⟩, hwalkAsks, htopAsk⟩
  · rintro ⟨⟨hwalkBids, htopBid⟩, hwalkAsks, htopAsk⟩
    refine ⟨_, h, fun d' hd' => ?_⟩
    cases hd'
    exact ⟨hwalkAsks, hwalkBids, htopAsk, htopBid⟩

theorem sound_dict {s : String} {kvs : List (String × JsonValue)} (hs : s ≠ "")
    (hl : PyReader.loads s = .value (.dict kvs)) : Sound (some s) ↔ Harmless kvs := by
  have hparse := parseDepth_read hs
  have hread := readDepth_dict hl
  cases hb : (kvs.lookup "bids").filter JsonOf.truthy with
  | none =>
    simp only [hb] at hread
    rw [hread] at hparse
    refine iff_of_true (sound_of_none hparse) ?_
    intro bids asks ts hbids _ _ htrue
    simp [hbids, htrue] at hb
  | some bids =>
    obtain ⟨hbids, hbtrue⟩ := Option.filter_eq_some_iff.mp hb
    cases ha : (kvs.lookup "asks").filter JsonOf.truthy with
    | none =>
      simp only [hb, ha] at hread
      rw [hread] at hparse
      refine iff_of_true (sound_of_none hparse) ?_
      intro bids asks ts _ hasks _ _ htrue
      simp [hasks, htrue] at ha
    | some asks =>
      obtain ⟨hasks, hatrue⟩ := Option.filter_eq_some_iff.mp ha
      cases ht : kvs.lookup "ts" with
      | none =>
        simp only [hb, ha, ht] at hread
        rw [hread] at hparse
        refine iff_of_true (sound_of_none hparse) ?_
        intro bids asks ts _ _ hts
        rw [ht] at hts
        cases hts
      | some ts =>
        simp only [hb, ha, ht] at hread
        have hharm : Harmless kvs ↔ ts ≠ .float .inf ∧ ts ≠ .float .negInf ∧
            ((∃ n, ts.toInt = .ok n) → Walkable bids ∧ Walkable asks) := by
          unfold Harmless
          simp [hbids, hasks, ht, hbtrue, hatrue]
        rw [hharm]
        have hfinite : ∀ {x : PyExc}, ts.toInt = .error x → x ≠ .overflowError →
            ts ≠ .float .inf ∧ ts ≠ .float .negInf ∧
              ((∃ n, ts.toInt = .ok n) → Walkable bids ∧ Walkable asks) := by
          intro x hx hne
          refine ⟨?_, ?_, ?_⟩
          · rintro rfl
            exact hne (Except.error.inj hx).symm
          · rintro rfl
            exact hne (Except.error.inj hx).symm
          · rintro ⟨n, hn⟩
            rw [hn] at hx
            cases hx
        rcases toInt_cases ts with ⟨n, hn⟩ | hn | hn | ⟨hn, hinf⟩
        · rw [hread, hn] at hparse
          rw [sound_of_some hparse hbtrue hatrue]
          constructor
          · intro hwalk
            refine ⟨?_, ?_, fun _ => hwalk⟩
            · rintro rfl
              cases hn
            · rintro rfl
              cases hn
          · rintro ⟨-, -, hwalk⟩
            exact hwalk ⟨n, hn⟩
        · rw [hread, hn] at hparse
          exact iff_of_true (sound_of_none hparse) (hfinite hn nofun)
        · rw [hread, hn] at hparse
          exact iff_of_true (sound_of_none hparse) (hfinite hn nofun)
        · rw [hread, hn] at hparse
          refine iff_of_false (not_sound_of_error hparse) ?_
          rintro ⟨h, h', -⟩
          rcases hinf with hinf | hinf
          · exact h hinf
          · exact h' hinf

/-- `parse_depth` and the uses of what it returns raise nothing exactly on a text that is no
JSON or a harmless dict. -/
theorem parseDepth_sound (raw : Option String) : Sound raw ↔ WellFormed raw := by
  cases raw with
  | none => exact iff_of_true (sound_of_none rfl) nofun
  | some s =>
    by_cases hs : s = ""
    · subst hs
      refine iff_of_true (sound_of_none rfl) ?_
      intro t ht hne
      cases ht
      exact absurd rfl hne
    have hparse := parseDepth_read hs
    have hwell : WellFormed (some s) ↔
        match PyReader.loads s with
        | .malformed => True
        | .tooDeep => False
        | .value (.dict kvs) => Harmless kvs
        | .value _ => False := by
      unfold WellFormed
      simp [hs]
    rw [hwell]
    cases hl : PyReader.loads s with
    | malformed =>
      have hread : readDepth s = .error .valueError := by
        simp only [readDepth, hl, bind, Except.bind]
      rw [hread] at hparse
      exact iff_of_true (sound_of_none hparse) trivial
    | tooDeep =>
      have hread : readDepth s = .error .recursionError := by
        simp only [readDepth, hl, bind, Except.bind]
      rw [hread] at hparse
      exact iff_of_false (not_sound_of_error hparse) id
    | value v =>
      cases v with
      | dict kvs => exact sound_dict hs hl
      | _ =>
        rw [readDepth_other hl nofun] at hparse
        exact iff_of_false (not_sound_of_error hparse) id

end

@[reducible] def depthReader : PyReader where
  loads s :=
    if s = "null" then .value .null
    else if s = "\x7b\"ts\": Infinity, \"bids\": [[\"1\",\"1\"]], \"asks\": [[\"1\",\"1\"]]\x7d" then
      .value (.dict [("ts", .float .inf), ("bids", .list [.list [.str "1", .str "1"]]),
        ("asks", .list [.list [.str "1", .str "1"]])])
    else if s = "\x7b\"ts\": 1, \"bids\": [1], \"asks\": [1]\x7d" then
      .value (.dict [("ts", .int 1), ("bids", .list [.int 1]), ("asks", .list [.int 1])])
    else .malformed
  float _ := none
  int _ := none

/-- `null` has no `get`, an infinite time no int; and numbers in the place of the levels are
returned, for the walks to fail on. -/
theorem parseDepth_unsound :
    @parseDepth depthReader (some "null") = .error .attributeError ∧
    @parseDepth depthReader
        (some "\x7b\"ts\": Infinity, \"bids\": [[\"1\",\"1\"]], \"asks\": [[\"1\",\"1\"]]\x7d") =
          .error .overflowError ∧
    @parseDepth depthReader (some "\x7b\"ts\": 1, \"bids\": [1], \"asks\": [1]\x7d") =
      .ok (some ⟨1, .list [.int 1], .list [.int 1]⟩) ∧
    @walkAsksForNotional depthReader _ (.list [.int 1]) (.finite 1000) =
      .error .typeError :=
  ⟨rfl, rfl, rfl, rfl⟩

end CriptoParser.Floating
