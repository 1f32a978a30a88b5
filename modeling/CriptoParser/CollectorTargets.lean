import CriptoParser.SharedConfig
import CriptoParser.SqlColumns
import CriptoParser.SqlTables
import Mathlib.Data.List.DropRight
import Mathlib.Data.List.Sort

/-!
What the collector subscribes to: the tracked pairs are brought into line with the markets of
the exchanges, and the targets are read off the tables.
-/

set_option autoImplicit false

namespace CriptoParser

structure ExchangeRow where
  exchange : String
  isActive : Bool
  deriving DecidableEq, Repr

structure PairRow where
  symbol : String
  exchange : String
  isActive : Bool
  priority : ℤ
  deriving DecidableEq, Repr

def PairRow.key (r : PairRow) : String × String := (r.symbol, r.exchange)

abbrev TrackedPairs := Sql.Table PairRow.key

structure CollectorDb where
  exchangeConfigs : Sql.Table ExchangeRow.exchange
  trackedPairs : TrackedPairs

def defaultSymbols : List String := ["BTC/USDT"]

/-- `SELECT exchange FROM exchange_configs WHERE is_active = true`. -/
def CollectorDb.activeExchanges (db : CollectorDb) : List String :=
  (db.exchangeConfigs.rows.filter (·.isActive)).map (·.exchange)

def activeSymbols (pairs : TrackedPairs) (name : String) : List String :=
  (pairs.rows.filter fun r => r.isActive && r.exchange == name).map (·.symbol)

/-- `symbols_by_ex.get(name, list(DEFAULT_SYMBOLS))`. -/
def targetSymbols (pairs : TrackedPairs) (name : String) : List String :=
  match activeSymbols pairs name with
  | [] => defaultSymbols
  | symbols => symbols

def loadTargets : Option CollectorDb → List (String × List String)
  | none => [("binance", defaultSymbols)]
  | some db =>
    let names := db.activeExchanges.insertionSort (· ≤ ·)
    let targets := (names.filter fun name => (exchangeConfig name).isSome).map fun name =>
      (name, targetSymbols db.trackedPairs name)
    if targets = [] then [("binance", defaultSymbols)] else targets

def pySpace (c : Char) : Bool :=
  (9 ≤ c.toNat && c.toNat ≤ 13) || (28 ≤ c.toNat && c.toNat ≤ 32) ||
    c.toNat ∈ [0x85, 0xA0, 0x1680, 0x2028, 0x2029, 0x202F, 0x205F, 0x3000] ||
    (0x2000 ≤ c.toNat && c.toNat ≤ 0x200A)

/-- `[s.strip() for s in raw.split(",") if s.strip()] if raw else []`. -/
def desiredSymbols (raw : String) : List String :=
  (((raw.toList.splitOn ',').map fun cs => (cs.dropWhile pySpace).rdropWhile pySpace).filter
    (· ≠ [])).map String.ofList

namespace TrackedPairs

def activate (pairs : TrackedPairs) (name symbol : String) : TrackedPairs :=
  pairs.upsert ⟨Sql.storedVarchar 20 symbol, name, true, 2⟩ (fun r => { r with isActive := true })
    fun _ => rfl

def deactivate (pairs : TrackedPairs) (name : String) (unknown : List String) : TrackedPairs :=
  pairs.update (fun r => r.exchange == name && unknown.contains r.symbol)
    (fun r => { r with isActive := false }) fun _ => rfl

end TrackedPairs

/-- One turn of the loop, after `load_markets` answered. The insert of a symbol that is too long
for its column raises: none of the symbols is inserted and the rest of the turn is skipped. -/
def syncExchange (desired available : List String) (name : String) (pairs : TrackedPairs) :
    TrackedPairs :=
  let valid := desired.filter available.contains
  if valid.all (Sql.fitsVarchar 20) then
    let pairs := valid.foldl (fun pairs symbol => pairs.activate name symbol) pairs
    let unknown := (activeSymbols pairs name).filter fun symbol => !available.contains symbol
    pairs.deactivate name unknown
  else pairs

/-- `markets` is what `load_markets` makes of an exchange, `none` where it raises. -/
def syncPairs (raw : String) (markets : String → Option (List String)) (db : CollectorDb) :
    CollectorDb :=
  let names := db.activeExchanges.filter fun name => (exchangeConfig name).isSome
  let turn (pairs : TrackedPairs) (name : String) :=
    match markets name with
    | none => pairs
    | some available => syncExchange (desiredSymbols raw) available name pairs
  { db with trackedPairs := names.foldl turn db.trackedPairs }

def Refused (desired available : List String) : Prop :=
  ∃ symbol ∈ desired, symbol ∈ available ∧ Sql.fitsVarchar 20 symbol = false

instance (desired available : List String) : Decidable (Refused desired available) :=
  inferInstanceAs (Decidable (∃ symbol ∈ desired, _))

/-- What the turn of an exchange makes of a symbol that was active or not: with a refused insert
nothing, and otherwise what is on the markets is active if it was or is desired. -/
def Synced (desired available : List String) (active : Prop) (symbol : String) : Prop :=
  if Refused desired available then active else symbol ∈ available ∧ (active ∨ symbol ∈ desired)

theorem synced_synced {desired available : List String} {active : Prop} {symbol : String} :
    Synced desired available (Synced desired available active symbol) symbol ↔
      Synced desired available active symbol := by
  unfold Synced
  split <;> tauto

theorem storedVarchar_desired {raw symbol : String} (h : symbol ∈ desiredSymbols raw)
    (hfits : Sql.fitsVarchar 20 symbol = true) : Sql.storedVarchar 20 symbol = symbol := by
  obtain ⟨cs, hcs, rfl⟩ := List.mem_map.mp h
  obtain ⟨hcs, -⟩ := List.mem_filter.mp hcs
  obtain ⟨part, -, rfl⟩ := List.mem_map.mp hcs
  generalize part.dropWhile pySpace = rest at hfits ⊢
  have hblank := (Bool.and_eq_true_iff.mp hfits).1
  rw [String.toList_ofList, List.all_eq_true] at hblank
  have hlength : (rest.rdropWhile pySpace).length ≤ 20 := by
    by_contra hlong
    have hne : (rest.rdropWhile pySpace).drop 20 ≠ [] :=
      fun hnil => hlong (List.drop_eq_nil_iff.mp hnil)
    have hne' : rest.rdropWhile pySpace ≠ [] := fun hnil => hne (by rw [hnil]; rfl)
    have hspace := of_decide_eq_true (hblank _ (List.getLast_mem hne))
    rw [List.getLast_drop] at hspace
    refine List.rdropWhile_last_not pySpace rest hne' ?_
    rw [hspace]
    decide
  rw [Sql.storedVarchar, String.toList_ofList, List.take_of_length_le hlength]

section
variable {pairs : TrackedPairs} {desired available : List String} {name other symbol s : String}

theorem mem_activeSymbols :
    symbol ∈ activeSymbols pairs name ↔
      ∃ r ∈ pairs.rows, r.isActive = true ∧ r.exchange = name ∧ r.symbol = symbol := by
  simp only [activeSymbols, List.mem_map, List.mem_filter, Bool.and_eq_true, beq_iff_eq]
  constructor
  · rintro ⟨r, ⟨hr, hactive, hname⟩, hsymbol⟩
    exact ⟨r, hr, hactive, hname, hsymbol⟩
  · rintro ⟨r, hr, hactive, hname, hsymbol⟩
    exact ⟨r, ⟨hr, hactive, hname⟩, hsymbol⟩

theorem mem_activate :
    symbol ∈ activeSymbols (TrackedPairs.activate pairs other s) name ↔
      symbol ∈ activeSymbols pairs name ∨ name = other ∧ symbol = Sql.storedVarchar 20 s := by
  simp only [mem_activeSymbols]
  constructor
  · rintro ⟨x, hx, hactive, rfl, rfl⟩
    rcases Sql.Table.mem_upsert.mp hx with ⟨r, -, hkey, rfl⟩ | ⟨hx, -⟩ | ⟨rfl, -⟩
    · exact .inr ⟨congrArg Prod.snd hkey, congrArg Prod.fst hkey⟩
    · exact .inl ⟨x, hx, hactive, rfl, rfl⟩
    · exact .inr ⟨rfl, rfl⟩
  · rintro (⟨r, hr, hactive, rfl, rfl⟩ | ⟨rfl, rfl⟩)
    · by_cases hkey : r.key = (Sql.storedVarchar 20 s, other)
      · exact ⟨{ r with isActive := true }, Sql.Table.mem_upsert.mpr (.inl ⟨r, hr, hkey, rfl⟩),
          rfl, rfl, rfl⟩
      · exact ⟨r, Sql.Table.mem_upsert.mpr (.inr (.inl ⟨hr, hkey⟩)), hactive, rfl, rfl⟩
    · by_cases hkey : (Sql.storedVarchar 20 s, name) ∈ pairs.rows.map PairRow.key
      · obtain ⟨r, hr, hsame⟩ := List.mem_map.mp hkey
        exact ⟨{ r with isActive := true }, Sql.Table.mem_upsert.mpr (.inl ⟨r, hr, hsame, rfl⟩),
          rfl, congrArg Prod.snd hsame, congrArg Prod.fst hsame⟩
      · exact ⟨⟨Sql.storedVarchar 20 s, name, true, 2⟩,
          Sql.Table.mem_upsert.mpr (.inr (.inr ⟨rfl, hkey⟩)), rfl, rfl, rfl⟩

theorem mem_deactivate {unknown : List String} :
    symbol ∈ activeSymbols (TrackedPairs.deactivate pairs other unknown) name ↔
      symbol ∈ activeSymbols pairs name ∧ ¬(name = other ∧ symbol ∈ unknown) := by
  simp only [mem_activeSymbols]
  constructor
  · rintro ⟨r, hr, hactive, rfl, rfl⟩
    rcases Sql.Table.mem_update.mp hr with ⟨r', -, -, rfl⟩ | ⟨hmem, hp⟩
    · cases hactive
    · refine ⟨⟨r, hmem, hactive, rfl, rfl⟩, ?_⟩
      rintro ⟨hother, hunknown⟩
      simp [hother, hunknown] at hp
  · rintro ⟨⟨r, hr, hactive, rfl, rfl⟩, hkept⟩
    refine ⟨r, Sql.Table.mem_update.mpr (.inr ⟨hr, ?_⟩), hactive, rfl, rfl⟩
    by_cases hother : r.exchange = other
    · have hunknown : r.symbol ∉ unknown := fun hmem => hkept ⟨hother, hmem⟩
      simp [hunknown]
    · simp [hother]

theorem mem_activateAll (symbols : List String) :
    symbol ∈ activeSymbols (symbols.foldl (TrackedPairs.activate · other ·) pairs) name ↔
      symbol ∈ activeSymbols pairs name ∨
        name = other ∧ ∃ s ∈ symbols, symbol = Sql.storedVarchar 20 s := by
  induction symbols generalizing pairs with
  | nil => simp
  | cons s symbols ih =>
    rw [List.foldl_cons, ih, mem_activate, List.exists_mem_cons_iff]
    tauto

theorem syncExchange_other (h : name ≠ other) :
    symbol ∈ activeSymbols (syncExchange desired available other pairs) name ↔
      symbol ∈ activeSymbols pairs name := by
  simp only [syncExchange]
  split
  · simp only [mem_deactivate, mem_activateAll, h, false_and, not_false_eq_true, and_true, or_false]
  · rfl

theorem mem_syncExchange
    (hstored : ∀ s ∈ desired, Sql.fitsVarchar 20 s = true → Sql.storedVarchar 20 s = s) :
    symbol ∈ activeSymbols (syncExchange desired available name pairs) name ↔
      Synced desired available (symbol ∈ activeSymbols pairs name) symbol := by
  have hfits : (desired.filter available.contains).all (Sql.fitsVarchar 20) = true ↔
      ¬Refused desired available := by
    simp [Refused, List.all_eq_true, ← imp_iff_not_or]
  simp only [syncExchange, Synced]
  by_cases hrefused : Refused desired available
  · rw [if_neg (fun hall => hfits.mp hall hrefused), if_pos hrefused]
  · rw [if_pos (hfits.mpr hrefused), if_neg hrefused, mem_deactivate]
    have hinserted : symbol ∈ activeSymbols ((desired.filter available.contains).foldl
          (fun pairs symbol => TrackedPairs.activate pairs name symbol) pairs) name ↔
        symbol ∈ activeSymbols pairs name ∨ symbol ∈ desired ∧ symbol ∈ available := by
      rw [mem_activateAll]
      refine or_congr_right ⟨?_, fun ⟨hdesired, hlisted⟩ => ⟨rfl, symbol, ?_, ?_⟩⟩
      · rintro ⟨-, s, hs, rfl⟩
        obtain ⟨hdesired, hlisted⟩ := List.mem_filter.mp hs
        rw [hstored s hdesired (List.all_eq_true.mp (hfits.mpr hrefused) s hs)]
        exact ⟨hdesired, List.contains_iff_mem.mp hlisted⟩
      · exact List.mem_filter.mpr ⟨hdesired, List.contains_iff_mem.mpr hlisted⟩
      · refine (hstored symbol hdesired ?_).symm
        exact List.all_eq_true.mp (hfits.mpr hrefused) symbol
          (List.mem_filter.mpr ⟨hdesired, List.contains_iff_mem.mpr hlisted⟩)
    simp only [List.mem_filter, hinserted, true_and, Bool.not_eq_true', List.contains_eq_mem,
      decide_eq_false_iff_not]
    tauto

end

theorem mem_syncAll (raw : String) (markets : String → List String) {name symbol : String}
    (names : List String) (pairs : TrackedPairs) :
    symbol ∈ activeSymbols (names.foldl
        (fun pairs n => syncExchange (desiredSymbols raw) (markets n) n pairs) pairs) name ↔
      if name ∈ names then
        Synced (desiredSymbols raw) (markets name) (symbol ∈ activeSymbols pairs name) symbol
      else symbol ∈ activeSymbols pairs name := by
  induction names generalizing pairs with
  | nil => simp
  | cons n names ih =>
    rw [List.foldl_cons, ih]
    by_cases hn : name = n
    · subst hn
      rw [if_pos List.mem_cons_self, mem_syncExchange fun s => storedVarchar_desired]
      split
      · exact synced_synced
      · rfl
    · simp only [List.mem_cons, hn, false_or, syncExchange_other hn]

section
variable {db : CollectorDb} {name symbol : String}

theorem loadTargets_none
    (h : ¬∃ name ∈ db.activeExchanges, (exchangeConfig name).isSome = true) :
    loadTargets (some db) = [("binance", defaultSymbols)] := by
  have hempty : ((db.activeExchanges.insertionSort (· ≤ ·)).filter fun name =>
      (exchangeConfig name).isSome) = [] :=
    List.filter_eq_nil_iff.mpr fun name hname hknown =>
      h ⟨name, (List.mem_insertionSort _).mp hname, hknown⟩
  simp only [loadTargets, hempty, List.map_nil, if_true]

theorem mem_loadTargets {target : String × List String}
    (h : ∃ name ∈ db.activeExchanges, (exchangeConfig name).isSome = true) :
    target ∈ loadTargets (some db) ↔ ∃ name ∈ db.activeExchanges,
      (exchangeConfig name).isSome = true ∧
        target = (name, targetSymbols db.trackedPairs name) := by
  obtain ⟨on, hactive, hknown⟩ := h
  have hmem : ∀ name, (name ∈ (db.activeExchanges.insertionSort (· ≤ ·)).filter fun name =>
      (exchangeConfig name).isSome) ↔
        name ∈ db.activeExchanges ∧ (exchangeConfig name).isSome = true := by
    intro name
    rw [List.mem_filter, List.mem_insertionSort]
  have hne : ((db.activeExchanges.insertionSort (· ≤ ·)).filter fun name =>
      (exchangeConfig name).isSome).map (fun name => (name, targetSymbols db.trackedPairs name)) ≠
        [] := by
    rw [Ne, List.map_eq_nil_iff]
    exact List.ne_nil_of_mem ((hmem on).mpr ⟨hactive, hknown⟩)
  simp only [loadTargets, if_neg hne, List.mem_map, hmem, and_assoc]
  exact exists_congr fun name => and_congr_right' (and_congr_right' eq_comm)

theorem loadTargets_cases {target : String × List String} (h : target ∈ loadTargets (some db))
    (hsymbol : symbol ∈ target.2) :
    (target.1 ∈ db.activeExchanges ∧ (exchangeConfig target.1).isSome = true ∧
      (symbol ∈ activeSymbols db.trackedPairs target.1 ∨
        symbol ∈ defaultSymbols ∧ activeSymbols db.trackedPairs target.1 = [])) ∨
    (target.1 = "binance" ∧ symbol ∈ defaultSymbols ∧
      ∀ name ∈ db.activeExchanges, exchangeConfig name = none) := by
  by_cases hon : ∃ name ∈ db.activeExchanges, (exchangeConfig name).isSome = true
  · obtain ⟨name, hactive, hknown, rfl⟩ := (mem_loadTargets hon).mp h
    refine .inl ⟨hactive, hknown, ?_⟩
    simp only [targetSymbols] at hsymbol
    split at hsymbol
    · rename_i hnone
      exact .inr ⟨hsymbol, hnone⟩
    · exact .inl hsymbol
  · rw [loadTargets_none hon] at h
    rw [List.mem_singleton.mp h] at hsymbol ⊢
    refine .inr ⟨rfl, hsymbol, fun name hname => Option.not_isSome_iff_eq_none.mp fun hknown => ?_⟩
    exact hon ⟨name, hname, hknown⟩

end

/-- The exchange is active and the symbol is on its markets. -/
def Live (db : CollectorDb) (markets : String → List String) (name symbol : String) : Prop :=
  name ∈ db.activeExchanges ∧ symbol ∈ markets name

section
variable {raw : String} {markets : String → List String} {db : CollectorDb} {name symbol : String}

theorem mem_syncPairs (hactive : name ∈ db.activeExchanges)
    (hknown : (exchangeConfig name).isSome = true) :
    symbol ∈ activeSymbols (syncPairs raw (fun name => some (markets name)) db).trackedPairs name ↔
      Synced (desiredSymbols raw) (markets name) (symbol ∈ activeSymbols db.trackedPairs name)
        symbol := by
  refine (mem_syncAll raw markets _ db.trackedPairs).trans ?_
  rw [if_pos (List.mem_filter.mpr ⟨hactive, hknown⟩)]

end

/-- Every target is live, but for the two layers of defaults: an exchange left without an active
pair gets BTC/USDT, and so does Binance where no exchange is left. An exchange whose insert is
refused is left out. -/
theorem targets_live (raw : String) (markets : String → List String) (db : CollectorDb)
    (target : String × List String) (symbol : String)
    (htarget : target ∈ loadTargets (some (syncPairs raw (fun name => some (markets name)) db)))
    (hsymbol : symbol ∈ target.2) :
    Live db markets target.1 symbol ∨
    (target.1 ∈ db.activeExchanges ∧ symbol ∈ defaultSymbols ∧
      activeSymbols (syncPairs raw (fun name => some (markets name)) db).trackedPairs
        target.1 = []) ∨
    (target.1 = "binance" ∧ symbol ∈ defaultSymbols ∧
      ∀ name ∈ db.activeExchanges, exchangeConfig name = none) ∨
    (target.1 ∈ db.activeExchanges ∧ Refused (desiredSymbols raw) (markets target.1)) := by
  rcases loadTargets_cases htarget hsymbol with ⟨hactive, hknown, hpair⟩ | hbinance
  · by_cases hrefused : Refused (desiredSymbols raw) (markets target.1)
    · exact .inr (.inr (.inr ⟨hactive, hrefused⟩))
    rcases hpair with hpair | ⟨hdefault, hnone⟩
    · have hsynced := (@mem_syncPairs raw markets db target.1 symbol hactive hknown).mp hpair
      rw [Synced, if_neg hrefused] at hsynced
      exact .inl ⟨hactive, hsynced.1⟩
    · exact .inr (.inl ⟨hactive, hdefault, hnone⟩)
  · exact .inr (.inr (.inl hbinance))

/-- An exchange is left with pairs of its markets, or BTC/USDT is one. Where its insert is
refused, its pairs stay as they are. -/
def Subscribable (desired available : List String) (active : List String) : Prop :=
  if Refused desired available then
    (∀ symbol ∈ active, symbol ∈ available) ∧ (active = [] → "BTC/USDT" ∈ available)
  else "BTC/USDT" ∈ available ∨ ∃ symbol ∈ available, symbol ∈ active ∨ symbol ∈ desired

theorem subscribable_iff {raw : String} {markets : String → List String} {db : CollectorDb}
    {name : String} (hactive : name ∈ db.activeExchanges)
    (hknown : (exchangeConfig name).isSome = true) :
    (∀ symbol ∈ targetSymbols (syncPairs raw (fun name => some (markets name)) db).trackedPairs
        name, symbol ∈ markets name) ↔
      Subscribable (desiredSymbols raw) (markets name) (activeSymbols db.trackedPairs name) := by
  have hmem := fun symbol => @mem_syncPairs raw markets db name symbol hactive hknown
  have htargets : ∀ pairs, (∀ symbol ∈ targetSymbols pairs name, symbol ∈ markets name) ↔
      (∀ symbol ∈ activeSymbols pairs name, symbol ∈ markets name) ∧
        (activeSymbols pairs name = [] → "BTC/USDT" ∈ markets name) := by
    intro pairs
    unfold targetSymbols
    cases activeSymbols pairs name <;> simp [defaultSymbols]
  rw [htargets, List.eq_nil_iff_forall_not_mem]
  simp only [hmem, Synced, Subscribable]
  by_cases hrefused : Refused (desiredSymbols raw) (markets name)
  · simp only [if_pos hrefused, List.eq_nil_iff_forall_not_mem]
  · simp only [if_neg hrefused]
    constructor
    · rintro ⟨-, hdefault⟩
      by_cases hleft : ∃ symbol ∈ markets name,
          symbol ∈ activeSymbols db.trackedPairs name ∨ symbol ∈ desiredSymbols raw
      · exact .inr hleft
      · exact .inl (hdefault fun symbol h => hleft ⟨symbol, h⟩)
    · intro h
      refine ⟨fun symbol h => h.1, fun hnone => ?_⟩
      rcases h with hdefault | ⟨symbol, hsymbol⟩
      · exact hdefault
      · exact absurd hsymbol (hnone symbol)

/-- All targets are live exactly if a known exchange is switched on and each of them is left with
something to subscribe to. -/
theorem targets_live_iff (raw : String) (markets : String → List String) (db : CollectorDb) :
    (∀ target ∈ loadTargets (some (syncPairs raw (fun name => some (markets name)) db)),
      ∀ symbol ∈ target.2, Live db markets target.1 symbol) ↔
    (∃ name ∈ db.activeExchanges, (exchangeConfig name).isSome = true) ∧
      ∀ name ∈ db.activeExchanges, (exchangeConfig name).isSome = true →
        Subscribable (desiredSymbols raw) (markets name) (activeSymbols db.trackedPairs name) := by
  by_cases hon : ∃ name ∈ db.activeExchanges, (exchangeConfig name).isSome = true
  · rw [and_iff_right hon]
    have hper : ∀ name ∈ db.activeExchanges, (exchangeConfig name).isSome = true →
        ((∀ symbol ∈ targetSymbols
            (syncPairs raw (fun name => some (markets name)) db).trackedPairs name,
              Live db markets name symbol) ↔
          Subscribable (desiredSymbols raw) (markets name)
            (activeSymbols db.trackedPairs name)) := by
      intro name hactive hknown
      rw [← subscribable_iff hactive hknown]
      simp only [Live, hactive, true_and]
    have hon' : ∃ name ∈ (syncPairs raw (fun name => some (markets name)) db).activeExchanges,
        (exchangeConfig name).isSome = true := hon
    simp only [mem_loadTargets hon']
    constructor
    · intro h name hactive hknown
      exact (hper name hactive hknown).mp (h _ ⟨name, hactive, hknown, rfl⟩)
    · rintro h target ⟨name, hactive, hknown, rfl⟩
      exact (hper name hactive hknown).mpr (h name hactive hknown)
  · refine iff_of_false ?_ fun h => hon h.1
    have hbinance : ("binance", defaultSymbols) ∈
        loadTargets (some (syncPairs raw (fun name => some (markets name)) db)) := by
      rw [@loadTargets_none (syncPairs raw (fun name => some (markets name)) db) hon]
      exact List.mem_singleton_self _
    intro h
    have hlive := h _ hbinance "BTC/USDT" (by decide)
    exact hon ⟨"binance", hlive.1, by decide⟩

def kucoinDb (symbol : String) : CollectorDb :=
  ⟨⟨[⟨"binance", false⟩, ⟨"kucoin", true⟩], by decide⟩,
    ⟨[⟨symbol, "kucoin", true, 2⟩], by simp⟩⟩

/-- KuCoin's markets are without XMR; of the tracked symbols they have one. -/
theorem targets_live_kucoin :
    ∀ target ∈ loadTargets (some (syncPairs "BTC/USDT, ETH/USDT" (fun _ => some ["ETH/USDT"])
        (kucoinDb "XMR/USDT"))), ∀ symbol ∈ target.2,
      Live (kucoinDb "XMR/USDT") (fun _ => ["ETH/USDT"]) target.1 symbol := by
  refine (targets_live_iff "BTC/USDT, ETH/USDT" (fun _ => ["ETH/USDT"])
    (kucoinDb "XMR/USDT")).mpr ⟨⟨"kucoin", by decide, by decide⟩, fun name hactive _ => ?_⟩
  have hrefused : ¬Refused (desiredSymbols "BTC/USDT, ETH/USDT") ["ETH/USDT"] := by decide +kernel
  rw [Subscribable, if_neg hrefused]
  exact .inr ⟨"ETH/USDT", List.mem_singleton_self _, .inr (by decide +kernel)⟩

def closedDb : CollectorDb := ⟨⟨[⟨"binance", false⟩], by decide⟩, ⟨[], by decide⟩⟩

/-- The only pair of KuCoin is delisted and BTC/USDT is subscribed in its place, which is not on
the markets either; with every exchange switched off the collector subscribes to Binance. -/
theorem targets_not_live :
    loadTargets (some (syncPairs "" (fun _ => some ["ETH/USDT"]) (kucoinDb "XMR/USDT"))) =
      [("kucoin", ["BTC/USDT"])] ∧
    ¬Live (kucoinDb "XMR/USDT") (fun _ => ["ETH/USDT"]) "kucoin" "BTC/USDT" ∧
    loadTargets (some (syncPairs "" (fun _ => some ["BTC/USDT"]) closedDb)) =
      [("binance", ["BTC/USDT"])] ∧
    ¬Live closedDb (fun _ => ["BTC/USDT"]) "binance" "BTC/USDT" := by
  refine ⟨by decide +kernel, ?_, by decide +kernel, ?_⟩
  · rintro ⟨-, hlisted⟩
    exact absurd hlisted (by decide)
  · rintro ⟨hactive, -⟩
    exact absurd hactive (by decide)

end CriptoParser
