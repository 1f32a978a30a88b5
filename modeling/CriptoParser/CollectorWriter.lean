import CriptoParser.PythonFloats
import CriptoParser.ServiceLoop
import CriptoParser.SqlColumns

/-!
The writer of the ticks: a batch of stream entries becomes rows of the table `prices`, by one
`COPY` or, when that fails, row by row, and is then acknowledged. The database refuses a row
that breaks the columns of the table, and a `COPY` with such a row as a whole.
-/

set_option autoImplicit false

namespace CriptoParser

open Await Streams

def priceMax : ℚ := 999999999999999999 / 10 ^ 8

def volumeMax : ℚ := 9999999999999999999999999999 / 10 ^ 8

namespace PriceRow

def stored (row : PriceRow) : PriceRow :=
  { row with
    exchange := Sql.storedVarchar 20 row.exchange
    symbol := Sql.storedVarchar 20 row.symbol
    bid := Sql.decimalRound 8 row.bid
    ask := Sql.decimalRound 8 row.ask
    bidVolume := row.bidVolume.map (Sql.decimalRound 8)
    askVolume := row.askVolume.map (Sql.decimalRound 8) }

def accepted (row : PriceRow) : Bool :=
  Sql.fitsVarchar 20 row.exchange && Sql.fitsVarchar 20 row.symbol &&
    Sql.fitsDecimal 18 8 row.bid && Sql.fitsDecimal 18 8 row.ask &&
    row.bidVolume.all (Sql.fitsDecimal 28 8) && row.askVolume.all (Sql.fitsDecimal 28 8) &&
    row.latencyMs.all Sql.fitsInteger &&
    decide (0 < Sql.decimalRound 8 row.bid) && decide (0 < Sql.decimalRound 8 row.ask)

end PriceRow

section
variable [PyText]

def filledField (f : Fields) (key : String) : Option String :=
  match f.lookup key with
  | some s => if s = "" then none else some s
  | none => none

/-- The whole seconds and the microseconds that `datetime` makes of a float. -/
def timeval (x : ℚ) : ℤ × ℤ :=
  let micros := roundHalfEven (double.nearest ((x - pyInt x) * 10 ^ 6))
  if 10 ^ 6 ≤ micros then (pyInt x + 1, micros - 10 ^ 6)
  else if micros < 0 then (pyInt x - 1, micros + 10 ^ 6)
  else (pyInt x, micros)

/-- `datetime.fromtimestamp(n / 1000)`: the division gives a float. Seconds that are no `time_t`
are an `OverflowError`, a time that the platform has no date for is an `OSError`, and a year
outside 1 to 9999 a `ValueError`. -/
def fromTimestamp (n : ℤ) : Except PyExc ℚ :=
  let (seconds, micros) := timeval (double.nearest (n / 1000))
  if seconds < -2 ^ 63 ∨ 2 ^ 63 ≤ seconds then .error .overflowError
  else if seconds < -67768040609740800 ∨ 67768036191676799 < seconds then .error .osError
  else if seconds < -62135596800 ∨ 253402300800 ≤ seconds then .error .valueError
  else .ok (seconds + micros / 10 ^ 6)

def readDecimal (s : String) : Except PyExc PyDecimal :=
  match PyText.decimalStr s with
  | some d => .ok d
  | none => .error .invalidOperation

def readStamp (s : String) : Except PyExc ℚ :=
  match PyText.intStr s with
  | some n => fromTimestamp n
  | none => .error .valueError

def readVolume : Option String → Except PyExc (Option PyDecimal)
  | none => .ok none
  | some s => some <$> readDecimal s

structure ParsedTick where
  time : ℚ
  bid : PyDecimal
  ask : PyDecimal
  bidVolume : Option PyDecimal
  askVolume : Option PyDecimal

def parseTick (f : Fields) : Except PyExc ParsedTick := do
  let time ← readStamp (← fieldAt f "received_at")
  let bid ← readDecimal (← fieldAt f "bid")
  let ask ← readDecimal (← fieldAt f "ask")
  let bidVolume ← readVolume (filledField f "bid_volume")
  let askVolume ← readVolume (filledField f "ask_volume")
  return ⟨time, bid, ask, bidVolume, askVolume⟩

/-- `except (KeyError, ValueError, InvalidOperation)`. -/
def PyExc.skipsTick : PyExc → Bool
  | .keyError | .valueError | .invalidOperation => true
  | _ => false

/-- The least magnitude that `abs` rounds, to 28 digits, to more than any exponent can have. -/
@[irreducible] def decimalTop : ℚ := ((2 * 10 ^ 28 - 1) * 5 * 10 ^ 999971 : ℕ)

/-- `abs(d) > limit`. `abs` rounds to 28 digits: at the size of the limit these are `digits`
digits after the point. No order is defined for a NaN. -/
def exceeds (limit : ℚ) (digits : ℕ) : PyDecimal → Except PyExc Bool
  | .finite q =>
    if decimalTop ≤ |q| then .error .decimalOverflow
    else .ok (decide (limit < pyRound |q| digits))
  | .inf => .ok true
  | .nan => .error .invalidOperation

def priceExceeds : PyDecimal → Except PyExc Bool := exceeds priceMax 18

def volumeExceeds : PyDecimal → Except PyExc Bool := exceeds volumeMax 8

def PyDecimal.value : PyDecimal → ℚ
  | .finite q => q
  | _ => 0

def screenVolume : Option PyDecimal → Except PyExc (Option ℚ)
  | none => .ok none
  | some v => do
    if ← volumeExceeds v then return none
    return some v.value

def tickRecord (f : Fields) (tick : ParsedTick) : Except PyExc (Option PriceRow) := do
  let bidVolume ← screenVolume tick.bidVolume
  let askVolume ← screenVolume tick.askVolume
  let exchange ← fieldAt f "exchange"
  let symbol ← fieldAt f "symbol"
  return some {
    time := tick.time
    exchange := exchange
    symbol := symbol
    bid := tick.bid.value
    ask := tick.ask.value
    bidVolume := bidVolume
    askVolume := askVolume
    latencyMs := (filledField f "latency_ms").bind PyText.intStr }

def screenTick (f : Fields) (tick : ParsedTick) : Except PyExc (Option PriceRow) := do
  if ← priceExceeds tick.bid then return none
  if ← priceExceeds tick.ask then return none
  tickRecord f tick

def toRecord (f : Fields) : Except PyExc (Option PriceRow) :=
  match parseTick f with
  | .ok tick => screenTick f tick
  | .error x => if x.skipsTick then .ok none else .error x

def toRecords : List (Entry Fields) → Except PyExc (List PriceRow)
  | [] => .ok []
  | e :: rest => do
    let record ← toRecord e.payload
    let records ← toRecords rest
    return record.toList ++ records

end

inductive WriterCall where
  | xreadgroup (count : ℕ)
  | copyPrices (rows : List PriceRow)
  | insertPrice (row : PriceRow)
  | addWritten (n : ℕ)
  | xack (ids : List ℕ)
  | sleep (seconds : ℚ)

abbrev WriterCall.Reply : WriterCall → Type
  | .xreadgroup _ => List (Entry Fields)
  | _ => Unit

abbrev Writer : Signature := ⟨WriterCall, WriterCall.Reply, PyExc⟩

structure WriterOutside where
  fault : Option PyExc
  arrivals : List Fields

structure WriterWorld where
  stream : Log Fields
  prices : List PriceRow
  rowsWritten : ℕ
  outside : ℕ → WriterOutside
  tick : ℕ

def writerGroup : String := "writer-cg"

namespace WriterWorld

def now (w : WriterWorld) : WriterOutside := w.outside w.tick

def arrive (w : WriterWorld) : WriterWorld :=
  { w with stream := w.stream.append w.now.arrivals }

def fault (w : WriterWorld) : WriterCall → Option PyExc
  | .addWritten _ => none
  | .copyPrices rows =>
    w.now.fault.or (if rows.all PriceRow.accepted then none else some (.callFailed false))
  | .insertPrice row =>
    w.now.fault.or (if row.accepted then none else some (.callFailed false))
  | _ => w.now.fault

def answer (w : WriterWorld) : (c : WriterCall) → c.Reply
  | .xreadgroup count => w.stream.fresh writerGroup count
  | .copyPrices _ => ()
  | .insertPrice _ => ()
  | .addWritten _ => ()
  | .xack _ => ()
  | .sleep _ => ()

def effect (w : WriterWorld) : WriterCall → WriterWorld
  | .xreadgroup count => { w with stream := w.stream.deliver writerGroup count }
  | .copyPrices rows =>
    if rows.all PriceRow.accepted then { w with prices := w.prices ++ rows.map PriceRow.stored }
    else w
  | .insertPrice row =>
    if row.accepted then { w with prices := w.prices ++ [row.stored] } else w
  | .addWritten n => { w with rowsWritten := w.rowsWritten + n }
  | .xack ids => { w with stream := w.stream.ack writerGroup ids }
  | .sleep _ => w

def next (w : WriterWorld) : WriterWorld := { w with tick := w.tick + 1 }

def serve : Server Writer WriterWorld := fun c w =>
  match w.fault c with
  | none => (.ok (w.arrive.answer c), (w.arrive.effect c).next)
  | some x => (.error x, if x.served then (w.arrive.effect c).next else w.arrive.next)

end WriterWorld

/-- The loop of `_insert_individually`: a row that fails is logged and passed over. -/
def insertEach : List PriceRow → ℕ → Prog Writer ℕ
  | [], ok => pure ok
  | row :: rest, ok => do
    let ok ← (do
      Prog.call (S := Writer) (.insertPrice row)
      return ok + 1 : Prog Writer ℕ).handle fun x =>
        if x.isException then pure ok else Prog.lift (.error x)
    insertEach rest ok

def insertIndividually (rows : List PriceRow) : Prog Writer Unit := do
  let ok ← insertEach rows 0
  Prog.call (S := Writer) (.addWritten ok)

def copyRows (rows : List PriceRow) : Prog Writer Unit := do
  Prog.call (S := Writer) (.copyPrices rows)
  Prog.call (S := Writer) (.addWritten rows.length)

def writeRows (rows : List PriceRow) : Prog Writer Unit :=
  if rows = [] then pure ()
  else (copyRows rows).handle fun x =>
    if x.isException then insertIndividually rows else Prog.lift (.error x)

def flush [PyText] (entries : List (Entry Fields)) : Prog Writer Unit := do
  let rows ← Prog.lift (toRecords entries)
  writeRows rows
  if entries = [] then pure ()
  else Prog.call (S := Writer) (.xack (entries.map Entry.id))

def batchSize : ℕ := 1000

def writerBody [PyText] : Prog Writer Unit := do
  let entries ← Prog.call (S := Writer) (.xreadgroup batchSize)
  if entries = [] then pure () else flush entries

def writerHandler (x : PyExc) : Prog Writer Unit :=
  if x.isException then Prog.call (S := Writer) (.sleep 1) else Prog.lift (.error x)

def writerPass [PyText] : Prog Writer Unit := writerBody.handle writerHandler

def writerLoop [PyText] : ℕ → Prog Writer Unit
  | 0 => pure ()
  | n + 1 => do
    writerPass
    writerLoop n

end CriptoParser
