import CriptoParser.BinaryRounding

/-!
The Python side of the model: what may be raised, JSON values with the dynamic
checks Python makes on them, and the reading and printing of text. Floats are
exact rationals.
-/

set_option autoImplicit false

namespace CriptoParser

/-- `callFailed` and `cancelled` are raised by an await; the flag says whether the
other side had already carried the call out. The code cannot see the flag. -/
inductive PyExc where
  | valueError | keyError | indexError | typeError | attributeError | overflowError
  | zeroDivisionError | invalidOperation | recursionError | osError
  /-- `decimal.Overflow`. -/
  | decimalOverflow
  /-- A NaN or an infinity where exact arithmetic has no value. -/
  | notFinite
  | callFailed : Bool → PyExc
  | cancelled : Bool → PyExc
  deriving DecidableEq, Repr

def PyExc.isException : PyExc → Bool
  | .cancelled _ => false
  | _ => true

def PyExc.served : PyExc → Bool
  | .callFailed b | .cancelled b => b
  | _ => false

def carried : Option PyExc → Bool
  | none => true
  | some x => x.served

/-- What `json.loads` returns, over its numbers. A dict is its items, in order. -/
inductive JsonOf (N : Type) where
  | null : JsonOf N
  | bool : Bool → JsonOf N
  | number : N → JsonOf N
  | str : String → JsonOf N
  | list : List (JsonOf N) → JsonOf N
  | dict : List (String × JsonOf N) → JsonOf N

/-- A number of a document; a float is the rational it is. -/
inductive ExactNumber where
  | num : ℚ → ExactNumber
  | nan : ExactNumber
  | inf : ExactNumber

abbrev Json := JsonOf ExactNumber

@[match_pattern] abbrev JsonOf.num (q : ℚ) : Json := .number (.num q)

@[match_pattern] abbrev JsonOf.nan : Json := .number .nan

inductive PyDecimal where
  | finite : ℚ → PyDecimal
  | inf : PyDecimal
  | nan : PyDecimal
  deriving DecidableEq, Repr

/-- Reading and printing of text by the language and its standard library. `none`
is the error Python raises on text it cannot read. -/
class PyText where
  /-- `str(x)` and `repr(x)` of a float. -/
  strFloat : ℚ → String
  /-- `float(s)`. -/
  floatStr : String → Option ℚ
  /-- `str(n)` of an int. -/
  strInt : ℤ → String
  /-- `int(s)`. -/
  intStr : String → Option ℤ
  /-- `Decimal(s)`. -/
  decimalStr : String → Option PyDecimal
  /-- `json.loads(s)`. -/
  loads : String → Option Json
  /-- `s.lower()`. -/
  lower : String → String

def readDigits (cs : List Char) : Option ℕ :=
  if cs ≠ [] ∧ cs.all Char.isDigit then some (cs.foldl (fun n c => 10 * n + (c.toNat - 48)) 0)
  else none

def readInt (s : String) : Option ℤ :=
  match s.toList with
  | '-' :: cs => (readDigits cs).map fun n => -(n : ℤ)
  | cs => (readDigits cs).map fun n => (n : ℤ)

theorem readDigits_toDigits (n : ℕ) : readDigits (Nat.toDigits 10 n) = some n := by
  have hall : (Nat.toDigits 10 n).all Char.isDigit = true :=
    List.all_eq_true.mpr fun c hc => Nat.isDigit_of_mem_toDigits (by decide) (by decide) hc
  have hvalue := Nat.ofDigitChars_ten_toDigits (n := n)
  rw [Nat.ofDigitChars_eq_foldl] at hvalue
  rw [readDigits, if_pos ⟨Nat.toDigits_ne_nil, hall⟩]
  exact congrArg some hvalue

theorem readInt_repr (n : ℕ) : readInt n.repr = some (n : ℤ) := by
  have hminus : ∀ cs, Nat.toDigits 10 n ≠ '-' :: cs := by
    intro cs hcs
    have hmem : '-' ∈ Nat.toDigits 10 n := hcs ▸ List.mem_cons_self
    exact absurd (Nat.isDigit_of_mem_toDigits (by decide) (by decide) hmem) (by decide)
  rw [readInt, Nat.toList_repr]
  split
  · rename_i cs hcs
    exact absurd hcs (hminus cs)
  · rw [readDigits_toDigits]
    rfl

theorem readInt_toString (n : ℤ) : readInt (toString n) = some n := by
  cases n with
  | ofNat k => exact readInt_repr k
  | negSucc k =>
    have htext : (toString (Int.negSucc k)).toList = '-' :: (k + 1).repr.toList := by
      rw [show toString (Int.negSucc k) = "-" ++ (k + 1).repr from rfl, String.toList_append]
      rfl
    have hdigits : readDigits (k + 1).repr.toList = some (k + 1) := by
      rw [Nat.toList_repr]
      exact readDigits_toDigits (k + 1)
    rw [readInt, htext]
    simp only [hdigits]
    rfl

/-- A reading that knows integers in plain digits, and of the other numbers and of the
documents the given ones. -/
@[reducible] def PyText.ofTables (numbers : List (String × ℚ))
    (documents : List (String × Json)) : PyText where
  strFloat q := ((numbers.find? fun n => n.2 = q).map Prod.fst).getD ""
  floatStr s := numbers.lookup s
  strInt n := toString n
  intStr := readInt
  decimalStr s := (numbers.lookup s).map .finite
  loads s := documents.lookup s
  lower s := s.toLower

@[reducible] def plainText : PyText := PyText.ofTables [] []

def pyInt (q : ℚ) : ℤ := if 0 ≤ q then q.floor else q.ceil

def pyRound (q : ℚ) (digits : ℕ) : ℚ := roundHalfEven (q * 10 ^ digits) / 10 ^ digits

theorem pyRound_mono {a b : ℚ} (h : a ≤ b) (digits : ℕ) : pyRound a digits ≤ pyRound b digits := by
  have hscaled : a * 10 ^ digits ≤ b * 10 ^ digits :=
    mul_le_mul_of_nonneg_right h (by positivity)
  exact div_le_div_of_nonneg_right (Int.cast_le.mpr (roundHalfEven_mono hscaled)) (by positivity)

class PyNumeric (N : Type) where
  isZero : N → Bool

namespace JsonOf
variable {N : Type}

def truthy [PyNumeric N] : JsonOf N → Bool
  | .null => false
  | .bool b => b
  | .number n => !PyNumeric.isZero n
  | .str s => decide (s ≠ "")
  | .list l => !l.isEmpty
  | .dict kvs => !kvs.isEmpty

def get (v : JsonOf N) (key : String) : Except PyExc (Option (JsonOf N)) :=
  match v with
  | .dict kvs => .ok (kvs.lookup key)
  | _ => .error .attributeError

/-- `iter(v)`: a list yields its items, a string its characters, a dict its keys. -/
def items : JsonOf N → Except PyExc (List (JsonOf N))
  | .list l => .ok l
  | .str s => .ok (s.toList.map fun c => .str (String.singleton c))
  | .dict kvs => .ok (kvs.map fun kv => .str kv.1)
  | _ => .error .typeError

def unpackPair (v : JsonOf N) : Except PyExc (JsonOf N × JsonOf N) :=
  match v.items with
  | .error x => .error x
  | .ok [a, b] => .ok (a, b)
  | .ok _ => .error .valueError

def first : JsonOf N → Except PyExc (JsonOf N)
  | .list (a :: _) => .ok a
  | .str s =>
    match s.toList with
    | c :: _ => .ok (.str (String.singleton c))
    | [] => .error .indexError
  | .list [] => .error .indexError
  | .dict _ => .error .keyError
  | _ => .error .typeError

/-- `int(v)` or `float(v)`, given what it does with a number, a flag and a text. -/
def convert {F : Type} (number : N → Except PyExc F) (flag : Bool → F) (text : String → Option F) :
    JsonOf N → Except PyExc F
  | .number n => number n
  | .bool b => .ok (flag b)
  | .str s =>
    match text s with
    | some x => .ok x
    | none => .error .valueError
  | .null | .list _ | .dict _ => .error .typeError

end JsonOf

namespace ExactNumber

instance : PyNumeric ExactNumber where
  isZero
    | .num q => decide (q = 0)
    | _ => false

def toFloat : ExactNumber → Except PyExc ℚ
  | .num q => .ok q
  | .nan | .inf => .error .notFinite

def toInt : ExactNumber → Except PyExc ℤ
  | .num q => .ok (pyInt q)
  | .nan => .error .valueError
  | .inf => .error .overflowError

end ExactNumber

namespace Json

def toFloat [PyText] (v : Json) : Except PyExc ℚ :=
  v.convert ExactNumber.toFloat (fun b => if b then 1 else 0) PyText.floatStr

def toInt [PyText] (v : Json) : Except PyExc ℤ :=
  v.convert ExactNumber.toInt (fun b => if b then 1 else 0) PyText.intStr

end Json

def JsonOf.levels (l : List (ℚ × ℚ)) : Json := .list (l.map fun pq => .list [.num pq.1, .num pq.2])

end CriptoParser
