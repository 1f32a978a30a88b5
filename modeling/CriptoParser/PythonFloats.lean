import CriptoParser.PythonValues

/-!
Floats with their special values, and the JSON documents `json.loads` makes of a text. How a
result is rounded can be left open where nothing depends on it.
-/

set_option autoImplicit false

namespace CriptoParser

inductive PyFloat where
  | finite (q : ℚ)
  | inf
  | negInf
  | nan
  deriving DecidableEq, Repr

/-- The float nearest to an exact result, which may be an infinity. -/
class FloatRounding where
  round : ℚ → PyFloat

def PyFloat.signed (negative : Bool) : PyFloat := if negative then .negInf else .inf

def double : Binary.Format := ⟨53, -1074⟩

def floatLimit : ℚ := 2 ^ 1024

instance : FloatRounding where
  round q :=
    if |double.nearest q| < floatLimit then .finite (double.nearest q) else .signed (decide (q < 0))

namespace PyFloat

def lt : PyFloat → PyFloat → Bool
  | .finite a, .finite b => decide (a < b)
  | .negInf, .finite _ | .negInf, .inf | .finite _, .inf => true
  | _, _ => false

def le : PyFloat → PyFloat → Bool
  | .nan, _ | _, .nan => false
  | x, y => !y.lt x

def isNegative : PyFloat → Bool
  | .finite q => decide (q < 0)
  | .negInf => true
  | .inf | .nan => false

def neg : PyFloat → PyFloat
  | .finite q => .finite (-q)
  | .inf => .negInf
  | .negInf => .inf
  | .nan => .nan

@[simp] theorem nan_le (x : PyFloat) : nan.le x = false := by cases x <;> rfl

@[simp] theorem lt_nan (x : PyFloat) : x.lt nan = false := by cases x <;> rfl

section
variable [FloatRounding]

def add : PyFloat → PyFloat → PyFloat
  | .finite a, .finite b => FloatRounding.round (a + b)
  | .nan, _ | _, .nan | .inf, .negInf | .negInf, .inf => .nan
  | .inf, _ | _, .inf => .inf
  | .negInf, _ | _, .negInf => .negInf

def sub (x y : PyFloat) : PyFloat := x.add y.neg

def mul : PyFloat → PyFloat → PyFloat
  | .finite a, .finite b => FloatRounding.round (a * b)
  | .nan, _ | _, .nan => .nan
  | x, y =>
    if x = .finite 0 ∨ y = .finite 0 then .nan else signed (x.isNegative != y.isNegative)

def div (x y : PyFloat) : Except PyExc PyFloat :=
  if y = .finite 0 then .error .zeroDivisionError
  else match x, y with
    | .finite a, .finite b => .ok (FloatRounding.round (a / b))
    | .finite _, .inf | .finite _, .negInf => .ok (.finite 0)
    | .inf, .finite b | .negInf, .finite b => .ok (signed (x.isNegative != decide (b < 0)))
    | _, _ => .ok .nan

def round (digits : ℕ) : PyFloat → PyFloat
  | .finite q => FloatRounding.round (pyRound q digits)
  | x => x

def ofInt (n : ℤ) : Except PyExc PyFloat :=
  if |n| < 2 ^ 1024 - 2 ^ 970 then .ok (FloatRounding.round n) else .error .overflowError

theorem div_ok {y : PyFloat} (x : PyFloat) (h : y.le (.finite 0) = false) :
    ∃ z, x.div y = .ok z := by
  have hy : y ≠ .finite 0 := by
    rintro rfl
    simp [le, lt] at h
  unfold div
  rw [if_neg hy]
  split <;> exact ⟨_, rfl⟩

@[simp] theorem nan_add (x : PyFloat) : nan.add x = nan := by cases x <;> rfl

@[simp] theorem nan_sub (x : PyFloat) : nan.sub x = nan := nan_add x.neg

end

end PyFloat

/-- The numbers of a document, ints and floats apart. -/
inductive PyNumber where
  | int (n : ℤ)
  | float (x : PyFloat)

abbrev JsonValue := JsonOf PyNumber

@[match_pattern] abbrev JsonOf.int (n : ℤ) : JsonValue := .number (.int n)

@[match_pattern] abbrev JsonOf.float (x : PyFloat) : JsonValue := .number (.float x)

inductive Loaded where
  | value (v : JsonValue)
  /-- `JSONDecodeError`, or an int with too many digits: both are a `ValueError`. -/
  | malformed
  /-- `RecursionError`: lists or dicts nested too deep for the interpreter. -/
  | tooDeep

/-- Reading of text by the standard library. `none` is a `ValueError`. -/
class PyReader where
  loads : String → Loaded
  /-- `float(s)`. -/
  float : String → Option PyFloat
  /-- `int(s)`. -/
  int : String → Option ℤ

namespace PyNumber

instance : PyNumeric PyNumber where
  isZero
    | .int n => decide (n = 0)
    | .float x => decide (x = .finite 0)

def toInt : PyNumber → Except PyExc ℤ
  | .int n => .ok n
  | .float (.finite q) => .ok (pyInt q)
  | .float .nan => .error .valueError
  | .float .inf | .float .negInf => .error .overflowError

def toFloat [FloatRounding] : PyNumber → Except PyExc PyFloat
  | .int n => PyFloat.ofInt n
  | .float x => .ok x

end PyNumber

namespace JsonValue

def toInt [PyReader] (v : JsonValue) : Except PyExc ℤ :=
  v.convert PyNumber.toInt (fun b => if b then 1 else 0) PyReader.int

def toFloat [PyReader] [FloatRounding] (v : JsonValue) : Except PyExc PyFloat :=
  v.convert PyNumber.toFloat (fun b => .finite (if b then 1 else 0)) PyReader.float

end JsonValue

end CriptoParser
