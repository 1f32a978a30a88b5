import Mathlib.Data.List.Basic
import Mathlib.Tactic.Common
import Mathlib.Tactic.IntervalCases

set_option autoImplicit false

namespace CriptoParser.Hex

def digit (n : ℕ) : Char := Nat.digitChar n

def value (c : Char) : Option ℕ :=
  if '0' ≤ c ∧ c ≤ '9' then some (c.toNat - '0'.toNat)
  else if 'a' ≤ c ∧ c ≤ 'f' then some (c.toNat - 'a'.toNat + 10)
  else if 'A' ≤ c ∧ c ≤ 'F' then some (c.toNat - 'A'.toNat + 10)
  else none

def blank (c : Char) : Bool := c.toNat = 32 || (9 ≤ c.toNat && c.toNat ≤ 13)

def encode (bytes : List UInt8) : List Char :=
  bytes.flatMap fun b => [digit (b.toNat / 16), digit (b.toNat % 16)]

def decode : List Char → Option (List UInt8)
  | [] => some []
  | c :: cs =>
    if blank c then decode cs
    else match cs with
      | [] => none
      | d :: rest =>
        match value c, value d, decode rest with
        | some high, some low, some bytes => some (UInt8.ofNat (16 * high + low) :: bytes)
        | _, _, _ => none

def letters : List Char := "0123456789abcdef".toList

theorem digit_cases {n : ℕ} (h : n < 16) :
    digit n ∈ letters ∧ value (digit n) = some n ∧ blank (digit n) = false := by
  interval_cases n <;> exact ⟨by decide, by decide, by decide⟩

theorem encode_cons (b : UInt8) (bytes : List UInt8) :
    encode (b :: bytes) = digit (b.toNat / 16) :: digit (b.toNat % 16) :: encode bytes := rfl

theorem encode_letters {bytes : List UInt8} : ∀ c ∈ encode bytes, c ∈ letters := by
  induction bytes with
  | nil => simp [encode]
  | cons b bytes ih =>
    intro c hc
    rw [encode_cons] at hc
    have hb : b.toNat < 256 := b.toNat_lt
    rcases List.mem_cons.mp hc with rfl | hc
    · exact (digit_cases (by omega)).1
    · rcases List.mem_cons.mp hc with rfl | hc
      · exact (digit_cases (by omega)).1
      · exact ih c hc

theorem encode_length (bytes : List UInt8) : (encode bytes).length = 2 * bytes.length := by
  induction bytes with
  | nil => rfl
  | cons b bytes ih =>
    rw [encode_cons, List.length_cons, List.length_cons, ih, List.length_cons]
    omega

theorem decode_encode (bytes : List UInt8) : decode (encode bytes) = some bytes := by
  induction bytes with
  | nil => rfl
  | cons b bytes ih =>
    have hb : b.toNat < 256 := b.toNat_lt
    obtain ⟨-, hhigh, hblank⟩ := digit_cases (n := b.toNat / 16) (by omega)
    obtain ⟨-, hlow, -⟩ := digit_cases (n := b.toNat % 16) (by omega)
    have hvalue : 16 * (b.toNat / 16) + b.toNat % 16 = b.toNat := Nat.div_add_mod _ _
    rw [encode_cons, decode]
    simp only [hblank, Bool.false_eq_true, if_false, hhigh, hlow, ih, hvalue, UInt8.ofNat_toNat]

theorem encode_inj {xs ys : List UInt8} (h : encode xs = encode ys) : xs = ys := by
  have hread := congrArg decode h
  rw [decode_encode, decode_encode] at hread
  exact Option.some.inj hread

end CriptoParser.Hex
