import SexprReader.Failure

namespace SexprReader

namespace Numeral

/-- What a digit counts; letters follow the ten digits, in either case. -/
def digitValue? (c : Char) : Option Nat :=
  if c.isDigit then some (c.toNat - '0'.toNat)
  else if c.isLower then some (c.toNat - 'a'.toNat + 10)
  else if c.isUpper then some (c.toNat - 'A'.toNat + 10)
  else none

/-- How many of the 36 digits a radix admits. One below zero leaves out as many at the end. -/
def admittedDigits (radix : Int) : Nat :=
  if radix < 0 then (36 + radix).toNat else min radix.toNat 36

def admittedValue? (radix : Int) (c : Char) : Option Nat :=
  match digitValue? c with
  | some value => if value < admittedDigits radix then some value else none
  | none => none

def digitValues? (radix : Int) (digits : List Char) : Option (List Nat) :=
  if digits.isEmpty then none else digits.mapM (admittedValue? radix)

/-- A numeral evaluated part way. The latest digits make up `low`, so that only once in a while
is the long number `high` touched, which counts `scale` times. -/
structure Evaluation where
  high : Nat
  low : Nat
  scale : Nat

namespace Evaluation

def start : Evaluation := ⟨0, 0, 1⟩

def value (e : Evaluation) : Nat := e.high * e.scale + e.low

def scaleLimit : Nat := 0x100000000000000

def push (radix : Nat) (e : Evaluation) (digit : Nat) : Evaluation :=
  let low := e.low * radix + digit
  let scale := e.scale * radix
  if scale < scaleLimit then ⟨e.high, low, scale⟩ else ⟨e.high * scale + low, 0, 1⟩

theorem value_push (radix : Nat) (e : Evaluation) (digit : Nat) :
    (e.push radix digit).value = e.value * radix + digit := by
  simp only [push]
  split <;> simp [value, Nat.add_mul, Nat.mul_assoc, Nat.add_assoc]

theorem value_foldl (radix : Nat) (e : Evaluation) (digits : List Nat) :
    (digits.foldl (push radix) e).value =
      digits.foldl (fun n digit => n * radix + digit) e.value := by
  induction digits generalizing e with
  | nil => rfl
  | cons digit digits ih => rw [List.foldl_cons, List.foldl_cons, ih, value_push]

end Evaluation

def magnitude (radix : Nat) (digits : List Nat) : Nat :=
  (digits.foldl (Evaluation.push radix) .start).value

theorem magnitude_eq_foldl (radix : Nat) (digits : List Nat) :
    magnitude radix digits = digits.foldl (fun n digit => n * radix + digit) 0 := by
  rw [magnitude, Evaluation.value_foldl]
  rfl

/-- The longest numeral that is evaluated in a radix which is no power of two. -/
def digitLimit : Nat := 4300

def isPowerOfTwo (radix : Nat) : Bool := [2, 4, 8, 16, 32].contains radix

def splitSign : List Char → Bool × List Char
  | '-' :: digits => (true, digits)
  | '+' :: digits => (false, digits)
  | digits => (false, digits)

end Numeral

open Numeral in
/-- The integer a text denotes in a radix, if it denotes one. Only once all digits are admitted
does it matter that a radix is outside 2 to 36, or that they are too many. -/
def parseInteger (text : String) (radix : Int) : Except ValueFault (Option Int) :=
  let (negative, digits) := splitSign text.toList
  match digitValues? radix digits with
  | none => .ok none
  | some values =>
    if radix < 2 || 36 < radix then .error .unusableRadix
    else if digitLimit < values.length && !isPowerOfTwo radix.toNat then .error .tooManyDigits
    else
      let n : Int := magnitude radix.toNat values
      .ok (some (if negative then -n else n))

end SexprReader
