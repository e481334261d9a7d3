import CallLedger.Binary64

/-!
# Reading decimal numbers

A decimal literal is a sign, digits before and after the point, and an exponent. Its value as a
double is found in two roundings. As many leading digits as fit into 64 bits make a whole number,
which is rounded to a double; that is multiplied or divided by a power of ten. Digits past those
count only for the position of the point. Numbers with at most fifteen digits and a moderate
exponent come out exact; some with more digits come out as a neighbour of the nearest double.
-/

namespace CallLedger.Decimal

structure Literal where
  negative : Bool
  whole : List Nat
  fraction : List Nat
  exponent : Int
  /-- The literal has a point or an exponent. -/
  isReal : Bool

/-- Leading digits as a number below `2 ^ 64`, and how many digits are left over. -/
def leading : (significand : Nat) → List Nat → Nat × Nat
  | significand, [] => (significand, 0)
  | significand, digit :: rest =>
    let longer := 10 * significand + digit
    if longer < UInt64.size then leading longer rest else (significand, rest.length + 1)

/-- A power of ten, for exponents up to 308. -/
def powerOfTen (exponent : Nat) : Float := Float.ofScientific 1 false exponent

/-- Divides by a power of ten, by at most `10 ^ 308` at a time. -/
def shrink : (steps : Nat) → Float → (exponent : Nat) → Float
  | 0, x, _ => x
  | steps + 1, x, exponent =>
    if exponent ≤ 308 then x / powerOfTen exponent
    else if x == 0 then x
    else shrink steps (x / powerOfTen 308) (exponent - 308)

/-- A whole number below `2 ^ 64` times a power of ten, if a double comes near it. -/
def scale? (significand : Nat) (exponent : Int) : Option Float :=
  let x := significand.toUInt64.toFloat
  match exponent with
  | .ofNat e =>
    if x == 0 then some x
    else if e ≤ 308 then
      let scaled := x * powerOfTen e
      if scaled.isInf then none else some scaled
    else none
  | .negSucc e => some (shrink 4 x (e + 1))

/-- The value of a literal, if a double comes near it. -/
def Literal.real? (literal : Literal) : Option Binary64 := do
  let (whole, dropped) := leading 0 literal.whole
  let (significand, unread) := leading whole literal.fraction
  let places := literal.fraction.length - unread
  let magnitude ← scale? significand (literal.exponent + (dropped : Int) - (places : Int))
  let value := Binary64.ofFloat magnitude
  return if literal.negative then -value else value

/-- The value of a literal that has neither point nor exponent. -/
def Literal.whole? (literal : Literal) : Option Int :=
  if literal.isReal then none
  else
    let n : Nat := literal.whole.foldl (fun n digit => 10 * n + digit) 0
    some (if literal.negative then -(n : Int) else n)

end CallLedger.Decimal
