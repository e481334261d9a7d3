import CallLedger.Binary64

/-!
# The shortest decimal digits of a double

Of all decimal numbers that are rounded to a given double, the one with the fewest digits is
written, and of those the one nearest to the double. The search is exact: a double is `m * 2^q`,
the numbers that are rounded to it lie between the two midpoints to its neighbours, midpoints
included if `m` is even, and on the grid of multiples of `10^e` only the two neighbours of the
double need to be looked at. Grids are tried from coarse to fine, and the first one with a hit
has the fewest digits.

Lengths are counted in quarters of the gap to the next double, so that midpoints are whole even
where the gap below is half the gap above.
-/

namespace CallLedger.Decimal

/-- A positive number `digits * 10 ^ exponent`. -/
structure Scientific where
  digits : Nat
  exponent : Int
deriving DecidableEq

/-- A positive double as `4 * m` quarters, `2 ^ (q - 2)` each, with the quarters down to the
midpoint below it. -/
structure Interval where
  quarters : Nat
  below : Nat
  exponent : Int
  /-- Both midpoints are rounded to the double. -/
  closed : Bool

namespace Interval

/-- The numbers that are rounded to a positive finite double. -/
def of (x : Binary64) : Interval :=
  let (m, q) := x.significand
  { quarters := 4 * m
    below := if m = Nat.pow 2 52 ∧ q ≠ -1074 then 1 else 2
    exponent := q - 2
    closed := m % 2 = 0 }

/-- The scale factors that turn a count of quarters and a count of grid steps `10 ^ e` into
whole numbers of one unit. -/
def units (interval : Interval) (e : Int) : Nat × Nat :=
  (Nat.pow 2 interval.exponent.toNat * Nat.pow 10 (-e).toNat,
    Nat.pow 2 (-interval.exponent).toNat * Nat.pow 10 e.toNat)

/-- Whether `candidate * 10 ^ e` is rounded to the double. -/
def contains (interval : Interval) (e : Int) (candidate : Nat) : Bool :=
  let (quarter, step) := interval.units e
  let lower := (interval.quarters - interval.below) * quarter
  let upper := (interval.quarters + 2) * quarter
  let value := candidate * step
  if interval.closed then lower ≤ value && value ≤ upper else lower < value && value < upper

/-- The hit on the grid of multiples of `10 ^ e`: the neighbour of the double that is rounded to
it, the nearer one if both are, the even one if they are equally near. -/
def hit? (interval : Interval) (e : Int) : Option Scientific :=
  let (quarter, step) := interval.units e
  let value := interval.quarters * quarter
  let low := value / step
  let rest := value % step
  let highIsNearer := step < 2 * rest || (step = 2 * rest && low % 2 = 1)
  let (nearer, farther) := if highIsNearer then (low + 1, low) else (low, low + 1)
  if interval.contains e nearer then some ⟨nearer, e⟩
  else if interval.contains e farther then some ⟨farther, e⟩
  else none

/-- The hit on the coarsest of so many grids, from `10 ^ e` on downwards. -/
def search (interval : Interval) : (grids : Nat) → (e : Int) → Option Scientific
  | 0, _ => none
  | grids + 1, e =>
    match interval.hit? e with
    | some result => some result
    | none => interval.search grids (e - 1)

/-- An exponent at least as large as that of the double, and hardly larger. -/
def topExponent (interval : Interval) : Int :=
  (interval.exponent + (Nat.log2 interval.quarters : Int)) * 30103 / 100000 + 1

end Interval

/-- The shortest decimal that is rounded to a positive finite double. Seventeen digits always
suffice, so twenty grids do. -/
def shortest (x : Binary64) : Scientific :=
  let interval := Interval.of x
  (interval.search 20 interval.topExponent).getD ⟨0, 0⟩

/-! ## Layout -/

/-- How the digits of a number are laid out. -/
structure Layout where
  /-- The least decimal exponent that is written with a point. -/
  smallest : Int
  /-- The least decimal exponent that is written with `e` again. -/
  largest : Int

/-- Numbers from `1e-5` up to, and without, `1e16` are written with a point. -/
def layout : Layout := ⟨-5, 16⟩

def digits (n : Nat) : List Char := Nat.toDigits 10 n

def ofInt (n : Int) : List Char :=
  match n with
  | .ofNat n => digits n
  | .negSucc n => '-' :: digits (n + 1)

/-- A positive number with a point: at least one digit stands on each side of it. -/
def positional (number : Scientific) : List Char :=
  let text := digits number.digits
  match number.exponent with
  | .ofNat e => text ++ List.replicate e '0' ++ ['.', '0']
  | .negSucc e =>
    let places := e + 1
    if places < text.length then
      text.take (text.length - places) ++ '.' :: text.drop (text.length - places)
    else '0' :: '.' :: List.replicate (places - text.length) '0' ++ text

/-- A positive number with one digit before the point and an exponent with its sign. -/
def exponential (number : Scientific) : List Char :=
  let text := digits number.digits
  let exponent := number.exponent + (text.length - 1 : Nat)
  let mantissa := text.take 1 ++ if text.length > 1 then '.' :: text.drop 1 else []
  let sign := if exponent < 0 then '-' else '+'
  mantissa ++ 'e' :: sign :: digits exponent.natAbs

def written (number : Scientific) : List Char :=
  let exponent := number.exponent + ((digits number.digits).length - 1 : Nat)
  if layout.smallest ≤ exponent ∧ exponent < layout.largest then positional number
  else exponential number

/-- The text of a finite double. -/
def ofReal (x : Binary64) : List Char :=
  let sign := if x.isNegative then ['-'] else []
  sign ++ if x.magnitude = 0 then ['0', '.', '0'] else written (shortest x)

end CallLedger.Decimal
