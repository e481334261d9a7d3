import CallLedger.Amount

/-!
# Binary64: the amounts of a recorded profile

A sample is an IEEE 754 binary64 number. It is kept as its 64 bits, because a dump has to give
back every one of them: the machine type `Float` knows a single NaN, a dump knows them all.
Arithmetic is the machine's, and only NaNs need a word: an operand that is a NaN is passed on,
quieted, the left one first, and an operation on numbers that has no numeric result gives the
negative quiet NaN.
-/

namespace CallLedger

structure Binary64 where
  bits : UInt64
deriving DecidableEq

namespace Binary64

def ofFloat (x : Float) : Binary64 := ⟨x.toBits⟩

def toFloat (x : Binary64) : Float := Float.ofBits x.bits

def magnitude (x : Binary64) : UInt64 := x.bits &&& 0x7FFFFFFFFFFFFFFF

def isNegative (x : Binary64) : Bool := x.bits ≥ 0x8000000000000000

def isNaN (x : Binary64) : Bool := x.magnitude > 0x7FF0000000000000

def isInfinite (x : Binary64) : Bool := x.magnitude == 0x7FF0000000000000

def isFinite (x : Binary64) : Bool := x.magnitude < 0x7FF0000000000000

def zero : Binary64 := ⟨0⟩

def negativeZero : Binary64 := ⟨0x8000000000000000⟩

def infinity : Binary64 := ⟨0x7FF0000000000000⟩

def negativeInfinity : Binary64 := ⟨0xFFF0000000000000⟩

def quietNaN : Binary64 := ⟨0x7FF8000000000000⟩

/-- The result of an operation on numbers that has none. -/
def indefinite : Binary64 := ⟨0xFFF8000000000000⟩

/-- A NaN as an operation passes it on: quiet, with its sign and payload. -/
def quieted (x : Binary64) : Binary64 := ⟨x.bits ||| 0x0008000000000000⟩

/-- Carries out a machine operation, with NaNs passed on or made as described above. -/
def compute (operation : Float → Float → Float) (x y : Binary64) : Binary64 :=
  if x.isNaN then x.quieted
  else if y.isNaN then y.quieted
  else
    let result := operation x.toFloat y.toFloat
    if result.isNaN then indefinite else ofFloat result

instance : Zero Binary64 := ⟨zero⟩
instance : Add Binary64 := ⟨compute (· + ·)⟩
instance : Sub Binary64 := ⟨compute (· - ·)⟩
instance : Mul Binary64 := ⟨compute (· * ·)⟩
instance : Div Binary64 := ⟨compute (· / ·)⟩
instance : Neg Binary64 := ⟨fun x => ⟨x.bits ^^^ 0x8000000000000000⟩⟩

instance : Amount Binary64 where
  emptySum := negativeZero
  less x y := x.toFloat < y.toFloat

/-- Equality of numbers: a NaN equals nothing, and the two zeros are equal. -/
def sameNumber (x y : Binary64) : Bool := x.toFloat == y.toFloat

def ofNat (n : Nat) : Binary64 := ofFloat (Float.ofNat n)

def ofInt : Int → Binary64
  | .ofNat n => ofNat n
  | .negSucc n => -ofNat (n + 1)

/-- Widens a binary32 number given by its bits. A NaN keeps its sign and payload and is quiet. -/
def ofBinary32 (bits : UInt32) : Binary64 :=
  let x : Float32 := Float32.ofBits bits
  if x.isNaN then
    let sign : UInt64 := if bits ≥ 0x80000000 then 0x8000000000000000 else 0
    let payload := (bits &&& 0x007FFFFF).toUInt64 <<< 29
    ⟨sign ||| 0x7FF8000000000000 ||| payload⟩
  else ofFloat x.toFloat

/-- The significand `m` and exponent `q` of a finite number of magnitude `m * 2 ^ q`. -/
def significand (x : Binary64) : Nat × Int :=
  let fraction := (x.bits &&& 0x000FFFFFFFFFFFFF).toNat
  let exponent := (x.magnitude >>> 52).toNat
  if exponent = 0 then (fraction, -1074) else (fraction + Nat.pow 2 52, exponent - 1075)

end Binary64

end CallLedger
