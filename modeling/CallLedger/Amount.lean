/-!
# Amounts of cost

Everything the profiler adds up is an amount: nanoseconds, allocations or bytes. The engine
only ever adds and subtracts amounts, starts from nothing, and compares two of them when it
ranks edges, so it is written once for every type that can do this. A recorded profile runs on
`Binary64`; laws about where time goes are read over exact amounts such as `Int`.

Two neutral elements are told apart. `0` is what an untouched counter shows. `emptySum` is
where a sum starts, and it must change no amount it is added to: in binary floating point that
is negative zero, since `-0 + x` is `x` for every `x`, while `0 + -0` is `0`.
-/

namespace CallLedger

class Amount (α : Type) extends Zero α, Add α, Sub α where
  /-- Where a sum starts: adding it to an amount leaves that amount unchanged. -/
  emptySum : α
  /-- Decides whether the first amount is smaller; amounts that do not compare are not. -/
  less : α → α → Bool

namespace Amount

variable {α : Type} [Amount α]

def sum (amounts : List α) : α :=
  amounts.foldl (· + ·) emptySum

end Amount

instance : Amount Int where
  zero := 0
  emptySum := 0
  less a b := decide (a < b)

end CallLedger
