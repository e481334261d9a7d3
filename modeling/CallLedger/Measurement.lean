import CallLedger.Amount

/-!
# Measurements

What was spent on one method, or along one call path: in the body itself, waiting for another
context, and in all, with the number of invocations. Amounts are kept in the unit the samples
came in; `scaled` turns them into reported units when they are read.
-/

namespace CallLedger

structure Measurement (α : Type) where
  /-- Cost of the body itself, without callees and without waiting. -/
  selfTime : α
  /-- Cost while another context was running. -/
  waitTime : α
  /-- Inclusive cost, counted once per outermost invocation. -/
  totalTime : α
  /-- Number of invocations, re-entries included. A profiler has 64 bits for it, which merging can
  exceed. -/
  called : Nat
deriving DecidableEq

namespace Measurement

variable {α : Type} [Amount α]

def empty : Measurement α := ⟨0, 0, 0, 0⟩

/-- What the callees took: the total less what is accounted for here. -/
def childrenTime (m : Measurement α) : α :=
  m.totalTime - m.selfTime - m.waitTime

def merge (m other : Measurement α) : Measurement α where
  selfTime := m.selfTime + other.selfTime
  waitTime := m.waitTime + other.waitTime
  totalTime := m.totalTime + other.totalTime
  called := m.called + other.called

/-- Converts every amount by the factor of a unit; invocations have no unit. -/
def scaled [Mul α] (m : Measurement α) (factor : α) : Measurement α where
  selfTime := m.selfTime * factor
  waitTime := m.waitTime * factor
  totalTime := m.totalTime * factor
  called := m.called

end Measurement

end CallLedger
