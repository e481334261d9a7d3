import CallLedger.MeasureMode
import CallLedger.Stack.Basic
import CallLedger.ThreadFilter

/-!
# Session configuration

The options a session is made with. What is not given has a default; the one thing that can be
wrong with a configuration as a whole is a stack without room.
-/

namespace CallLedger

structure Config where
  measureMode : MeasureMode
  /-- If given, only these threads are traced. -/
  includeThreads : Option (List UInt64)
  /-- If given, these threads are not traced. -/
  excludeThreads : Option (List UInt64)
  /-- Report the failure of a profiled block after stopping. -/
  allowExceptions : Bool
  trackAllocations : Bool
  /-- Fold fibers into their threads on stop. -/
  mergeFibers : Bool
  /-- The number of frames each new stack has room for. -/
  initialStackCapacity : Nat
deriving DecidableEq

namespace Config

def default : Config where
  measureMode := .wallTime
  includeThreads := none
  excludeThreads := none
  allowExceptions := false
  trackAllocations := false
  mergeFibers := false
  initialStackCapacity := Stack.defaultCapacity

def threadFilter (config : Config) : ThreadFilter :=
  ⟨config.includeThreads, config.excludeThreads⟩

/-- Whether a session can be made with the configuration. -/
def isValid (config : Config) : Bool := config.initialStackCapacity ≠ 0

end Config

end CallLedger
