import CallLedger.Binary64

/-!
# Measure modes

What a session counts as cost. Samples are taken in a unit of the mode, nanoseconds for the two
clocks, and `multiplier` converts them into the unit of a report.
-/

namespace CallLedger

inductive MeasureMode where
  | wallTime
  | processTime
  | allocations
  | memory
deriving DecidableEq

/-- What the clocks and counters of the running process show. -/
structure Readings where
  wallNanoseconds : Nat
  processNanoseconds : Nat
  allocations : Nat
  bytes : Nat

namespace MeasureMode

def all : List MeasureMode := [wallTime, processTime, allocations, memory]

/-- The name of a mode in dumps and configurations. -/
def name : MeasureMode → String
  | wallTime => "wall_time"
  | processTime => "process_time"
  | allocations => "allocations"
  | memory => "memory"

/-- The name of a mode on the command line. -/
def optionName : MeasureMode → String
  | wallTime => "wall-time"
  | processTime => "process-time"
  | allocations => "allocations"
  | memory => "memory"

/-- Short names that are understood beside the full ones. -/
def shortNames : List (String × MeasureMode) :=
  [("wall", wallTime), ("process", processTime), ("cpu", processTime)]

def ofName? (text : String) : Option MeasureMode :=
  match all.find? fun mode => mode.name = text with
  | some mode => some mode
  | none => shortNames.lookup text

/-- The factor from samples to reported units. -/
def multiplier : MeasureMode → Binary64
  | wallTime | processTime => .ofFloat 1e-9
  | allocations | memory => .ofFloat 1

def sample (mode : MeasureMode) (readings : Readings) : Binary64 :=
  .ofNat <| match mode with
    | wallTime => readings.wallNanoseconds
    | processTime => readings.processNanoseconds
    | allocations => readings.allocations
    | memory => readings.bytes

end MeasureMode

end CallLedger
