import CallLedger.Measurement
import CallLedger.Method.Allocation
import CallLedger.Method.Key

/-!
# Method records

What one context knows of one method: where it is defined, what it cost over all call paths,
what was seen of it, and which call-tree nodes are its own.
-/

namespace CallLedger

/-- The position of a method record in its registry. -/
abbrev MethodId := Nat

/-- The position of a node in its call tree. -/
abbrev NodeId := Nat

structure SourceLocation where
  file : String
  line : UInt32
deriving DecidableEq

structure MethodRecord (α : Type) where
  key : Key
  method : Method
  /-- The definition site; native and excluded methods have none. -/
  source : Option SourceLocation
  measurement : Measurement α
  /-- The method was entered while it was already active. -/
  recursive : Bool
  /-- The method was entered on an empty stack. -/
  root : Bool
  /-- The cost of the method is folded into its caller. -/
  excluded : Bool
  /-- How often the method is on the stack now, which a profiler counts in 32 bits. -/
  visits : Nat
  /-- The nodes bound to the method, in the order in which they were made. -/
  nodes : Array NodeId
  allocations : AllocationTable
deriving DecidableEq

namespace MethodRecord

variable {α : Type} [Amount α]

/-- A method of which nothing has been seen yet. -/
def fresh (key : Key) (method : Method) : MethodRecord α where
  key := key
  method := method
  source := none
  measurement := .empty
  recursive := false
  root := false
  excluded := false
  visits := 0
  nodes := #[]
  allocations := .empty

/-- The record as another registry takes it over: its identity, source and exclusion, without
cost, nodes and allocations. -/
def detached (record : MethodRecord α) : MethodRecord α :=
  { fresh record.key record.method with source := record.source, excluded := record.excluded }

/-- Notes one more invocation, which is a re-entry when the method is active already. -/
def entered (record : MethodRecord α) : MethodRecord α :=
  { record with
    recursive := record.recursive || record.visits > 0
    measurement := { record.measurement with called := record.measurement.called + 1 }
    visits := record.visits + 1 }

/-- Settles an invocation that has ended. Inclusive cost counts when no other one is active. -/
def settled (record : MethodRecord α) (selfTime waitTime totalTime : α) : MethodRecord α :=
  { record with
    measurement :=
      { record.measurement with
        selfTime := record.measurement.selfTime + selfTime
        waitTime := record.measurement.waitTime + waitTime
        totalTime :=
          if record.visits = 1 then record.measurement.totalTime + totalTime
          else record.measurement.totalTime }
    visits := record.visits - 1 }

/-- Adds what another context knows of the same method. -/
def absorb (record other : MethodRecord α) : MethodRecord α :=
  { record with
    measurement := record.measurement.merge other.measurement
    recursive := record.recursive || other.recursive
    root := record.root || other.root
    allocations := record.allocations.merge other.allocations.rows }

end MethodRecord

end CallLedger
