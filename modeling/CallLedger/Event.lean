import CallLedger.Method.Owner

/-!
# Events

What a program under observation reports: calls and returns, of native methods too, the move to
another source line, and the allocation of an object. Every event carries the thread and fiber
it was raised on and the sample taken at that moment.
-/

namespace CallLedger

inductive EventKind where
  | call
  | return
  /-- A call of a method that has no source location. -/
  | nativeCall
  | nativeReturn
  | line
  | allocation
deriving DecidableEq

namespace EventKind

def all : List EventKind := [call, .return, nativeCall, nativeReturn, line, allocation]

def name : EventKind → String
  | call => "call"
  | .return => "return"
  | nativeCall => "native_call"
  | nativeReturn => "native_return"
  | line => "line"
  | allocation => "allocation"

def isCall (kind : EventKind) : Bool := kind = call || kind = nativeCall

def isReturn (kind : EventKind) : Bool := kind = .return || kind = nativeReturn

end EventKind

/-- An object that was allocated: its class and its size in bytes. -/
structure AllocatedObject where
  className : String
  size : UInt64
deriving DecidableEq

structure Event (α : Type) where
  kind : EventKind
  thread : UInt64
  fiber : UInt64
  sample : α
  entity : Option Entity
  member : Option String
  file : Option String
  line : UInt32
  allocation : Option AllocatedObject
deriving DecidableEq

namespace Event

variable {α : Type}

/-- The event of a kind that says nothing else. -/
def bare [Zero α] (kind : EventKind) : Event α where
  kind := kind
  thread := 0
  fiber := 0
  sample := 0
  entity := none
  member := none
  file := none
  line := 0
  allocation := none

variable [Zero α]

def call (entity : Entity) (member : String) : Event α :=
  { bare .call with entity := some entity, member := some member }

def nativeCall (entity : Entity) (member : String) : Event α :=
  { bare .nativeCall with entity := some entity, member := some member }

def returned : Event α := bare .return

def nativeReturned : Event α := bare .nativeReturn

/-- Execution reached a line of a file. -/
def reached (file : String) (line : UInt32) : Event α :=
  { bare .line with file := some file, line := line }

/-- An object was allocated at a line of a file. -/
def allocated (object : AllocatedObject) (file : String) (line : UInt32) : Event α :=
  { bare .allocation with file := some file, line := line, allocation := some object }

omit [Zero α]

def placed (event : Event α) (file : String) (line : UInt32) : Event α :=
  { event with file := some file, line := line }

def on (event : Event α) (thread fiber : UInt64) : Event α :=
  { event with thread := thread, fiber := fiber }

def sampled (event : Event α) (sample : α) : Event α :=
  { event with sample := sample }

/-- The method that a call names, if it names one: that takes both an entity and a member. -/
def method? (event : Event α) : Option Method :=
  match event.entity, event.member with
  | some entity, some member => some (Method.of entity member)
  | _, _ => none

end Event

end CallLedger
