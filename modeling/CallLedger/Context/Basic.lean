import CallLedger.Event
import CallLedger.Profile.Merge
import CallLedger.Stack.Basic

/-!
# Contexts

A context is one line of execution, a fiber of a thread, with its own profile and stack. This
module says what each kind of event does to the context it was raised on.

A call of an excluded method, and one that does not say which method it calls, opens no
invocation: its cost stays with the caller, and the caller absorbs the return. A method that
calls itself directly stays on its node of the call tree; any other call leads to a child.
-/

namespace CallLedger

structure ContextKey where
  thread : UInt64
  fiber : UInt64
deriving DecidableEq

structure Context (α : Type) where
  key : ContextKey
  /-- Whether the events of the context are recorded. -/
  traced : Bool
  profile : Profile α
  stack : Stack α
deriving DecidableEq

namespace Context

variable {α : Type} [Amount α]

def fresh (key : ContextKey) (traced : Bool) (capacity : Nat) : Context α where
  key := key
  traced := traced
  profile := .empty
  stack := .withCapacity capacity

/-- A context in which nothing runs any more, with what was recorded of it. -/
def settled (key : ContextKey) (profile : Profile α) : Context α where
  key := key
  traced := true
  profile := profile
  stack := .empty

/-- The call-tree node that a call of a method leads to from the innermost open invocation. A
call on an empty stack makes the method a root. -/
def enterNode (context : Context α) (method : MethodId) : Profile α × NodeId :=
  match context.stack.top? with
  | some frame =>
    if frame.method = method then (context.profile, frame.node)
    else context.profile.child (some frame.node) method ⟨frame.file, frame.line⟩
  | none =>
    (context.profile.modifyMethod method ({ · with root := true })).child none method .none

/-- Opens an invocation of a method at the source position of the event. -/
def openCall (context : Context α) (method : MethodId) (event : Event α) (paused : Bool) :
    Context α :=
  let (profile, node) := context.enterNode method
  let (stack, profile) := context.stack.push profile node event.sample paused
  { context with
    profile := profile
    stack := stack.modifyTop ({ · with file := event.file, line := event.line }) }

def called (context : Context α) (event : Event α) (exclusions : Exclusions) (paused : Bool) :
    Context α :=
  match event.method? with
  | none => { context with stack := context.stack.pass }
  | some method =>
    let source := event.file.map fun file => ⟨file, event.line⟩
    let (methods, id) := context.profile.methods.lookupOrCreate method
      (event.kind = .nativeCall) source exclusions
    let context := { context with profile := { context.profile with methods := methods } }
    if (methods.record? id).any (·.excluded) then { context with stack := context.stack.pass }
    else context.openCall id event paused

/-- Handles a return. In a paused program the caller is innermost again and stays paused. -/
def returned (context : Context α) (now : α) (paused : Bool) : Context α :=
  let (_, stack, profile) := context.stack.pop context.profile now
  { context with profile := profile, stack := if paused then stack.pause now else stack }

/-- Handles the move to another line, which may be in another file. -/
def moved (context : Context α) (event : Event α) : Context α :=
  { context with
    stack := context.stack.modifyTop fun top =>
      { top with file := event.file <|> top.file, line := event.line } }

/-- Handles an allocation: it goes to the innermost open method whose source encloses it. -/
def allocated (context : Context α) (event : Event α) : Context α :=
  match event.file, event.allocation with
  | some file, some object =>
    match context.stack.enclosing? context.profile.methods file event.line with
    | some method =>
      let site : AllocationSite := ⟨file, event.line, object.className⟩
      { context with
        profile := context.profile.modifyMethod method fun record =>
          { record with allocations := record.allocations.record site object.size.toNat } }
    | none => context
  | _, _ => context

def pause (context : Context α) (now : α) : Context α :=
  { context with stack := context.stack.pause now }

def resume (context : Context α) (now : α) : Context α :=
  { context with stack := context.stack.unpause now }

def unwind (context : Context α) (now : α) : Context α :=
  let (stack, profile) := context.stack.unwind context.profile now
  { context with profile := profile, stack := stack }

def merge (context other : Context α) : Context α :=
  { context with profile := context.profile.merge other.profile }

def switchIn (context : Context α) (now : α) : Context α :=
  { context with stack := context.stack.modifyTop (·.switchIn now) }

def switchOut (context : Context α) (now : α) : Context α :=
  { context with stack := context.stack.modifyTop (·.switchOut now) }

/-- The inclusive cost of everything recorded on the context. -/
def totalTime (context : Context α) : α := context.profile.tree.totalTime

end Context

end CallLedger
