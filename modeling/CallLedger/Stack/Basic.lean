import CallLedger.Profile.Basic
import CallLedger.Stack.Frame

/-!
# The stack of open invocations

A stack holds the frames of one context, the innermost first. Opening an invocation counts it in
the profile, closing one settles its cost there and hands its inclusive cost and dead time to
the caller.

A frame may owe passes: returns of callees that got no frame of their own. Such a return only
pays off one pass. A return on an empty stack is no error, since not every call of a running
program need have been seen.

Only the innermost frame of a paused program is paused: a caller that makes a call is unpaused
and the callee is paused in its place.
-/

namespace CallLedger

structure Stack (α : Type) where
  /-- The open invocations, innermost first. -/
  frames : List (Frame α)
  /-- The number of frames there is room for. -/
  capacity : Nat
deriving DecidableEq

namespace Stack

variable {α : Type} [Amount α]

def defaultCapacity : Nat := 8

/-- An empty stack with room for at least one frame. -/
def withCapacity (capacity : Nat) : Stack α := ⟨[], max capacity 1⟩

def empty : Stack α := withCapacity defaultCapacity

def depth (stack : Stack α) : Nat := stack.frames.length

def isEmpty (stack : Stack α) : Bool := stack.frames.isEmpty

def top? (stack : Stack α) : Option (Frame α) := stack.frames.head?

/-- Changes the innermost frame, if there is one. -/
def modifyTop (stack : Stack α) (change : Frame α → Frame α) : Stack α :=
  match stack.frames with
  | [] => stack
  | top :: rest => { stack with frames := change top :: rest }

def pause (stack : Stack α) (now : α) : Stack α := stack.modifyTop (·.pause now)

def unpause (stack : Stack α) (now : α) : Stack α := stack.modifyTop (·.unpause now)

/-- Lets the innermost frame absorb one return more. -/
def pass (stack : Stack α) : Stack α :=
  stack.modifyTop fun top => { top with passes := top.passes + 1 }

/-- Puts a frame on the stack, whose room doubles when there is none left. -/
def grow (stack : Stack α) (frame : Frame α) : Stack α where
  frames := frame :: stack.frames
  capacity := if stack.depth = stack.capacity then 2 * stack.capacity else stack.capacity

def push (stack : Stack α) (profile : Profile α) (node : NodeId) (now : α) (paused : Bool) :
    Stack α × Profile α :=
  match profile.methodOf? node with
  | none => (stack, profile)
  | some method =>
    let frame : Frame α := .opened node method now
    let frame := if paused then frame.pause now else frame
    ((stack.unpause now).grow frame, profile.enter node method)

/-- Handles a return: pays off a pass of the innermost frame, or closes that frame. The frame
comes back as it was left. -/
def pop (stack : Stack α) (profile : Profile α) (now : α) :
    Option (Frame α) × Stack α × Profile α :=
  match stack.frames with
  | [] => (none, stack, profile)
  | top :: rest =>
    if top.isPass then
      let paid := { top with passes := top.passes - 1 }
      (some paid, { stack with frames := paid :: rest }, profile)
    else
      let frame := top.unpause now
      let total := frame.totalTime now
      let callers : Stack α := { stack with frames := rest }
      (some frame, callers.modifyTop (·.credit total frame.deadTime),
        profile.settle frame.node frame.method (frame.selfTime now) frame.waitTime total)

/-- How many returns it takes to empty a stack. -/
def pending (frames : List (Frame α)) : Nat :=
  frames.foldr (fun frame later => frame.passes + 1 + later) 0

/-- Handles the given number of returns, all at one time. -/
def popTimes : (times : Nat) → Stack α → Profile α → (now : α) → Stack α × Profile α
  | 0, stack, profile, _ => (stack, profile)
  | times + 1, stack, profile, now =>
    let (_, stack, profile) := stack.pop profile now
    popTimes times stack profile now

def unwind (stack : Stack α) (profile : Profile α) (now : α) : Stack α × Profile α :=
  popTimes (pending stack.frames) stack profile now

/-- The innermost open method that is defined in a file, at or above a line of it. -/
def enclosing? (stack : Stack α) (methods : Registry α) (file : String) (line : UInt32) :
    Option MethodId :=
  stack.frames.findSome? fun frame => do
    let record ← methods.record? frame.method
    let source ← record.source
    if source.file = file ∧ source.line ≤ line then some frame.method else none

end Stack

end CallLedger
