import CallLedger.Amount
import CallLedger.CallTree.Basic

/-!
# Frames

A frame is one open invocation. It remembers when it started, and keeps three sums that its
cost is settled from when it closes: what its callees took, how long it was paused (dead time),
and how long another context was running (waiting time).

A pause is open between `pause` and `unpause`, a wait between `switchOut` and `switchIn`. They
may overlap. Waiting time therefore leaves out the dead time that accrued during the wait, which
is what `deadUntil` measures at both ends.
-/

namespace CallLedger

structure Frame (α : Type) where
  node : NodeId
  method : MethodId
  start : α
  /-- Since when the frame has been paused. -/
  pausedAt : Option α
  /-- Since when another context has been running. -/
  switchedAt : Option α
  /-- The dead time when the open wait began. -/
  switchDead : α
  /-- What completed callees took. -/
  childTime : α
  /-- How long the frame was paused, an open pause left out. -/
  deadTime : α
  /-- How long another context was running while the frame was not paused. -/
  waitTime : α
  file : Option String
  line : UInt32
  /-- How many returns are still to be absorbed, for callees that have no frame. A profiler counts
  them in 32 bits, which it takes `2 ^ 32` operations to exceed. -/
  passes : Nat
deriving DecidableEq

namespace Frame

variable {α : Type} [Amount α]

def opened (node : NodeId) (method : MethodId) (start : α) : Frame α where
  node := node
  method := method
  start := start
  pausedAt := none
  switchedAt := none
  switchDead := 0
  childTime := 0
  deadTime := 0
  waitTime := 0
  file := none
  line := 0
  passes := 0

def isPaused (frame : Frame α) : Bool := frame.pausedAt.isSome

def isPass (frame : Frame α) : Bool := frame.passes > 0

/-- Opens a pause; one that is open already goes on. -/
def pause (frame : Frame α) (now : α) : Frame α :=
  match frame.pausedAt with
  | none => { frame with pausedAt := some now }
  | some _ => frame

/-- Closes the open pause and adds it to the dead time. -/
def unpause (frame : Frame α) (now : α) : Frame α :=
  match frame.pausedAt with
  | some paused => { frame with pausedAt := none, deadTime := frame.deadTime + (now - paused) }
  | none => frame

/-- The dead time including a pause that is still open. -/
def deadUntil (frame : Frame α) (now : α) : α :=
  frame.deadTime + (match frame.pausedAt with | some paused => now - paused | none => 0)

/-- Begins a wait: another context becomes active. -/
def switchOut (frame : Frame α) (now : α) : Frame α :=
  { frame with switchedAt := some now, switchDead := frame.deadUntil now }

/-- Ends a wait and charges the part of it during which the frame was not paused. -/
def switchIn (frame : Frame α) (now : α) : Frame α :=
  match frame.switchedAt with
  | some switched =>
    let dead := frame.deadUntil now - frame.switchDead
    { frame with
      switchedAt := none
      waitTime := frame.waitTime + (now - switched - dead)
      switchDead := 0 }
  | none => frame

/-- The inclusive cost of an invocation that ends now: the time since it started, less the time
it was paused. -/
def totalTime (frame : Frame α) (now : α) : α := now - frame.start - frame.deadTime

/-- The cost of the body of an invocation that ends now. -/
def selfTime (frame : Frame α) (now : α) : α :=
  frame.totalTime now - frame.childTime - frame.waitTime

/-- What a caller takes over from a callee that has ended. -/
def credit (frame : Frame α) (totalTime deadTime : α) : Frame α :=
  { frame with childTime := frame.childTime + totalTime, deadTime := frame.deadTime + deadTime }

end Frame

end CallLedger
