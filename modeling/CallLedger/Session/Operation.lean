import CallLedger.Session.Basic

/-!
# Sessions, operation by operation

Everything that can happen to a session as one type, so that a whole run is a list. Performing
an operation that the state forbids is an error; a run passes over such operations and goes on
with the session as it was.
-/

namespace CallLedger

inductive Operation (α : Type) where
  | setMeasureMode (mode : MeasureMode)
  | excludeMethod (method : Method)
  | setThreadFilter (filter : ThreadFilter)
  | start (now : α)
  | pause (now : α)
  | resume (now : α)
  | stop (now : α)
  | event (event : Event α)
  | mergeFibers
  | teardown
deriving DecidableEq

namespace Session

variable {α : Type} [Amount α]

def perform (session : Session α) : Operation α → Except Error (Session α)
  | .setMeasureMode mode => session.setMeasureMode mode
  | .excludeMethod method => session.excludeMethod method
  | .setThreadFilter filter => session.setThreadFilter filter
  | .start now => session.start now
  | .pause now => session.pause now
  | .resume now => session.resume now
  | .stop now => session.stop now
  | .event event => .ok (session.handle event)
  | .mergeFibers => session.mergeFibers
  | .teardown => .ok session.teardown

/-- The session after an operation; one that is forbidden changes nothing. -/
def after (session : Session α) (operation : Operation α) : Session α :=
  match session.perform operation with
  | .ok next => next
  | .error _ => session

def run (session : Session α) (operations : List (Operation α)) : Session α :=
  operations.foldl after session

end Session

end CallLedger
