import CallLedger.Profile.Searching
import CallLedger.Session.Operation

/-!
# Sessions, search by search

A call makes its context search for the method, and folding fibers searches for every method of one
profile in another. A session that comes upon a search without an end never gets beyond it: the
operation has no outcome, not even a refusal, and neither has the run that it is part of.
-/

namespace CallLedger.Searching

variable {α : Type} [Amount α]

/-! ## Contexts -/

def called (context : Context α) (event : Event α) (exclusions : Exclusions) (paused : Bool) :
    Option (Context α) :=
  match event.method? with
  | none => some { context with stack := context.stack.pass }
  | some method => do
    let source := event.file.map fun file => ⟨file, event.line⟩
    let (methods, id) ← lookupOrCreate context.profile.methods method
      (event.kind = .nativeCall) source exclusions
    let context := { context with profile := { context.profile with methods := methods } }
    if (methods.record? id).any (·.excluded) then
      return { context with stack := context.stack.pass }
    else return context.openCall id event paused

/-- Adds one context after another. -/
def mergeAll (context : Context α) (others : List (Context α)) : Option (Context α) :=
  others.foldlM
    (fun context other => return { context with profile := ← merge context.profile other.profile })
    context

/-! ## Tables -/

/-- Changes the context in a slot, if there is one. -/
def modify (table : ContextTable α) (handle : Handle)
    (change : Context α → Option (Context α)) : Option (ContextTable α) :=
  match table.get? handle with
  | none => some table
  | some context => do
    let changed ← change context
    return table.modify handle fun _ => changed

def foldThread (table : ContextTable α) (thread : UInt64) : Option (ContextTable α) :=
  match table.fibers thread with
  | [] => some table
  | (first, _) :: others =>
    modify (others.foldl (fun table other => table.release other.1) table) first fun context =>
      mergeAll context (others.map (·.2))

def foldFibers (table : ContextTable α) : Option (ContextTable α) :=
  table.threads.foldlM foldThread table

/-! ## Operations -/

def record (session : Session α) (event : Event α) (context : Context α) : Option (Context α) :=
  if context.traced then
    match event.kind with
    | .call | .nativeCall => called context event session.exclusions session.isPaused
    | _ => return session.record event context
  else return context

def handle (session : Session α) (event : Event α) : Option (Session α) :=
  if session.phase.isActive then do
    let (contexts, handle) := session.contexts.activate ⟨event.thread, event.fiber⟩ event.sample
      session.filter session.config.initialStackCapacity
    return { session with contexts := ← modify contexts handle (record session event) }
  else return session

def stop (session : Session α) (now : α) : Option (Except Error (Session α)) :=
  if session.phase.isActive then do
    let unwound := session.contexts.handles.foldl (session.unwind now) session.contexts
    let settled := unwound.resetLast
    let contexts ← (if session.config.mergeFibers then foldFibers settled else some settled)
    return .ok { session with contexts := contexts, phase := .finished }
  else return session.illegal .stop

def mergeFibers (session : Session α) : Option (Except Error (Session α)) :=
  if session.phase.isActive then return session.illegal .mergeFibers
  else do return .ok { session with contexts := ← foldFibers session.contexts }

def perform (session : Session α) : Operation α → Option (Except Error (Session α))
  | .event event => do return .ok (← handle session event)
  | .stop now => stop session now
  | .mergeFibers => mergeFibers session
  | operation => return session.perform operation

/-- The session after an operation; one that is forbidden changes nothing. -/
def after (session : Session α) (operation : Operation α) : Option (Session α) := do
  match ← perform session operation with
  | .ok next => return next
  | .error _ => return session

def run (session : Session α) (operations : List (Operation α)) : Option (Session α) :=
  operations.foldlM after session

end CallLedger.Searching
