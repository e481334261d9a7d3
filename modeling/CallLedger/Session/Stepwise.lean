import CallLedger.Session.Operation

/-!
# Operations, step by step

An operation on many contexts is a walk over their handles, and each handle has to lead to its
context when its turn comes. One that leads nowhere ends the operation on the spot, with
`alreadyFreed`, and what was changed until then stays changed: a run may be half paused, a stop
may have closed some stacks and not the others. Here every operation is written as such a walk.
`Session.carry` performs one and shows both what became of the session and what went wrong.

`Session.perform` says what operations come to when nothing goes wrong midway.
-/

namespace CallLedger

/-- Steps that change a session, one after another, until one of them fails. -/
abbrev Stepwise (α β : Type) := EStateM Error (Session α) β

namespace Stepwise

variable {α : Type}

/-- The context that a handle leads to. -/
def fetch (handle : Handle) : Stepwise α (Context α) := do
  match (← get).contexts.get? handle with
  | some context => return context
  | none => throw .alreadyFreed

def alter (handle : Handle) (change : Context α → Context α) : Stepwise α Unit := do
  let _ ← fetch handle
  modify fun session => { session with contexts := session.contexts.modify handle change }

def refuse (operation : ControlOperation) : Stepwise α Unit := do
  throw (.illegalState operation (← get).phase.name)

/-! ## Setting up -/

def setMeasureMode (mode : MeasureMode) : Stepwise α Unit := do
  match (← get).phase with
  | .idle =>
    modify fun session => { session with config := { session.config with measureMode := mode } }
  | .finished => refuse .changeMeasureMode
  | .running | .paused => throw (.illegalState .changeMeasureMode "profiling")

def excludeMethod (method : Method) : Stepwise α Unit := do
  match (← get).phase with
  | .idle => modify fun session => { session with exclusions := session.exclusions.insert method }
  | _ => refuse .excludeMethods

def setThreadFilter (filter : ThreadFilter) : Stepwise α Unit := do
  match (← get).phase with
  | .idle => modify fun session => { session with filter := filter }
  | _ => refuse .changeThreadFilter

def start : Stepwise α Unit := do
  match (← get).phase with
  | .idle => modify fun session => { session with phase := .running }
  | _ => refuse .start

/-! ## Folding fibers -/

/-- Releases the contexts under some handles, and hands out those that were still there. -/
def takeOut : List Handle → Stepwise α (List (Context α))
  | [] => return []
  | handle :: handles => do
    let taken := (← get).contexts.get? handle
    modify fun session => { session with contexts := session.contexts.release handle }
    let others ← takeOut handles
    return taken.toList ++ others

variable [Amount α]

/-- Adds the other fibers of a thread to the first one. -/
def foldGroup : List Handle → Stepwise α Unit
  | first :: second :: rest => do
    let others ← takeOut (second :: rest)
    alter first fun context => others.foldl Context.merge context
  | _ => return ()

/-- Folds the fibers of every thread. Which fibers there are is settled before the first step. -/
def mergeFibers : Stepwise α Unit := do
  let session ← get
  if session.phase.isActive then refuse .mergeFibers
  else
    session.contexts.threads.forM fun thread =>
      foldGroup ((session.contexts.fibers thread).map (·.1))

/-! ## Running -/

def pause (now : α) : Stepwise α Unit := do
  match (← get).phase with
  | .running =>
    (← get).contexts.handles.forM (alter · (·.pause now))
    modify fun session => { session with phase := .paused }
  | .paused => return ()
  | _ => refuse .pause

def resume (now : α) : Stepwise α Unit := do
  match (← get).phase with
  | .paused =>
    (← get).contexts.handles.forM (alter · (·.resume now))
    modify fun session => { session with phase := .running }
  | .running => return ()
  | _ => refuse .resume

/-- Makes the context with a key the active one, and yields its handle. -/
def activate (key : ContextKey) (now : α) : Stepwise α Handle := do
  let session ← get
  let (contexts, handle) := session.contexts.activate key now session.filter
    session.config.initialStackCapacity
  set { session with contexts := contexts }
  return handle

/-- Makes the context under a handle the active one and closes its open invocations. -/
def unwind (now : α) (handle : Handle) : Stepwise α Unit := do
  let context ← fetch handle
  let _ ← activate context.key now
  alter handle (·.unwind now)

def stop (now : α) : Stepwise α Unit := do
  if (← get).phase.isActive then
    (← get).contexts.handles.forM (unwind now)
    modify fun session =>
      { session with contexts := session.contexts.resetLast, phase := .finished }
    if (← get).config.mergeFibers then mergeFibers
  else refuse .stop

def handle (event : Event α) : Stepwise α Unit := do
  if (← get).phase.isActive then
    let handle ← activate ⟨event.thread, event.fiber⟩ event.sample
    let session ← get
    alter handle (session.record event)

def teardown : Stepwise α Unit := modify Session.teardown

def perform : Operation α → Stepwise α Unit
  | .setMeasureMode mode => setMeasureMode mode
  | .excludeMethod method => excludeMethod method
  | .setThreadFilter filter => setThreadFilter filter
  | .start _ => start
  | .pause now => pause now
  | .resume now => resume now
  | .stop now => stop now
  | .event event => handle event
  | .mergeFibers => mergeFibers
  | .teardown => teardown

end Stepwise

namespace Session

variable {α : Type} [Amount α]

/-- What becomes of a session when an operation is performed on it, and what went wrong. -/
def carry (session : Session α) (operation : Operation α) : Session α × Option Error :=
  match (Stepwise.perform operation).run session with
  | .ok () next => (next, none)
  | .error error next => (next, some error)

/-- A session after some operations, each performed as far as it went. -/
def carried (session : Session α) (operations : List (Operation α)) : Session α :=
  operations.foldl (fun session operation => (session.carry operation).1) session

end Session

end CallLedger
