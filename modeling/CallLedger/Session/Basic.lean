import CallLedger.Config
import CallLedger.Error
import CallLedger.Session.Fibers

/-!
# Sessions

A session is one profiling run over a stream of events. It is set up while it is idle, runs from
`start` to `stop`, may be paused in between, and is finished for good after that: it never
starts again.

    idle --start--> running <--pause, resume--> paused
                       |                          |
                       +----------- stop ---------+--> finished

Every operation takes the sample that goes with it, so a recorded run can be replayed exactly.
An operation that the state forbids answers with an error. Events never fail; outside a run they
are ignored.
-/

namespace CallLedger

inductive Phase where
  | idle
  | running
  | paused
  | finished
deriving DecidableEq

structure Session (α : Type) where
  config : Config
  filter : ThreadFilter
  exclusions : Exclusions
  contexts : ContextTable α
  phase : Phase
deriving DecidableEq

namespace Phase

/-- The state a report shows; it does not tell whether a stopped session has run. -/
def state : Phase → String
  | idle | finished => "stopped"
  | running => "running"
  | paused => "paused"

def name : Phase → String
  | idle => "stopped"
  | running => "running"
  | paused => "paused"
  | finished => "finished"

def isActive : Phase → Bool
  | running | paused => true
  | idle | finished => false

end Phase

namespace Session

variable {α : Type} [Amount α]

/-- A session that is about to be set up. -/
def ofConfig (config : Config) : Except Error (Session α) :=
  if config.isValid then
    .ok ⟨config, config.threadFilter, .empty, .empty, .idle⟩
  else .error (.config .noStackCapacity)

/-- A finished session that holds contexts recorded before. -/
def ofContexts (mode : MeasureMode) (contexts : List (Context α)) : Session α where
  config := { Config.default with measureMode := mode }
  filter := .all
  exclusions := .empty
  contexts := contexts.foldl ContextTable.insert .empty
  phase := .finished

def isRunning (session : Session α) : Bool := session.phase.isActive

def isPaused (session : Session α) : Bool := session.phase = .paused

/-- The factor from samples to reported units. -/
def multiplier (session : Session α) : Binary64 := session.config.measureMode.multiplier

def sample (session : Session α) (readings : Readings) : Binary64 :=
  session.config.measureMode.sample readings

def illegal {β : Type} (session : Session α) (operation : ControlOperation) : Except Error β :=
  .error (.illegalState operation session.phase.name)

/-! ## Setting up -/

def setMeasureMode (session : Session α) (mode : MeasureMode) : Except Error (Session α) :=
  match session.phase with
  | .idle => .ok { session with config := { session.config with measureMode := mode } }
  | .finished => session.illegal .changeMeasureMode
  | .running | .paused => .error (.illegalState .changeMeasureMode "profiling")

def excludeMethod (session : Session α) (method : Method) : Except Error (Session α) :=
  match session.phase with
  | .idle => .ok { session with exclusions := session.exclusions.insert method }
  | _ => session.illegal .excludeMethods

def setThreadFilter (session : Session α) (filter : ThreadFilter) : Except Error (Session α) :=
  match session.phase with
  | .idle => .ok { session with filter := filter }
  | _ => session.illegal .changeThreadFilter

/-! ## Running -/

/-- Starts the run. The sample is that of the moment; nothing is charged to it. -/
def start (session : Session α) (_now : α) : Except Error (Session α) :=
  match session.phase with
  | .idle => .ok { session with phase := .running }
  | _ => session.illegal .start

/-- Pauses the innermost invocation of every context. Pausing twice is pausing once. -/
def pause (session : Session α) (now : α) : Except Error (Session α) :=
  match session.phase with
  | .running =>
    .ok { session with
      contexts := session.contexts.mapLive (·.pause now)
      phase := .paused }
  | .paused => .ok session
  | _ => session.illegal .pause

def resume (session : Session α) (now : α) : Except Error (Session α) :=
  match session.phase with
  | .paused =>
    .ok { session with
      contexts := session.contexts.mapLive (·.resume now)
      phase := .running }
  | .running => .ok session
  | _ => session.illegal .resume

/-- Makes the context in a slot active and closes its open invocations. -/
def unwind (session : Session α) (now : α) (contexts : ContextTable α) (handle : Handle) :
    ContextTable α :=
  match contexts.get? handle with
  | none => contexts
  | some context =>
    let (contexts, _) := contexts.activate context.key now session.filter
      session.config.initialStackCapacity
    contexts.modify handle (·.unwind now)

/-- Closes every open invocation of every context and ends the run. -/
def stop (session : Session α) (now : α) : Except Error (Session α) :=
  if session.phase.isActive then
    let unwound := session.contexts.handles.foldl (session.unwind now) session.contexts
    let settled := unwound.resetLast
    .ok { session with
      contexts := if session.config.mergeFibers then settled.foldFibers else settled
      phase := .finished }
  else session.illegal .stop

/-- What an event does to the context that it was raised on. -/
def record (session : Session α) (event : Event α) (context : Context α) : Context α :=
  if context.traced then
    match event.kind with
    | .call | .nativeCall => context.called event session.exclusions session.isPaused
    | .return | .nativeReturn => context.returned event.sample session.isPaused
    | .line => context.moved event
    | .allocation =>
      if session.config.trackAllocations then context.allocated event else context
  else context

/-- Takes in one event: its context becomes the active one and records it. -/
def handle (session : Session α) (event : Event α) : Session α :=
  if session.phase.isActive then
    let (contexts, handle) := session.contexts.activate ⟨event.thread, event.fiber⟩ event.sample
      session.filter session.config.initialStackCapacity
    { session with contexts := contexts.modify handle (session.record event) }
  else session

/-! ## After the run -/

/-- Folds the fibers of every thread into the one with the lowest number. -/
def mergeFibers (session : Session α) : Except Error (Session α) :=
  if session.phase.isActive then session.illegal .mergeFibers
  else .ok { session with contexts := session.contexts.foldFibers }

/-- Releases every context and ends the session in whatever state it is. -/
def teardown (session : Session α) : Session α :=
  { session with contexts := session.contexts.releaseAll, phase := .finished }

/-! ## Profiling a block -/

/-- The verdict on a profiled block that may have failed: its value, or its failure if failures
are to be reported, or nothing. -/
def verdict {β : Type} (session : Session α) : Except String β → Except Error (Option β)
  | .ok value => .ok (some value)
  | .error reason =>
    if session.config.allowExceptions then .error (.profiled reason) else .ok none

/-- Ends the run, unless the block has ended it, and reports the outcome of the block. -/
def conclude {β : Type} (session : Session α) (now : α) (outcome : Except String β) :
    Session α × Except Error (Option β) :=
  if session.phase.isActive then
    match session.stop now with
    | .ok stopped => (stopped, stopped.verdict outcome)
    | .error error => (session, .error error)
  else (session, session.verdict outcome)

/-- Runs a block between `start` and `stop`. The block takes the session along, and yields its
outcome and the sample at which it ended. Whatever it does, the session is stopped before its
outcome is reported. -/
def profile {β : Type} (session : Session α) (now : α)
    (block : Session α → Session α × Except String β × α) :
    Session α × Except Error (Option β) :=
  match session.start now with
  | .error error => (session, .error error)
  | .ok started =>
    let (left, outcome, later) := block started
    left.conclude later outcome

/-! ## Looking up contexts -/

def threads (session : Session α) : List (Handle × Context α) := session.contexts.traced

def thread (session : Session α) (handle : Handle) : Except Error (Context α) :=
  match session.contexts.get? handle with
  | some context => .ok context
  | none => .error .alreadyFreed

def findThread (session : Session α) (thread fiber : UInt64) : Option Handle :=
  session.contexts.find? ⟨thread, fiber⟩

end Session

end CallLedger
