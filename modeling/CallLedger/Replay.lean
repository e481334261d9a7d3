import CallLedger.CommandLine
import CallLedger.Config.File
import CallLedger.Event.Codec
import CallLedger.Session.Searching
import CallLedger.ThreadFilter.Expression

/-!
# Replaying recorded events

A recorded stream holds one event on each line; blank lines are counted and skipped. The session
starts and stops with the first and the last event, so nothing is charged to the time before and
after, and an empty stream makes a run of no length at zero. The first fault ends the replay.

Files are given by what they hold: reading one that is not there yields nothing.

A call can set off a search that has no end, and then the replay has none either. The program runs
`Searching.replay`; `Replay.run` says what that comes to.
-/

namespace CallLedger

/-- Why a replay yields no dump. -/
inductive ReplayFailure where
  | config (path : String)
  | session (error : Error)
  /-- A method to exclude that is not written as owner and member. -/
  | method (text : String)
  /-- The file of events cannot be opened. -/
  | events (path : String)
  /-- A line that is not UTF-8. -/
  | encoding
  | event (line : Nat)
  | output (path : String)
deriving DecidableEq

def ReplayFailure.message : ReplayFailure → String
  | config path => "Failed to load config " ++ path
  | session error => error.message
  | method text => "Invalid method: " ++ text ++ " (expected OWNER#MEMBER)"
  | events path => "Failed to open events " ++ path
  | encoding => "stream did not contain valid UTF-8"
  | event line => "Invalid event on line " ++ toString line
  | output path => "Failed to write dump " ++ path

namespace Replay

/-- What files hold. -/
abbrev Files := String → Option (List UInt8)

def inSession {β : Type} : Except Error β → Except ReplayFailure β :=
  Except.mapError .session

/-- The method that is written as owner and member, with the last number sign between them. -/
def method? (text : String) : Option Method :=
  let backwards := text.toList.reverse
  let member := (backwards.takeWhile (· ≠ '#')).reverse
  match backwards.dropWhile (· ≠ '#') with
  | [] => none
  | _ :: owner =>
    if owner.isEmpty || member.isEmpty then none
    else some ⟨⟨.plain, String.ofList owner.reverse⟩, String.ofList member⟩

def fileConfig (options : ReplayOptions) (files : Files) : Except ReplayFailure Config :=
  match options.config with
  | none => .ok .default
  | some path =>
    match (files path).bind Text.ofUtf8? with
    | none => .error (.config path)
    | some text => (Config.ofToml text).mapError fun _ => .config path

/-- The configuration with what the options say in addition. -/
def adjusted (options : ReplayOptions) (config : Config) : Config :=
  { config with
    measureMode := options.measureMode.getD config.measureMode
    trackAllocations := config.trackAllocations || options.trackAllocations
    mergeFibers := config.mergeFibers || options.mergeFibers }

/-- Replaces the thread filter by the one on the command line. -/
def withFilter (options : ReplayOptions) (session : Session Binary64) :
    Except ReplayFailure (Session Binary64) :=
  match options.threads with
  | none => .ok session
  | some expression => inSession do
    let filter ← (ThreadFilter.ofExpression expression).mapError .config
    session.setThreadFilter filter

def exclude (session : Session Binary64) (text : String) :
    Except ReplayFailure (Session Binary64) :=
  match method? text with
  | none => .error (.method text)
  | some method => inSession (session.excludeMethod method)

def setUp (options : ReplayOptions) (files : Files) :
    Except ReplayFailure (Session Binary64) := do
  let config ← fileConfig options files
  let session ← inSession (Session.ofConfig (adjusted options config))
  let session ← withFilter options session
  options.exclude.foldlM exclude session

/-- How far a replay has come. -/
structure Progress where
  session : Session Binary64
  /-- The sample of the latest event. -/
  latest : Option Binary64
  count : Nat

/-- The lines of a file. A carriage return at the end of a line is a blank of the line. -/
def lines (bytes : List UInt8) : List (List UInt8) :=
  let pieces := Text.pieces 0x0a bytes
  if pieces.getLast? = some [] then pieces.dropLast else pieces

/-- Takes in the line with the given number. -/
def step (progress : Progress) (line : List UInt8 × Nat) : Except ReplayFailure Progress :=
  match Text.ofUtf8? line.1 with
  | none => .error .encoding
  | some text =>
    if text.toList.all Text.isBlank then .ok progress
    else match Event.ofJson? text with
      | none => .error (.event line.2)
      | some event => do
        let session ←
          if progress.latest.isNone then inSession (progress.session.start event.sample)
          else .ok progress.session
        return ⟨session.handle event, some event.sample, progress.count + 1⟩

/-- Ends the run with the latest event. -/
def finish (progress : Progress) : Except ReplayFailure (Session Binary64) :=
  inSession <| match progress.latest with
    | some sample => progress.session.stop sample
    | none => do (← progress.session.start 0).stop 0

/-- Replays a file of events; yields their number and the dump of the session. -/
def run (options : ReplayOptions) (files : Files) : Except ReplayFailure (Nat × Dump Binary64) := do
  let session ← setUp options files
  match files options.events with
  | none => .error (.events options.events)
  | some bytes =>
    let progress ← ((lines bytes).zipIdx 1).foldlM step ⟨session, none, 0⟩
    let session ← finish progress
    return (progress.count, session.dump)

/-- What is reported after the dump has gone to a file. -/
def summary (count : Nat) (dump : Dump Binary64) (path : String) : String :=
  programName ++ ": " ++ toString count ++ " events, " ++ toString dump.contexts.length ++
    " contexts -> " ++ path

end Replay

namespace Searching

open Replay

def step (progress : Progress) (line : List UInt8 × Nat) : ExceptT ReplayFailure Option Progress :=
  match Text.ofUtf8? line.1 with
  | none => throw .encoding
  | some text =>
    if text.toList.all Text.isBlank then return progress
    else match Event.ofJson? text with
      | none => throw (.event line.2)
      | some event =>
        let started :=
          if progress.latest.isNone then inSession (progress.session.start event.sample)
          else .ok progress.session
        match started with
        | .error failure => throw failure
        | .ok session => .mk do
          return .ok ⟨← handle session event, some event.sample, progress.count + 1⟩

def finish (progress : Progress) : ExceptT ReplayFailure Option (Session Binary64) :=
  match progress.latest with
  | some sample => .mk do return inSession (← stop progress.session sample)
  | none =>
    match progress.session.start 0 with
    | .error error => throw (.session error)
    | .ok session => .mk do return inSession (← stop session 0)

/-- Replays a file of events, search by search. -/
def replay (options : ReplayOptions) (files : Files) :
    ExceptT ReplayFailure Option (Nat × Dump Binary64) :=
  match setUp options files with
  | .error failure => throw failure
  | .ok session =>
    match files options.events with
    | none => throw (.events options.events)
    | some bytes => do
      let progress ← ((lines bytes).zipIdx 1).foldlM step ⟨session, none, 0⟩
      let session ← finish progress
      return (progress.count, session.dump)

end Searching

def versionText : String := programName ++ " " ++ programVersion ++ "\n"

end CallLedger
