/-!
# Errors

What can go wrong when a session is configured, driven, dumped or loaded, by cause; `message`
words each cause. There is no error for a return on an empty stack, which is expected.
-/

namespace CallLedger

inductive ControlOperation where
  | changeMeasureMode
  | excludeMethods
  | changeThreadFilter
  | start
  | pause
  | resume
  | stop
  | mergeFibers
deriving DecidableEq

inductive ConfigError where
  /-- The stacks would have no room. -/
  | noStackCapacity
  | unknownMeasureMode (text : String)
  /-- A thread filter that neither includes nor excludes. -/
  | filterExpression (expression : String)
  | threadId (piece : String)
  /-- A configuration file that does not follow its grammar, or names and values in it that
  no configuration has. -/
  | malformed
deriving DecidableEq

inductive DumpError where
  /-- Text or bytes that hold no dump. -/
  | malformed
  | version (found : UInt32)
  /-- A node names a method that is not listed. -/
  | unknownMethod (node method : Nat)
  /-- A node names a parent that does not come before it. -/
  | parentOrder (node parent : Nat)
deriving DecidableEq

inductive Error where
  /-- The session is in a state that forbids the operation. -/
  | illegalState (operation : ControlOperation) (state : String)
  /-- A handle to a context that has been released. -/
  | alreadyFreed
  | config (cause : ConfigError)
  | dump (cause : DumpError)
  /-- A profiled block failed. -/
  | profiled (reason : String)
  | file
deriving DecidableEq

/-- The version of the dump format. -/
def dumpVersion : UInt32 := 1

def ControlOperation.name : ControlOperation → String
  | changeMeasureMode => "change measurement mode"
  | excludeMethods => "exclude methods"
  | changeThreadFilter => "change thread filter"
  | start => "start"
  | pause => "pause"
  | resume => "resume"
  | stop => "stop"
  | mergeFibers => "merge fibers"

def ConfigError.message : ConfigError → String
  | noStackCapacity => "initial_stack_capacity must be at least 1"
  | unknownMeasureMode text => "unknown measure mode: " ++ text
  | filterExpression expression =>
    "Invalid thread filter expression: " ++ expression ++
      ". Expected include=IDS or exclude=IDS"
  | threadId piece => "Invalid thread id: " ++ piece
  | malformed => "malformed configuration"

def DumpError.message : DumpError → String
  | malformed => "malformed dump"
  | version found =>
    "dump version mismatch: expected " ++ toString dumpVersion ++ ", found " ++ toString found
  | unknownMethod node method =>
    "node " ++ toString node ++ " refers to unknown method " ++ toString method
  | parentOrder node parent =>
    "node " ++ toString node ++ " lists parent " ++ toString parent ++ " out of pre-order"

def Error.message : Error → String
  | illegalState operation state => "cannot " ++ operation.name ++ " while " ++ state
  | alreadyFreed => "thread context has already been freed"
  | config cause => "Invalid configuration: " ++ cause.message
  | dump cause => "Serialization error: " ++ cause.message
  | profiled reason => "profiled block failed: " ++ reason
  | file => "IO error"

end CallLedger
