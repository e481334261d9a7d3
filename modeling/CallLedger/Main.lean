import CallLedger.Replay

/-!
# The program

Reads the files that the command line names, replays them, and writes what comes out. The exit
code is 0 for success, 1 for a replay that failed and 2 for a command line that is wrong. A replay
without an end is not ended by the program either.
-/

namespace CallLedger

def usageText : String :=
  "Usage: " ++ programName ++
    " [--debug] replay EVENTS [-c FILE] [-o FILE] [--format json|msgpack]\n" ++
    "         [-m MODE] [-t EXPR] [-x OWNER#MEMBER]... [--track-allocations] [--merge-fibers]\n"

def contentsOf (path : String) : IO (Option (List UInt8)) := do
  try
    let bytes ← IO.FS.readBinFile path
    return some bytes.data.toList
  catch _ => return none

/-- Writes bytes to a file, and tells whether that went well. -/
def writeTo (path : String) (bytes : List UInt8) : IO Bool := do
  try
    IO.FS.writeBinFile path ⟨bytes.toArray⟩
    return true
  catch _ => return false

def filesOf (options : ReplayOptions) : IO Replay.Files := do
  let paths := options.events :: options.config.toList
  let contents ← paths.mapM fun path => return (path, ← contentsOf path)
  return fun path => (contents.lookup path).join

def fail (failure : ReplayFailure) : IO UInt32 := do
  IO.eprintln ("Error: " ++ failure.message)
  return 1

/-- Goes on for ever, as the search does that it stands for. -/
def goOn : IO UInt32 := do
  repeat IO.sleep 1000
  return 1

def replay (options : ReplayOptions) : IO UInt32 := do
  match (Searching.replay options (← filesOf options)).run with
  | none => goOn
  | some (.error failure) => fail failure
  | some (.ok (count, dump)) =>
    let bytes := dump.encode options.format
    match options.output with
    | none =>
      (← IO.getStdout).write ⟨bytes.toArray⟩
      return 0
    | some path =>
      if ← writeTo path bytes then
        IO.eprintln (Replay.summary count dump path)
        return 0
      else fail (.output path)

end CallLedger

open CallLedger in
def main (arguments : List String) : IO UInt32 := do
  match CommandLine.read arguments with
  | .ok options => replay options
  | .error .version =>
    IO.print versionText
    return 0
  | .error .help =>
    IO.print usageText
    return 0
  | .error .usage =>
    IO.eprint usageText
    return 2
