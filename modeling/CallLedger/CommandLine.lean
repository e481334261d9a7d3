import CallLedger.Dump.Format

/-!
# The command line

    [--debug] replay EVENTS [options]

The value of an option follows as the next argument, or is attached: `--output=FILE`, `-oFILE` or
`-o=FILE`. As the next argument it must not look like an option itself, though it may be a single
dash. After `--` every argument is an operand. Every option may be given once, but for `--exclude`,
which adds up; `--debug` may be given before the command and after it.

Arguments are read from left to right, and the first one that is wrong, or that asks for help or
for the version, decides.
-/

namespace CallLedger

/-- Why a command line starts no replay. -/
inductive Refusal where
  | usage
  | help
  | version
deriving DecidableEq

/-- What to replay, and how. -/
structure ReplayOptions where
  debug : Bool
  events : String
  config : Option String
  output : Option String
  format : DumpFormat
  measureMode : Option MeasureMode
  threads : Option String
  exclude : List String
  trackAllocations : Bool
  mergeFibers : Bool
deriving DecidableEq

namespace CommandLine

/-- An option of the replay command, which may take a value. -/
inductive OptionName where
  | config
  | output
  | format
  | measureMode
  | threads
  | exclude
  | trackAllocations
  | mergeFibers
  | debug
  | help
deriving DecidableEq

namespace OptionName

def longNames : List (String × OptionName) :=
  [("config", config), ("output", output), ("format", format), ("measure-mode", measureMode),
    ("threads", threads), ("exclude", exclude), ("track-allocations", trackAllocations),
    ("merge-fibers", mergeFibers), ("debug", debug), ("help", help)]

def letters : List (Char × OptionName) :=
  [('c', config), ('o', output), ('m', measureMode), ('t', threads), ('x', exclude), ('h', help)]

def takesValue : OptionName → Bool
  | config | output | format | measureMode | threads | exclude => true
  | trackAllocations | mergeFibers | debug | help => false

/-- Whether an option may be given more than once. -/
def addsUp (name : OptionName) : Bool := name = exclude

end OptionName

/-- The options as far as they have been read. -/
structure Draft where
  options : ReplayOptions
  hasEvents : Bool
  given : List OptionName
  /-- The option whose value comes next. -/
  pending : Option OptionName
  /-- Everything that follows is an operand. -/
  operandsOnly : Bool

namespace Draft

def start (debug : Bool) : Draft where
  options := ⟨debug, "", none, none, .json, none, none, [], false, false⟩
  hasEvents := false
  given := []
  pending := none
  operandsOnly := false

def note (draft : Draft) (name : OptionName) : Except Refusal Draft :=
  if draft.given.contains name && !name.addsUp then .error .usage
  else .ok { draft with given := name :: draft.given, pending := none }

/-- The path in a value, which must not be empty. -/
def path (value : String) : Except Refusal String :=
  if value.isEmpty then .error .usage else .ok value

/-- One of several named values. -/
def choice {β : Type} (named : List (String × β)) (value : String) : Except Refusal β :=
  match named.lookup value with
  | some choice => .ok choice
  | none => .error .usage

def setValue (options : ReplayOptions) (name : OptionName) (value : String) :
    Except Refusal ReplayOptions :=
  match name with
  | .config => do return { options with config := some (← path value) }
  | .output => do return { options with output := some (← path value) }
  | .format => do
    let formats := DumpFormat.all.map fun format => (format.name, format)
    return { options with format := ← choice formats value }
  | .measureMode => do
    let modes := MeasureMode.all.map fun mode => (mode.optionName, mode)
    return { options with measureMode := some (← choice modes value) }
  | .threads => .ok { options with threads := some value }
  | .exclude => .ok { options with exclude := options.exclude ++ [value] }
  | .trackAllocations | .mergeFibers | .debug | .help => .error .usage

def withValue (draft : Draft) (name : OptionName) (value : String) : Except Refusal Draft := do
  let draft ← draft.note name
  return { draft with options := ← setValue draft.options name value }

/-- Takes an option that has no value. -/
def withFlag (draft : Draft) (name : OptionName) : Except Refusal Draft := do
  let draft ← draft.note name
  match name with
  | .trackAllocations => return { draft with options.trackAllocations := true }
  | .mergeFibers => return { draft with options.mergeFibers := true }
  | .debug => return { draft with options.debug := true }
  | .help => .error .help
  | _ => .error .usage

/-- Takes an option with the value attached to it, if one is. -/
def withOption (draft : Draft) (name : OptionName) (attached : Option String) :
    Except Refusal Draft :=
  match name.takesValue, attached with
  | true, some value => draft.withValue name value
  | true, none => .ok { draft with pending := some name }
  | false, none => draft.withFlag name
  | false, some _ => .error .usage

/-- Takes the operand. There is one. -/
def withOperand (draft : Draft) (value : String) : Except Refusal Draft :=
  if draft.hasEvents || value.isEmpty then .error .usage
  else .ok { draft with options.events := value, hasEvents := true }

/-- Takes an option after two dashes, with what stands after an equals sign as its value. -/
def readLong (draft : Draft) (text : List Char) : Except Refusal Draft :=
  let name := String.ofList (text.takeWhile (· ≠ '='))
  let attached :=
    match text.dropWhile (· ≠ '=') with
    | _ :: value => some (String.ofList value)
    | [] => none
  match OptionName.longNames.lookup name with
  | some name => draft.withOption name attached
  | none => .error .usage

/-- Takes an option after one dash. What follows the letter of an option that has a value is its
value; after a letter that has none, nothing else is looked at. -/
def readShort (draft : Draft) (letter : Char) (text : List Char) : Except Refusal Draft :=
  match OptionName.letters.lookup letter with
  | none => .error .usage
  | some name =>
    if name.takesValue then
      match text with
      | [] => draft.withOption name none
      | '=' :: value => draft.withOption name (some (String.ofList value))
      | value => draft.withOption name (some (String.ofList value))
    else draft.withOption name none

def read (draft : Draft) (argument : String) : Except Refusal Draft :=
  if draft.operandsOnly then draft.withOperand argument
  else match draft.pending, argument.toList with
    | some _, '-' :: _ :: _ => .error .usage
    | some name, _ => draft.withValue name argument
    | none, ['-', '-'] => .ok { draft with operandsOnly := true }
    | none, '-' :: '-' :: text => draft.readLong text
    | none, '-' :: letter :: text => draft.readShort letter text
    | none, _ => draft.withOperand argument

/-- The options, if none lacks its value and the operand is there. -/
def finish (draft : Draft) : Except Refusal ReplayOptions :=
  if draft.pending.isSome || !draft.hasEvents then .error .usage else .ok draft.options

end Draft

def readReplay (debug : Bool) (arguments : List String) : Except Refusal ReplayOptions := do
  (← arguments.foldlM Draft.read (.start debug)).finish

def readHelp : List String → Refusal
  | [] => .help
  | ["replay"] => .help
  | "help" :: rest => readHelp rest
  | _ => .usage

/-- Reads the arguments from the start, given whether `--debug` has been among them. -/
def readFrom (debug : Bool) : List String → Except Refusal ReplayOptions
  | [] => .error .usage
  | argument :: rest =>
    match argument with
    | "replay" => readReplay debug rest
    | "help" => .error (readHelp rest)
    | "--debug" => if debug then .error .usage else readFrom true rest
    | "--help" => .error .help
    | "--version" => .error .version
    | argument =>
      match argument.toList with
      | '-' :: 'h' :: _ => .error .help
      | '-' :: 'V' :: _ => .error .version
      | _ => .error .usage

def read (arguments : List String) : Except Refusal ReplayOptions := readFrom false arguments

end CommandLine

end CallLedger
