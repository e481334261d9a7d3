import CallLedger.Toml.Table
import CallLedger.Toml.Text

/-!
# Reading TOML

Reads the documents that configurations are written in. Numbers have to be whole; fractions,
dates and times are part of TOML, but no configuration has a place for them, and they are
refused here already. Whole numbers have 64 bits with a sign.

The readers of values and of what stands in brackets call each other, and each call but for the
first takes a character or more from the text, so the length of the text bounds their depth.
-/

namespace CallLedger.Toml

/-! ## Numbers -/

/-- Reads digits, between two of which an underscore may stand. -/
def readDigits (isDigit : Char → Bool) : List Char → Option (List Char × List Char)
  | [] => none
  | c :: '_' :: rest =>
    if isDigit c then
      (readDigits isDigit rest).map fun (digits, rest) => (c :: digits, rest)
    else none
  | c :: rest =>
    if isDigit c then
      match readDigits isDigit rest with
      | some (digits, rest) => some (c :: digits, rest)
      | none => some ([c], rest)
    else none

def ofDigits (base : Nat) (digits : List Char) : Nat :=
  digits.foldl (fun n c => base * n + (Text.hexValue? c).getD 0) 0

def whole? (n : Int) : Option Data :=
  if -Nat.pow 2 63 ≤ n ∧ n < Nat.pow 2 63 then some (.int n) else none

def readInBase (base : Nat) (text : List Char) : Option (Data × List Char) := do
  let isDigit (c : Char) : Bool := (Text.hexValue? c).any (· < base)
  let (digits, rest) ← readDigits isDigit text
  return (← whole? (ofDigits base digits), rest)

/-- Reads a decimal number without sign. A zero in front of other digits is refused. -/
def readDecimal (text : List Char) : Option (Nat × List Char) := do
  let (digits, rest) ← readDigits Char.isDigit text
  match digits with
  | '0' :: _ :: _ => none
  | digits => return (ofDigits 10 digits, rest)

def readNumber : List Char → Option (Data × List Char)
  | '0' :: 'x' :: rest => readInBase 16 rest
  | '0' :: 'o' :: rest => readInBase 8 rest
  | '0' :: 'b' :: rest => readInBase 2 rest
  | '-' :: rest => do
    let (n, rest) ← readDecimal rest
    return (← whole? (-n), rest)
  | '+' :: rest => do
    let (n, rest) ← readDecimal rest
    return (← whole? n, rest)
  | text => do
    let (n, rest) ← readDecimal text
    return (← whole? n, rest)

/-! ## Values -/

mutual

def readValue : (depth : Nat) → List Char → Option (Data × List Char)
  | 0, _ => none
  | depth + 1, text =>
    match text with
    | 't' :: 'r' :: 'u' :: 'e' :: rest => some (.bool true, rest)
    | 'f' :: 'a' :: 'l' :: 's' :: 'e' :: rest => some (.bool false, rest)
    | '[' :: rest => (readItems depth rest).map fun (items, rest) => (.list items, rest)
    | '\x7b' :: rest =>
      match skipBlanks rest with
      | '\x7d' :: rest => some (.record [], rest)
      | rest => (readInline depth [] rest).map fun (table, rest) => (table.toData, rest)
    | '"' :: _ | '\'' :: _ =>
      (readString text).map fun (string, rest) => (.text (String.ofList string), rest)
    | text => readNumber text

/-- Reads the items of a list up to its closing bracket. Line breaks and comments may stand
between them, and a comma after the last one. -/
def readItems : (depth : Nat) → List Char → Option (List Data × List Char)
  | 0, _ => none
  | depth + 1, text =>
    match skipLines (text.length + 1) text with
    | ']' :: rest => some ([], rest)
    | text => do
      let (item, rest) ← readValue depth text
      match skipLines (rest.length + 1) rest with
      | ',' :: rest =>
        let (items, rest) ← readItems depth rest
        return (item :: items, rest)
      | ']' :: rest => return ([item], rest)
      | _ => none

/-- Reads the entries of a table in braces up to its closing brace. -/
def readInline : (depth : Nat) → Table → List Char → Option (Table × List Char)
  | 0, _, _ => none
  | depth + 1, table, text => do
    let (keys, rest) ← readKeys (text.length + 1) text
    match rest with
    | '=' :: rest =>
      let (value, rest) ← readValue depth (skipBlanks rest)
      let table ← table.assign value keys
      match skipBlanks rest with
      | ',' :: rest => readInline depth table (skipBlanks rest)
      | '\x7d' :: rest => return (table, rest)
      | _ => none
    | _ => none

end

/-! ## Documents -/

/-- A document as far as it has been read, and the path of the table that is being filled. -/
structure Document where
  root : Table
  path : List String

namespace Document

/-- Reads a key and its value into the table that is being filled. -/
def readEntry (document : Document) (text : List Char) : Option (Document × List Char) := do
  let (keys, rest) ← readKeys (text.length + 1) text
  match rest with
  | '=' :: rest =>
    let rest := skipBlanks rest
    let (value, rest) ← readValue (2 * rest.length + 1) rest
    let root ← Table.within (·.assign value keys) document.path document.root
    return ({ document with root := root }, rest)
  | _ => none

/-- Turns to the table of a header. -/
def turnTo (document : Document) (make : String → Table → Option Table) (path : List String) :
    Option Document := do
  let key ← path.getLast?
  let root ← Table.within (make key) path.dropLast document.root
  return ⟨root, path⟩

def readHeader (document : Document) (make : String → Table → Option Table)
    (closing text : List Char) : Option (Document × List Char) := do
  let (path, rest) ← readKeys (text.length + 1) (skipBlanks text)
  if closing.isPrefixOf rest then
    return (← document.turnTo make path, rest.drop closing.length)
  else none

/-- Reads what stands on a line: nothing, a header or an entry. -/
def readLine (document : Document) (text : List Char) : Option (Document × List Char) :=
  match skipBlanks text with
  | '[' :: '[' :: rest => document.readHeader Table.addTable [']', ']'] rest
  | '[' :: rest => document.readHeader Table.openTable [']'] rest
  | [] => some (document, [])
  | '\n' :: rest => some (document, '\n' :: rest)
  | '\r' :: rest => some (document, '\r' :: rest)
  | '#' :: rest => some (document, '#' :: rest)
  | text => document.readEntry text

/-- Reads line after line, at most so many. -/
def readLines : (most : Nat) → Document → List Char → Option Document
  | 0, document, _ => some document
  | _ + 1, document, [] => some document
  | most + 1, document, text => do
    let (document, rest) ← document.readLine text
    readLines most document (← nextLine rest)

end Document

/-- The record that a document holds. A byte order mark at its start is skipped. -/
def read? (text : List Char) : Option Data := do
  let text := if text.head? = some '\ufeff' then text.drop 1 else text
  let document ← Document.readLines (text.length + 1) ⟨[], []⟩ text
  return document.root.toData

end CallLedger.Toml
