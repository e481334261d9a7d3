import CallLedger.Data.Basic
import CallLedger.Decimal.Literal
import CallLedger.Json.Strings

/-!
# Reading JSON

A strict reader: one value, with blanks around it and nothing else. Numbers in the range of 64
bits that are written without point and exponent are whole; other numbers are real, `-0` among
them, and `unreadable` beyond all doubles. A string with an unpaired surrogate is `unreadable`
too.

The readers of values and of what stands in brackets call each other, and each call but for the
first takes a character or more from the text, so the length of the text bounds their depth.
-/

namespace CallLedger.Json

/-- In JSON null holds nothing, and names are texts. -/
def dialect : Dialect := ⟨Data.isNull, false⟩

def isSpace (c : Char) : Bool := c = ' ' || c = '\t' || c = '\n' || c = '\r'

def skipSpace (text : List Char) : List Char := text.dropWhile isSpace

def digitValue (c : Char) : Nat := c.toNat - '0'.toNat

/-- The digits a text starts with. -/
def takeDigits (text : List Char) : List Nat × List Char :=
  ((text.takeWhile Char.isDigit).map digitValue, text.dropWhile Char.isDigit)

/-- Reads the digits before the point: a zero stands alone. -/
def readWhole (text : List Char) : Option (List Nat × List Char) :=
  match takeDigits text with
  | ([], _) => none
  | ([d], rest) => some ([d], rest)
  | (0 :: _, _) => none
  | (digits, rest) => some (digits, rest)

/-- Reads a point and the digits after it, if there is a point. -/
def readFraction : List Char → Option (Option (List Nat) × List Char)
  | '.' :: rest =>
    match takeDigits rest with
    | ([], _) => none
    | (digits, rest) => some (some digits, rest)
  | text => some (none, text)

/-- Reads the sign and the digits of an exponent. -/
def readExponentDigits (text : List Char) : Option (Int × List Char) :=
  let (negative, text) :=
    match text with
    | '+' :: rest => (false, rest)
    | '-' :: rest => (true, rest)
    | text => (false, text)
  match takeDigits text with
  | ([], _) => none
  | (digits, rest) =>
    let n : Nat := digits.foldl (fun n digit => 10 * n + digit) 0
    some (if negative then -(n : Int) else n, rest)

def readExponent : List Char → Option (Option Int × List Char)
  | 'e' :: rest | 'E' :: rest => (readExponentDigits rest).map fun (n, rest) => (some n, rest)
  | text => some (none, text)

def readLiteral (text : List Char) : Option (Decimal.Literal × List Char) := do
  let (negative, text) :=
    match text with
    | '-' :: rest => (true, rest)
    | text => (false, text)
  let (whole, text) ← readWhole text
  let (fraction, text) ← readFraction text
  let (exponent, text) ← readExponent text
  return (⟨negative, whole, fraction.getD [], exponent.getD 0,
    fraction.isSome || exponent.isSome⟩, text)

def ofLiteral (literal : Decimal.Literal) : Data :=
  let real := (literal.real?.map Data.real).getD .unreadable
  match literal.whole? with
  | some n =>
    if n < UInt64.size ∧ -Nat.pow 2 63 ≤ n ∧ ¬ (n = 0 ∧ literal.negative) then .int n else real
  | none => real

def readText (text : List Char) : Option (Data × List Char) := do
  let (pieces, rest) ← readPieces text
  let value := (assemble pieces).map fun characters => Data.text (String.ofList characters)
  return (value.getD .unreadable, rest)

mutual

def readValue : (depth : Nat) → List Char → Option (Data × List Char)
  | 0, _ => none
  | depth + 1, text =>
    match skipSpace text with
    | 'n' :: 'u' :: 'l' :: 'l' :: rest => some (.null, rest)
    | 't' :: 'r' :: 'u' :: 'e' :: rest => some (.bool true, rest)
    | 'f' :: 'a' :: 'l' :: 's' :: 'e' :: rest => some (.bool false, rest)
    | '"' :: rest => readText rest
    | '[' :: rest =>
      match skipSpace rest with
      | ']' :: rest => some (.list [], rest)
      | rest => (readItems depth rest).map fun (items, rest) => (.list items, rest)
    | '{' :: rest =>
      match skipSpace rest with
      | '}' :: rest => some (.record [], rest)
      | rest => (readEntries depth rest).map fun (entries, rest) => (.record entries, rest)
    | text => (readLiteral text).map fun (literal, rest) => (ofLiteral literal, rest)

def readItems : (depth : Nat) → List Char → Option (List Data × List Char)
  | 0, _ => none
  | depth + 1, text => do
    let (item, rest) ← readValue depth text
    match skipSpace rest with
    | ',' :: rest =>
      let (items, rest) ← readItems depth rest
      return (item :: items, rest)
    | ']' :: rest => return ([item], rest)
    | _ => none

def readEntries : (depth : Nat) → List Char → Option (List (Data × Data) × List Char)
  | 0, _ => none
  | depth + 1, text => do
    match skipSpace text with
    | '"' :: rest =>
      let (key, rest) ← readText rest
      match skipSpace rest with
      | ':' :: rest =>
        let (value, rest) ← readValue depth rest
        match skipSpace rest with
        | ',' :: rest =>
          let (entries, rest) ← readEntries depth rest
          return ((key, value) :: entries, rest)
        | '}' :: rest => return ([(key, value)], rest)
        | _ => none
      | _ => none
    | _ => none

end

/-- The value that a text holds, if it holds one value and nothing else. -/
def read? (text : List Char) : Option Data := do
  let (value, rest) ← readValue (2 * text.length + 1) text
  if (skipSpace rest).isEmpty then some value else none

end CallLedger.Json
