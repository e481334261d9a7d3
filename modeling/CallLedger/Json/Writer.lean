import CallLedger.Data.Basic
import CallLedger.Decimal.Shortest
import CallLedger.Json.Strings

/-!
# Writing JSON

Two layouts of one text: `compact` has no blanks, `pretty` puts every item and every entry on a
line of its own, indented by two blanks for each level, and leaves empty brackets closed. Reals
that are no numbers have no form in JSON and are written `null`.
-/

namespace CallLedger.Json

/-- A value that is neither list nor record. -/
def leaf : Data → List Char
  | .bool true => "true".toList
  | .bool false => "false".toList
  | .int n => Decimal.ofInt n
  | .real x => if x.isFinite then Decimal.ofReal x else "null".toList
  | .text text => quoted text.toList
  | _ => "null".toList

mutual

def compact : Data → List Char
  | .list items => '[' :: compactItems items
  | .record entries => '{' :: compactEntries entries
  | data => leaf data

def compactItems : List Data → List Char
  | [] => [']']
  | [item] => compact item ++ [']']
  | item :: rest => compact item ++ ',' :: compactItems rest

def compactEntries : List (Data × Data) → List Char
  | [] => ['}']
  | [(key, value)] => leaf key ++ ':' :: compact value ++ ['}']
  | (key, value) :: rest => leaf key ++ ':' :: compact value ++ ',' :: compactEntries rest

end

/-- The start of a line at a level of indentation. -/
def newLine (level : Nat) : List Char := '\n' :: List.replicate (2 * level) ' '

mutual

def prettyAt (level : Nat) : Data → List Char
  | .list [] => ['[', ']']
  | .list items => '[' :: newLine (level + 1) ++ prettyItems level items
  | .record [] => ['{', '}']
  | .record entries => '{' :: newLine (level + 1) ++ prettyEntries level entries
  | data => leaf data

def prettyItems (level : Nat) : List Data → List Char
  | [] => newLine level ++ [']']
  | [item] => prettyAt (level + 1) item ++ newLine level ++ [']']
  | item :: rest =>
    prettyAt (level + 1) item ++ ',' :: newLine (level + 1) ++ prettyItems level rest

def prettyEntries (level : Nat) : List (Data × Data) → List Char
  | [] => newLine level ++ ['}']
  | [(key, value)] =>
    leaf key ++ ':' :: ' ' :: prettyAt (level + 1) value ++ newLine level ++ ['}']
  | (key, value) :: rest =>
    leaf key ++ ':' :: ' ' :: prettyAt (level + 1) value ++ ',' :: newLine (level + 1) ++
      prettyEntries level rest

end

def pretty (data : Data) : List Char := prettyAt 0 data

end CallLedger.Json
