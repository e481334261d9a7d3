import CallLedger.Error
import CallLedger.Text.Blank
import CallLedger.Text.Pieces
import CallLedger.ThreadFilter

/-!
# Thread filter expressions

A filter may be written as `include=1,2` or `exclude=3`. The list is cut at its commas and the
pieces are trimmed; empty ones are skipped, and every other one has to be a thread id: decimal
digits below `2 ^ 64`, after a plus sign if one likes. The first piece that is none is the
fault that is reported.
-/

namespace CallLedger

def decimalDigit? (c : Char) : Option Nat :=
  if c.isDigit then some (c.toNat - '0'.toNat) else none

/-- The number that a text of decimal digits writes; there must be one at least. -/
def decimal? (digits : List Char) : Option Nat :=
  if digits.isEmpty then none
  else digits.foldlM (fun n c => (decimalDigit? c).map (10 * n + ·)) 0

namespace ThreadFilter

/-- The thread id that a piece writes. -/
def threadId? (piece : List Char) : Option UInt64 := do
  let n ← decimal? (match piece with | '+' :: digits => digits | digits => digits)
  if n < UInt64.size then some n.toUInt64 else none

/-- The pieces of a list of threads that say something. -/
def listed (text : List Char) : List (List Char) :=
  ((Text.pieces ',' text).map Text.trim).filter fun piece => !piece.isEmpty

def threadIds (text : List Char) : Except ConfigError (List UInt64) :=
  (listed text).mapM fun piece =>
    match threadId? piece with
    | some id => .ok id
    | none => .error (.threadId (String.ofList piece))

def includeWord : List Char := "include=".toList

def excludeWord : List Char := "exclude=".toList

def ofExpression (expression : String) : Except ConfigError ThreadFilter :=
  let text := expression.toList
  if includeWord.isPrefixOf text then
    (threadIds (text.drop includeWord.length)).map fun ids => ⟨some ids, none⟩
  else if excludeWord.isPrefixOf text then
    (threadIds (text.drop excludeWord.length)).map fun ids => ⟨none, some ids⟩
  else .error (.filterExpression expression)

end ThreadFilter

end CallLedger
