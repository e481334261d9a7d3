import CallLedger.Text.Hex

/-!
# JSON strings

Writing escapes the quote, the backslash and the control characters below the blank, and nothing
else. Reading goes in two steps. First the string is cut into characters and UTF-16 units, the
latter written as `\u` escapes; this fails where the text is no JSON string. Then units are put
together to characters, which fails where half of a surrogate pair stands alone.
-/

namespace CallLedger.Json

/-! ## Writing -/

def escaped (c : Char) : List Char :=
  match c with
  | '"' => ['\\', '"']
  | '\\' => ['\\', '\\']
  | '\x08' => ['\\', 'b']
  | '\x0c' => ['\\', 'f']
  | '\n' => ['\\', 'n']
  | '\r' => ['\\', 'r']
  | '\t' => ['\\', 't']
  | c => if c < ' ' then '\\' :: 'u' :: Text.hexOf 4 c.toNat else [c]

def quoted (text : List Char) : List Char := '"' :: text.flatMap escaped ++ ['"']

/-! ## Reading -/

/-- A part of a string: a character, or a UTF-16 unit given by its number. -/
inductive Piece where
  | char (c : Char)
  | unit (n : Nat)
deriving DecidableEq

/-- The character that a backslash and a letter stand for. -/
def unescaped? : Char → Option Char
  | '"' => some '"'
  | '\\' => some '\\'
  | '/' => some '/'
  | 'b' => some '\x08'
  | 'f' => some '\x0c'
  | 'n' => some '\n'
  | 'r' => some '\r'
  | 't' => some '\t'
  | _ => none

/-- Reads the rest of a string after its opening quote, and leaves what follows the closing
one. -/
def readPieces : List Char → Option (List Piece × List Char)
  | [] => none
  | '"' :: rest => some ([], rest)
  | '\\' :: 'u' :: a :: b :: c :: d :: rest => do
    let n ← Text.ofHex? [a, b, c, d]
    let (pieces, rest) ← readPieces rest
    return (.unit n :: pieces, rest)
  | '\\' :: c :: rest => do
    let c ← unescaped? c
    let (pieces, rest) ← readPieces rest
    return (.char c :: pieces, rest)
  | c :: rest =>
    if c < ' ' || c = '\\' then none
    else do
      let (pieces, rest) ← readPieces rest
      return (.char c :: pieces, rest)

def isHighSurrogate (n : Nat) : Bool := 0xD800 ≤ n && n < 0xDC00

def isLowSurrogate (n : Nat) : Bool := 0xDC00 ≤ n && n < 0xE000

/-- The characters of a string, if all its surrogates come in pairs. The argument `high` is a
high surrogate that waits for its other half. -/
def assembleAfter : (high : Option Nat) → List Piece → Option (List Char)
  | none, [] => some []
  | none, .char c :: rest => (assembleAfter none rest).map (c :: ·)
  | none, .unit n :: rest =>
    if isHighSurrogate n then assembleAfter (some n) rest
    else if isLowSurrogate n then none
    else (assembleAfter none rest).map (Char.ofNat n :: ·)
  | some high, .unit low :: rest =>
    if isLowSurrogate low then
      (assembleAfter none rest).map
        (Char.ofNat (0x10000 + (high - 0xD800) * 0x400 + (low - 0xDC00)) :: ·)
    else none
  | some _, _ => none

/-- The characters of a string, if all its surrogates come in pairs. -/
def assemble (pieces : List Piece) : Option (List Char) := assembleAfter none pieces

end CallLedger.Json
