import CallLedger.Text.Hex

/-!
# Characters, keys and strings of TOML

The four kinds of strings: basic ones with escapes, literal ones without, each on one line or
between three quotes over several. A string over several lines may hold quotes, even two at its
very end, and starts after the line break that follows its opening quotes; in a basic one, a
backslash at the end of a line hides all blanks up to the next text.

The readers here get what follows the opening quotes, and leave what follows the closing ones.
-/

namespace CallLedger.Toml

def isBlank (c : Char) : Bool := c = ' ' || c = '\t'

/-- Control characters other than the tab have no place in comments and strings. -/
def isPrintable (c : Char) : Bool := c = '\t' || (' ' ≤ c && c ≠ '\x7f')

def skipBlanks (text : List Char) : List Char := text.dropWhile isBlank

/-- Whether a text starts with a blank or a line break. -/
def startsBlank : List Char → Bool
  | '\r' :: '\n' :: _ => true
  | c :: _ => isBlank c || c = '\n'
  | [] => false

/-- Whether only blanks stand before the end of the line, and the text goes on after it. -/
def endsLine (text : List Char) : Bool :=
  match skipBlanks text with
  | '\n' :: _ | '\r' :: '\n' :: _ => true
  | _ => false

/-- The character that a backslash and a letter stand for. -/
def unescaped? : Char → Option Char
  | '"' => some '"'
  | '\\' => some '\\'
  | 'b' => some '\x08'
  | 'f' => some '\x0c'
  | 'n' => some '\n'
  | 'r' => some '\r'
  | 't' => some '\t'
  | _ => none

/-- The character with a number, unless the number is a surrogate or beyond all characters. -/
def scalar? (n : Nat) : Option Char := if n.isValidChar then some (Char.ofNat n) else none

/-- Where the reader of a basic string stands. -/
inductive Mode where
  | plain
  /-- Among blanks that a backslash at the end of a line hides. -/
  | hidden
  | escape
  /-- Before so many more digits of the number of a character. -/
  | number (digits value : Nat)

/-- Reads a basic string, over several lines or on one. -/
def readBasic (multiline : Bool) : Mode → List Char → Option (List Char × List Char)
  | _, [] => none
  | .number digits value, c :: rest => do
    let digit ← Text.hexValue? c
    let value := 16 * value + digit
    if digits = 1 then
      let c ← scalar? value
      let (text, rest) ← readBasic multiline .plain rest
      return (c :: text, rest)
    else readBasic multiline (.number (digits - 1) value) rest
  | .escape, c :: rest =>
    if c = 'u' then readBasic multiline (.number 4 0) rest
    else if c = 'U' then readBasic multiline (.number 8 0) rest
    else do
      let c ← unescaped? c
      let (text, rest) ← readBasic multiline .plain rest
      return (c :: text, rest)
  | .hidden, _ :: rest =>
    readBasic multiline (if startsBlank rest then .hidden else .plain) rest
  | .plain, c :: rest =>
    if c = '"' then
      if multiline then
        match rest with
        | '"' :: '"' :: '"' :: '"' :: rest => some (['"', '"'], rest)
        | '"' :: '"' :: '"' :: rest => some (['"'], rest)
        | '"' :: '"' :: rest => some ([], rest)
        | rest => (readBasic multiline .plain rest).map fun (text, rest) => (c :: text, rest)
      else some ([], rest)
    else if c = '\\' then
      if multiline && endsLine rest then readBasic multiline .hidden rest
      else readBasic multiline .escape rest
    else if c = '\r' && multiline && rest.head? = some '\n' then
      readBasic multiline .plain rest
    else if isPrintable c || (c = '\n' && multiline) then
      (readBasic multiline .plain rest).map fun (text, rest) => (c :: text, rest)
    else none

def readRaw (multiline : Bool) : List Char → Option (List Char × List Char)
  | [] => none
  | c :: rest =>
    if c = '\'' then
      if multiline then
        match rest with
        | '\'' :: '\'' :: '\'' :: '\'' :: rest => some (['\'', '\''], rest)
        | '\'' :: '\'' :: '\'' :: rest => some (['\''], rest)
        | '\'' :: '\'' :: rest => some ([], rest)
        | rest => (readRaw multiline rest).map fun (text, rest) => (c :: text, rest)
      else some ([], rest)
    else if c = '\r' && multiline && rest.head? = some '\n' then readRaw multiline rest
    else if isPrintable c || (c = '\n' && multiline) then
      (readRaw multiline rest).map fun (text, rest) => (c :: text, rest)
    else none

/-- The text without a line break at its start. -/
def skipBreak : List Char → List Char
  | '\n' :: rest => rest
  | '\r' :: '\n' :: rest => rest
  | text => text

def readString : List Char → Option (List Char × List Char)
  | '"' :: '"' :: '"' :: rest => readBasic true .plain (skipBreak rest)
  | '"' :: rest => readBasic false .plain rest
  | '\'' :: '\'' :: '\'' :: rest => readRaw true (skipBreak rest)
  | '\'' :: rest => readRaw false rest
  | _ => none

/-! ## Keys -/

def isBare (c : Char) : Bool := c.isAlphanum || c = '_' || c = '-'

def readKey : List Char → Option (String × List Char)
  | '"' :: rest => (readBasic false .plain rest).map fun (key, rest) => (String.ofList key, rest)
  | '\'' :: rest => (readRaw false rest).map fun (key, rest) => (String.ofList key, rest)
  | text =>
    match text.takeWhile isBare with
    | [] => none
    | key => some (String.ofList key, text.dropWhile isBare)

/-- Reads keys with dots between them, at most so many. -/
def readKeys : (most : Nat) → List Char → Option (List String × List Char)
  | 0, _ => none
  | most + 1, text => do
    let (key, rest) ← readKey text
    match skipBlanks rest with
    | '.' :: rest =>
      let (keys, rest) ← readKeys most (skipBlanks rest)
      return (key :: keys, rest)
    | rest => return ([key], rest)

/-! ## Ends of lines -/

/-- The text after a comment, if it starts with one. -/
def skipComment : List Char → List Char
  | '#' :: rest => rest.dropWhile isPrintable
  | text => text

/-- The text after the end of a line, on which only blanks and a comment may stand. -/
def nextLine (text : List Char) : Option (List Char) :=
  match skipComment (skipBlanks text) with
  | [] => some []
  | '\n' :: rest => some rest
  | '\r' :: '\n' :: rest => some rest
  | _ => none

/-- The text after blanks, comments and line breaks, at most so many lines of them. -/
def skipLines : (most : Nat) → List Char → List Char
  | 0, text => text
  | most + 1, text =>
    match skipComment (skipBlanks text) with
    | '\n' :: rest => skipLines most rest
    | '\r' :: '\n' :: rest => skipLines most rest
    | rest => rest

end CallLedger.Toml
