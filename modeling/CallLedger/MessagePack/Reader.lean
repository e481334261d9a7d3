import CallLedger.Data.Basic
import CallLedger.Text.Utf8

/-!
# Reading MessagePack

Reads one value from the front of a sequence of bytes and leaves the rest alone. Every width of
a number or a length is understood, and a text may also come as bytes. Extensions are read over:
they are `unreadable`.

Each call of a reader by another one but the first takes a byte or more, so the number of bytes
bounds how deep the calls go.
-/

namespace CallLedger.MessagePack

/-- In MessagePack nil holds nothing, and names may be numbers. -/
def dialect : Dialect := ⟨Data.isNull, true⟩

/-- Takes so many bytes from the front. -/
def takeBytes : (count : Nat) → List UInt8 → Option (List UInt8 × List UInt8)
  | 0, bytes => some ([], bytes)
  | _ + 1, [] => none
  | count + 1, byte :: rest => (takeBytes count rest).map fun (taken, rest) => (byte :: taken, rest)

/-- The number that bytes write, highest first. -/
def ofBigEndian (bytes : List UInt8) : Nat :=
  bytes.foldl (fun n byte => 256 * n + byte.toNat) 0

/-- Reads a word of so many bytes. -/
def readWord (width : Nat) (bytes : List UInt8) : Option (Nat × List UInt8) :=
  (takeBytes width bytes).map fun (taken, rest) => (ofBigEndian taken, rest)

/-- Reads an integer of so many bytes in two's complement. -/
def readSigned (width : Nat) (bytes : List UInt8) : Option (Data × List UInt8) :=
  (readWord width bytes).map fun (n, rest) =>
    (.int (if n < Nat.pow 2 (8 * width - 1) then n else (n : Int) - Nat.pow 2 (8 * width)), rest)

def ofBytes (bytes : List UInt8) : Data :=
  match Text.ofUtf8? bytes with
  | some text => .text text
  | none => .bytes bytes

def readText (length : Nat) (bytes : List UInt8) : Option (Data × List UInt8) :=
  (takeBytes length bytes).map fun (taken, rest) => (ofBytes taken, rest)

/-- Reads over an extension: its type and so many bytes. -/
def readExtension (length : Nat) (bytes : List UInt8) : Option (Data × List UInt8) :=
  (takeBytes (length + 1) bytes).map fun (_, rest) => (.unreadable, rest)

/-- Reads a length of so many bytes and then what has that length. -/
def withLength {β : Type} (width : Nat) (bytes : List UInt8)
    (read : Nat → List UInt8 → Option β) : Option β :=
  (readWord width bytes).bind fun (length, rest) => read length rest

/-- Reads a value that holds no other values, given its first byte. -/
def readLeaf (first : UInt8) (bytes : List UInt8) : Option (Data × List UInt8) :=
  if first < 0x80 then some (.int first.toNat, bytes)
  else if first ≥ 0xe0 then some (.int ((first.toNat : Int) - 256), bytes)
  else if 0xa0 ≤ first && first < 0xc0 then readText (first.toNat - 0xa0) bytes
  else match first with
    | 0xc0 => some (.null, bytes)
    | 0xc2 => some (.bool false, bytes)
    | 0xc3 => some (.bool true, bytes)
    | 0xc4 | 0xd9 => withLength 1 bytes readText
    | 0xc5 | 0xda => withLength 2 bytes readText
    | 0xc6 | 0xdb => withLength 4 bytes readText
    | 0xc7 => withLength 1 bytes readExtension
    | 0xc8 => withLength 2 bytes readExtension
    | 0xc9 => withLength 4 bytes readExtension
    | 0xca => (readWord 4 bytes).map fun (n, rest) => (.real (.ofBinary32 n.toUInt32), rest)
    | 0xcb => (readWord 8 bytes).map fun (n, rest) => (.real ⟨n.toUInt64⟩, rest)
    | 0xcc => (readWord 1 bytes).map fun (n, rest) => (.int n, rest)
    | 0xcd => (readWord 2 bytes).map fun (n, rest) => (.int n, rest)
    | 0xce => (readWord 4 bytes).map fun (n, rest) => (.int n, rest)
    | 0xcf => (readWord 8 bytes).map fun (n, rest) => (.int n, rest)
    | 0xd0 => readSigned 1 bytes
    | 0xd1 => readSigned 2 bytes
    | 0xd2 => readSigned 4 bytes
    | 0xd3 => readSigned 8 bytes
    | 0xd4 => readExtension 1 bytes
    | 0xd5 => readExtension 2 bytes
    | 0xd6 => readExtension 4 bytes
    | 0xd7 => readExtension 8 bytes
    | 0xd8 => readExtension 16 bytes
    | _ => none

/-- The values in a list, or the entries of a record, that a first byte announces. -/
inductive Nested where
  | items (count : Nat)
  | entries (count : Nat)

def readNested (first : UInt8) (bytes : List UInt8) : Option (Nested × List UInt8) :=
  if 0x80 ≤ first && first < 0x90 then some (.entries (first.toNat - 0x80), bytes)
  else if 0x90 ≤ first && first < 0xa0 then some (.items (first.toNat - 0x90), bytes)
  else match first with
    | 0xdc => (readWord 2 bytes).map fun (n, rest) => (.items n, rest)
    | 0xdd => (readWord 4 bytes).map fun (n, rest) => (.items n, rest)
    | 0xde => (readWord 2 bytes).map fun (n, rest) => (.entries n, rest)
    | 0xdf => (readWord 4 bytes).map fun (n, rest) => (.entries n, rest)
    | _ => none

/-- Whether a first byte announces a list or a record. -/
def isNested (first : UInt8) : Bool :=
  (0x80 ≤ first && first < 0xa0) || (0xdc ≤ first && first < 0xe0)

mutual

def readValue : (depth : Nat) → List UInt8 → Option (Data × List UInt8)
  | 0, _ => none
  | _ + 1, [] => none
  | depth + 1, first :: bytes =>
    if isNested first then
      match readNested first bytes with
      | some (.items count, rest) =>
        (readItems depth count rest).map fun (items, rest) => (.list items, rest)
      | some (.entries count, rest) =>
        (readEntries depth count rest).map fun (entries, rest) => (.record entries, rest)
      | none => none
    else readLeaf first bytes

def readItems : (depth : Nat) → (count : Nat) → List UInt8 → Option (List Data × List UInt8)
  | _, 0, bytes => some ([], bytes)
  | 0, _ + 1, _ => none
  | depth + 1, count + 1, bytes => do
    let (item, bytes) ← readValue depth bytes
    let (items, bytes) ← readItems depth count bytes
    return (item :: items, bytes)

def readEntries : (depth : Nat) → (count : Nat) → List UInt8 →
    Option (List (Data × Data) × List UInt8)
  | _, 0, bytes => some ([], bytes)
  | 0, _ + 1, _ => none
  | depth + 1, count + 1, bytes => do
    let (key, bytes) ← readValue depth bytes
    let (value, bytes) ← readValue depth bytes
    let (entries, bytes) ← readEntries depth count bytes
    return ((key, value) :: entries, bytes)

end

/-- The value at the front of a sequence of bytes, and the bytes after it. -/
def read? (bytes : List UInt8) : Option (Data × List UInt8) :=
  readValue (2 * bytes.length + 1) bytes

end CallLedger.MessagePack
