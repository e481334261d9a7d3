import CallLedger.Data.Basic
import CallLedger.Text.Utf8

/-!
# Writing MessagePack

Whole numbers, texts, lists and records are written with the shortest header that holds the
number or the length; reals always take their eight bytes. Words stand with their highest byte
first.
-/

namespace CallLedger.MessagePack

/-- The lowest bytes of a number, so many of them, highest first. -/
def bigEndian : (width : Nat) → Nat → List UInt8
  | 0, _ => []
  | width + 1, n => bigEndian width (n / 256) ++ [n.toUInt8]

def writeNat (n : Nat) : List UInt8 :=
  if n < 0x80 then [n.toUInt8]
  else if n < 0x100 then 0xcc :: bigEndian 1 n
  else if n < 0x10000 then 0xcd :: bigEndian 2 n
  else if n < 0x100000000 then 0xce :: bigEndian 4 n
  else 0xcf :: bigEndian 8 n

/-- The number `-(n + 1)`, down to `-2 ^ 63`; its bits are those of `n` turned over. -/
def writeNegative (n : Nat) : List UInt8 :=
  if n < 0x20 then [0xff - n.toUInt8]
  else if n < 0x80 then 0xd0 :: bigEndian 1 (0xff - n)
  else if n < 0x8000 then 0xd1 :: bigEndian 2 (0xffff - n)
  else if n < 0x80000000 then 0xd2 :: bigEndian 4 (0xffffffff - n)
  else 0xd3 :: bigEndian 8 (0xffffffffffffffff - n)

def textHeader (length : Nat) : List UInt8 :=
  if length < 0x20 then [0xa0 + length.toUInt8]
  else if length < 0x100 then 0xd9 :: bigEndian 1 length
  else if length < 0x10000 then 0xda :: bigEndian 2 length
  else 0xdb :: bigEndian 4 length

def bytesHeader (length : Nat) : List UInt8 :=
  if length < 0x100 then 0xc4 :: bigEndian 1 length
  else if length < 0x10000 then 0xc5 :: bigEndian 2 length
  else 0xc6 :: bigEndian 4 length

def listHeader (length : Nat) : List UInt8 :=
  if length < 0x10 then [0x90 + length.toUInt8]
  else if length < 0x10000 then 0xdc :: bigEndian 2 length
  else 0xdd :: bigEndian 4 length

def recordHeader (length : Nat) : List UInt8 :=
  if length < 0x10 then [0x80 + length.toUInt8]
  else if length < 0x10000 then 0xde :: bigEndian 2 length
  else 0xdf :: bigEndian 4 length

def writeText (text : String) : List UInt8 :=
  let bytes := Text.utf8 text
  textHeader bytes.length ++ bytes

mutual

def write : Data → List UInt8
  | .null | .unreadable => [0xc0]
  | .bool false => [0xc2]
  | .bool true => [0xc3]
  | .int (.ofNat n) => writeNat n
  | .int (.negSucc n) => writeNegative n
  | .real x => 0xcb :: bigEndian 8 x.bits.toNat
  | .text text => writeText text
  | .bytes bytes => bytesHeader bytes.length ++ bytes
  | .list items => listHeader items.length ++ writeItems items
  | .record entries => recordHeader entries.length ++ writeEntries entries

def writeItems : List Data → List UInt8
  | [] => []
  | item :: rest => write item ++ writeItems rest

def writeEntries : List (Data × Data) → List UInt8
  | [] => []
  | (key, value) :: rest => write key ++ (write value ++ writeEntries rest)

end

end CallLedger.MessagePack
