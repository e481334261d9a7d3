import CallLedger.Text.Utf8

/-!
# The FNV-1a hash

Method keys and allocation keys are 64-bit FNV-1a hashes: every byte is combined with the state
by exclusive or, and the state is then multiplied by a fixed prime. Words enter with their
lowest byte first, and a text ends with the byte `ff`, which occurs in no UTF-8 text, so that
two texts in a row cannot be cut in another place.
-/

namespace CallLedger.Fnv

def hash (bytes : List UInt8) : UInt64 :=
  bytes.foldl (fun state byte => (state ^^^ byte.toUInt64) * 0x100000001b3) 0xcbf29ce484222325

/-- The `count` lowest bytes of a number, lowest first. -/
def lowBytes : (count : Nat) → Nat → List UInt8
  | 0, _ => []
  | count + 1, n => n.toUInt8 :: lowBytes count (n / 256)

def ofUInt32 (word : UInt32) : List UInt8 := lowBytes 4 word.toNat

def ofUInt64 (word : UInt64) : List UInt8 := lowBytes 8 word.toNat

/-- A text as it enters the hash, with the byte that ends it. -/
def ofText (text : String) : List UInt8 := Text.utf8 text ++ [0xff]

end CallLedger.Fnv
