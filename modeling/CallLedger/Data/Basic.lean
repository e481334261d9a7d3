import CallLedger.Binary64

/-!
# Data

The tree of values that dumps, events and configurations are written as, whatever the format.
The formats read text or bytes into such a tree and write one out; what a dump or an event looks
like as a tree is said once for all of them.

Some leaves are well formed in their format and yet have no value here: a number beyond all
doubles, a string with half of a surrogate pair. They are `unreadable`, which does no harm as
long as nobody asks for their value. A record keeps its entries as they were written, in order
and with keys given twice.
-/

namespace CallLedger

inductive Data where
  | null
  | bool (value : Bool)
  | int (value : Int)
  | real (value : Binary64)
  | text (value : String)
  /-- Bytes that are not the UTF-8 form of a text. -/
  | bytes (value : List UInt8)
  | list (items : List Data)
  | record (entries : List (Data × Data))
  | unreadable

/-- What the formats do differently where one of several named values stands. -/
structure Dialect where
  isNothing : Data → Bool
  /-- A name may be given by its position in the list of names. -/
  numbersNames : Bool

namespace Data

def nat (n : Nat) : Data := int n

def optional {β : Type} (write : β → Data) : Option β → Data
  | some value => write value
  | none => null

def fields (named : List (String × Data)) : Data :=
  record (named.map fun (name, value) => (text name, value))

def bool? : Data → Option Bool
  | bool value => some value
  | _ => none

/-- A whole number from zero up to, and without, a bound. -/
def natBelow? (bound : Nat) : Data → Option Nat
  | int (.ofNat n) => if n < bound then some n else none
  | _ => none

def uint32? (data : Data) : Option UInt32 :=
  (data.natBelow? UInt32.size).map Nat.toUInt32

def uint64? (data : Data) : Option UInt64 :=
  (data.natBelow? UInt64.size).map Nat.toUInt64

/-- A count, which is written in 64 bits. -/
def count? (data : Data) : Option Nat := data.natBelow? UInt64.size

/-- A number; whole numbers are taken to the nearest double. -/
def real? : Data → Option Binary64
  | real value => some value
  | int value => some (.ofInt value)
  | _ => none

def text? : Data → Option String
  | text value => some value
  | _ => none

def nullable? {β : Type} (read : Data → Option β) : Data → Option (Option β)
  | null => some none
  | data => (read data).map some

def list? {β : Type} (read : Data → Option β) : Data → Option (List β)
  | list items => items.mapM read
  | _ => none

def isNull : Data → Bool
  | null => true
  | _ => false

/-- One of several named values by its name, or by its number if the format has numbers for
names. -/
def named? {β : Type} (dialect : Dialect) (named : List (String × β)) : Data → Option β
  | text name => named.lookup name
  | int (.ofNat n) => if dialect.numbersNames then named[n]?.map (·.2) else none
  | _ => none

/-- One of several named values: its name, or a record whose only entry has that name and holds
nothing. -/
def variant? {β : Type} (dialect : Dialect) (named : List (String × β)) : Data → Option β
  | record [(name, content)] =>
    if dialect.isNothing content then name.named? dialect named else none
  | data => data.named? dialect named

end Data

end CallLedger
