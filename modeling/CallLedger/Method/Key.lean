import CallLedger.Hash.Fnv
import CallLedger.Method.Owner

/-!
# Method keys

Within one registry every method has a key of its own, and call trees file their nodes under
keys. The first candidate for a method is the hash of its identity; a candidate that another
method holds leads on to the hash of that candidate, and so forth.

Such a sequence of hashes may run into a circle in which every key is taken. A search along it
never ends, and nothing comes of the operation that it is part of. A `spare` key is no key that
could come of a search: it is what stands for the outcome where there is none, so that functions
that search have a value all the same (`Registry.locate`).
-/

namespace CallLedger

inductive Key where
  /-- A key found among the candidates of a method. -/
  | hash (value : UInt64)
  /-- Stands for the key of a method all of whose candidates are taken. There is no such key. -/
  | spare (number : Nat)
deriving DecidableEq

namespace Key

/-- The first candidate for the key of a method. -/
def first (method : Method) : UInt64 :=
  Fnv.hash (Fnv.ofUInt64 method.owner.kind.code ++ Fnv.ofText method.owner.name ++
    Fnv.ofText method.member)

/-- The candidate to try when one is taken. -/
def next (candidate : UInt64) : UInt64 := Fnv.hash (Fnv.ofUInt64 candidate)

/-- The number that dumps and reports show for a key. -/
def number : Key → UInt64
  | hash value => value
  | spare number => number.toUInt64

end Key

end CallLedger
