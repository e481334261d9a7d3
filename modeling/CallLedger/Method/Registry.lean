import CallLedger.Method.Exclusions
import CallLedger.Method.Record

/-!
# The method registry

Each context has one registry, an arena of method records in the order of first sight. A method
is searched for along its sequence of candidate keys: a record found under a candidate is
trusted only if it is the record of that method, otherwise the search goes on with the next
candidate, and a candidate that no record holds becomes the key of a new record. Records are
never removed, so what was found once is found again.

A search knows no bound. A registry of `n` records can turn down at most `n` different candidates,
so a search that turns down `n + 1` has met a candidate twice and goes around for ever. It has no
outcome then (`search`), and neither has anything that it is part of. The operations in the
namespace `Searching` are written so, and they are the ones that a program performs.

The operations here always have a value, because `locate` makes one up for a search that does not
end: a method that would be searched for for ever is taken to live under a spare key. What is said
of them is said of the program as far as its searches end; `Searching` and these agree wherever
something comes of the former.
-/

namespace CallLedger

structure Registry (α : Type) where
  records : Array (MethodRecord α)
deriving DecidableEq

/-- The outcome of a search for a method. -/
inductive Located where
  | found (id : MethodId)
  /-- The method is unknown, and this key is free for it. -/
  | free (key : Key)
deriving DecidableEq

namespace Registry

variable {α : Type} [Amount α]

def empty : Registry α := ⟨#[]⟩

def size (methods : Registry α) : Nat := methods.records.size

def record? (methods : Registry α) (id : MethodId) : Option (MethodRecord α) :=
  methods.records[id]?

def find? (methods : Registry α) (key : Key) : Option MethodId :=
  methods.records.findIdx? fun record => record.key = key

def modify (methods : Registry α) (id : MethodId)
    (change : MethodRecord α → MethodRecord α) : Registry α :=
  ⟨methods.records.modify id change⟩

/-- Tries at most the given number of candidates, and has no answer when all were turned down. -/
def probe (methods : Registry α) (method : Method) :
    (tries : Nat) → (candidate : UInt64) → Option Located
  | 0, _ => none
  | tries + 1, candidate =>
    match methods.find? (.hash candidate) with
    | none => some (.free (.hash candidate))
    | some id =>
      match methods.record? id with
      | none => some (.free (.hash candidate))
      | some record =>
        if record.method = method then some (.found id)
        else methods.probe method tries (Key.next candidate)

/-- The search for a method, which has no outcome if it goes around for ever. -/
def search (methods : Registry α) (method : Method) : Option Located :=
  methods.probe method (methods.size + 1) (Key.first method)

/-- Stands for the outcome of a search that has none: a record that was made for the method by the
same token, or else a spare key. -/
def locateSpare (methods : Registry α) (method : Method) : Located :=
  match methods.records.findIdx? (fun record => record.method = method) with
  | some id => .found id
  | none => .free (.spare methods.size)

/-- The outcome of a search, made up if it has none. -/
def locate (methods : Registry α) (method : Method) : Located :=
  match methods.search method with
  | some located => located
  | none => methods.locateSpare method

def lookup (methods : Registry α) (method : Method) : Option MethodId :=
  match methods.locate method with
  | .found id => some id
  | .free _ => none

/-- This registry's record of a method that is given by its record in another registry. -/
def lookupFrom (methods other : Registry α) (id : MethodId) : Option MethodId :=
  match other.record? id with
  | some record => methods.lookup record.method
  | none => none

def push (methods : Registry α) (record : MethodRecord α) : Registry α :=
  ⟨methods.records.push record⟩

/-- Adds a record under a key that is free for it here. A record of the same method that is
already there stays as it is. -/
def insert (methods : Registry α) (record : MethodRecord α) : Registry α × MethodId :=
  match methods.locate record.method with
  | .found id => (methods, id)
  | .free key => (methods.push { record with key := key }, methods.size)

/-- The record of a method, made on first sight. A new record is checked against the exclusions;
only a method that is neither excluded nor native keeps its source location. -/
def lookupOrCreate (methods : Registry α) (method : Method) (native : Bool)
    (source : Option SourceLocation) (exclusions : Exclusions) : Registry α × MethodId :=
  match methods.locate method with
  | .found id => (methods, id)
  | .free key =>
    let excluded := exclusions.contains method
    let record : MethodRecord α :=
      { MethodRecord.fresh key method with
        source := if excluded || native then none else source
        excluded := excluded }
    (methods.push record, methods.size)

/-- Takes over a method of another registry, without what was measured there. -/
def adopt (methods : Registry α) (record : MethodRecord α) : Registry α × MethodId :=
  methods.insert record.detached

end Registry

end CallLedger
