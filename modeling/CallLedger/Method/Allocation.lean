import CallLedger.Hash.Fnv

/-!
# Allocation rows

What a method allocated, by source line and class of object. A table finds its row by the
64-bit hash of file, line and class, and does not compare the three: when two of them hash
alike, the second adds to the row of the first, which keeps its own names. Rows are held in
the order of file, line and class in which they are reported.

Objects and bytes are counted without a bound. A profiler counts them in words of 64 bits, so it
has the same numbers as long as they are below `2 ^ 64`, and what is said of sums of them is said
under that condition (`Profile.CountsFit`).
-/

namespace CallLedger

/-- Where objects of one class were allocated. -/
structure AllocationSite where
  file : String
  line : UInt32
  className : String
deriving DecidableEq

/-- How many objects were allocated at a site, and how many bytes they took. -/
structure AllocationRow where
  site : AllocationSite
  count : Nat
  memory : Nat
deriving DecidableEq

structure AllocationTable where
  rows : List AllocationRow
deriving DecidableEq

namespace AllocationSite

/-- The hash by which a table finds the row of a site. -/
def key (site : AllocationSite) : UInt64 :=
  Fnv.hash (Fnv.ofText site.file ++ Fnv.ofUInt32 site.line ++ Fnv.ofText site.className)

/-- The order in which sites are reported. -/
def before (a b : AllocationSite) : Bool :=
  a.file < b.file || (a.file = b.file &&
    (a.line < b.line || (a.line = b.line && a.className < b.className)))

end AllocationSite

namespace AllocationTable

def empty : AllocationTable := ⟨[]⟩

/-- Puts a row before the first one that it does not follow. -/
def place (row : AllocationRow) : List AllocationRow → List AllocationRow
  | [] => [row]
  | other :: rest =>
    if other.site.before row.site then other :: place row rest else row :: other :: rest

/-- Adds objects to the row with the key of the site, or makes a row for the site. -/
def add (table : AllocationTable) (site : AllocationSite) (count memory : Nat) :
    AllocationTable :=
  if table.rows.any (fun row => row.site.key = site.key) then
    ⟨table.rows.map fun row =>
      if row.site.key = site.key then
        ⟨row.site, row.count + count, row.memory + memory⟩
      else row⟩
  else ⟨place ⟨site, count, memory⟩ table.rows⟩

def record (table : AllocationTable) (site : AllocationSite) (size : Nat) : AllocationTable :=
  table.add site 1 size

def addRow (table : AllocationTable) (row : AllocationRow) : AllocationTable :=
  table.add row.site row.count row.memory

def merge (table : AllocationTable) (rows : List AllocationRow) : AllocationTable :=
  rows.foldl addRow table

end AllocationTable

end CallLedger
