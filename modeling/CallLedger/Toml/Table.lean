import CallLedger.Data.Basic

/-!
# Tables of TOML

A document is a table that is filled in line by line. A table can come into being in three ways:
by a header of its own, as part of the path in a header of another, or as part of a dotted key.
Only one of the second kind may still get a header of its own, and only one of the third may
still be filled by dotted keys. A value that is there is never replaced.
-/

namespace CallLedger.Toml

/-- How a table came into being. -/
inductive Origin where
  | header
  | path
  | dotted
deriving DecidableEq

inductive Item where
  | value (data : Data)
  | table (origin : Origin) (entries : List (String × Item))
  /-- A list of tables, each made by a header in double brackets, the last one first. -/
  | tables (list : List (List (String × Item)))

abbrev Table := List (String × Item)

namespace Table

/-- Puts an item under a key, in the place of what was there. -/
def put (table : Table) (key : String) (item : Item) : Table :=
  table.filter (·.1 ≠ key) ++ [(key, item)]

/-- Puts a value under a dotted key, unless there is one. -/
def assign (table : Table) (value : Data) : (keys : List String) → Option Table
  | [] => none
  | [key] => if (table.lookup key).isSome then none else some (table.put key (.value value))
  | key :: keys =>
    match table.lookup key with
    | none => (assign [] value keys).map fun inner => table.put key (.table .dotted inner)
    | some (.table .dotted inner) =>
      (assign inner value keys).map fun inner => table.put key (.table .dotted inner)
    | some _ => none

/-- Changes the table that a path leads to; missing tables are made on the way, and a list of
tables is entered at its last one. -/
def within (change : Table → Option Table) : (path : List String) → Table → Option Table
  | [], table => change table
  | key :: path, table =>
    match table.lookup key with
    | none => (within change path []).map fun inner => table.put key (.table .path inner)
    | some (.table origin inner) =>
      (within change path inner).map fun inner => table.put key (.table origin inner)
    | some (.tables (last :: others)) =>
      (within change path last).map fun last => table.put key (.tables (last :: others))
    | some _ => none

def openTable (key : String) (table : Table) : Option Table :=
  match table.lookup key with
  | none => some (table.put key (.table .header []))
  | some (.table .path inner) => some (table.put key (.table .header inner))
  | some _ => none

/-- Adds a table to the list of tables under a key, for a header in double brackets. -/
def addTable (key : String) (table : Table) : Option Table :=
  match table.lookup key with
  | none => some (table.put key (.tables [[]]))
  | some (.tables list) => some (table.put key (.tables ([] :: list)))
  | some _ => none

end Table

mutual

def Item.toData : Item → Data
  | .value data => data
  | .table _ entries => .record (entriesToData entries)
  | .tables list => .list (tablesToData list).reverse

def entriesToData : List (String × Item) → List (Data × Data)
  | [] => []
  | (key, item) :: rest => (.text key, item.toData) :: entriesToData rest

def tablesToData : List (List (String × Item)) → List Data
  | [] => []
  | table :: rest => .record (entriesToData table) :: tablesToData rest

end

def Table.toData (table : Table) : Data := .record (entriesToData table)

end CallLedger.Toml
