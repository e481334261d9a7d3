import CallLedger.Data.Basic

/-!
# Fields of a structure

A structure is written as a record of its fields by name, in any order, or as the list of its
fields in their own order. Entries of a record that name no field are passed over, unless the
structure is closed; a field may be given only once. Where a format has keys that are no texts, a
number as key names the field at that position. A list must not be longer than the structure.

What it means that a field is missing is for each field to say. `required` fields must be there,
`defaulted` ones may be left out of a record and off the end of a list. An `optional` field may
also be null.
-/

namespace CallLedger

/-- What was found for a field. -/
inductive Field where
  | given (data : Data)
  /-- The record has no entry for the field. -/
  | omitted
  /-- The list ends before the field. -/
  | beyond

namespace Data

/-- The text that a key of a record stands for, if it can be a key. One that is no text and names
no field stands for none. -/
def keyText? (fieldNames : List String) : Data → Option (Option String)
  | text name => some (some name)
  | int (.ofNat n) => some fieldNames[n]?
  | bytes _ => some none
  | _ => none

/-- The values given for a field. -/
def valuesOf (name : String) (entries : List (Option String × Data)) : List Data :=
  entries.filterMap fun (key, value) => if key = some name then some value else none

/-- The fields of a structure in the order in which they are named. -/
def fields? (closed : Bool) (fieldNames : List String) : Data → Option (List Field)
  | record entries => do
    let entries ← entries.mapM fun (key, value) => (keyText? fieldNames key).map (·, value)
    if closed && entries.any fun entry => !entry.1.any fieldNames.contains then none
    else fieldNames.mapM fun name =>
      match valuesOf name entries with
      | [] => some .omitted
      | [value] => some (.given value)
      | _ => none
  | list items =>
    if items.length ≤ fieldNames.length then
      some (items.map .given ++ List.replicate (fieldNames.length - items.length) .beyond)
    else none
  | _ => none

end Data

namespace Field

variable {β : Type}

def required (read : Data → Option β) : Field → Option β
  | given data => read data
  | omitted | beyond => none

def defaulted (value : β) (read : Data → Option β) : Field → Option β
  | given data => read data
  | omitted | beyond => some value

/-- A field that may be null or left out. -/
def optional (read : Data → Option β) : Field → Option (Option β) :=
  defaulted none (Data.nullable? read)

/-- A field that may be null or left out of a record, but not off a list. -/
def optionalInRecord (read : Data → Option β) : Field → Option (Option β)
  | given data => data.nullable? read
  | omitted => some none
  | beyond => none

end Field

end CallLedger
