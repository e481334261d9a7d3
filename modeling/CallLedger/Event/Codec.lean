import CallLedger.Data.Fields
import CallLedger.Event
import CallLedger.Json.Reader
import CallLedger.Json.Writer

/-!
# Events as data

The record of an event, and its JSON text as it stands on a line of a recorded stream. What an
event does not say is left out when it is written, and may be left out or null when it is read.
-/

namespace CallLedger

def EventKind.named : List (String × EventKind) := all.map fun kind => (kind.name, kind)

def EntityKind.named : List (String × EntityKind) := all.map fun kind => (kind.name, kind)

namespace Entity

def toData (entity : Entity) : Data :=
  .fields [("kind", .text entity.kind.name), ("name", .text entity.name)]

def ofData? (data : Data) : Option Entity := do
  let [kind, name] ← data.fields? false ["kind", "name"] | none
  return {
    kind := ← kind.required (Data.variant? Json.dialect EntityKind.named)
    name := ← name.required Data.text? }

end Entity

namespace AllocatedObject

def toData (object : AllocatedObject) : Data :=
  .fields [("class_name", .text object.className), ("size", .nat object.size.toNat)]

def ofData? (data : Data) : Option AllocatedObject := do
  let [className, size] ← data.fields? false ["class_name", "size"] | none
  return {
    className := ← className.required Data.text?
    size := ← size.defaulted 0 Data.uint64? }

end AllocatedObject

namespace Event

def fieldNames : List String :=
  ["kind", "thread_id", "fiber_id", "measurement", "entity", "member", "source_file", "line",
    "allocation"]

/-- An entry for a value that is there, and none for one that is not. -/
def entry {β : Type} (name : String) (write : β → Data) (value : Option β) :
    List (String × Data) :=
  match value with
  | some value => [(name, write value)]
  | none => []

def toData (event : Event Binary64) : Data :=
  .fields <|
    [("kind", .text event.kind.name), ("thread_id", .nat event.thread.toNat),
      ("fiber_id", .nat event.fiber.toNat), ("measurement", .real event.sample)] ++
    entry "entity" Entity.toData event.entity ++ entry "member" .text event.member ++
    entry "source_file" .text event.file ++ [("line", .nat event.line.toNat)] ++
    entry "allocation" AllocatedObject.toData event.allocation

def ofData? (data : Data) : Option (Event Binary64) := do
  let [kind, thread, fiber, sample, entity, member, file, line, allocation] ←
    data.fields? false fieldNames | none
  return {
    kind := ← kind.required (Data.variant? Json.dialect EventKind.named)
    thread := ← thread.defaulted 0 Data.uint64?
    fiber := ← fiber.defaulted 0 Data.uint64?
    sample := ← sample.required Data.real?
    entity := ← entity.optional Entity.ofData?
    member := ← member.optional Data.text?
    file := ← file.optional Data.text?
    line := ← line.defaulted 0 Data.uint32?
    allocation := ← allocation.optional AllocatedObject.ofData? }

def toJson (event : Event Binary64) : String := String.ofList (Json.compact event.toData)

def ofJson? (text : String) : Option (Event Binary64) := do
  ofData? (← Json.read? text.toList)

end Event

end CallLedger
