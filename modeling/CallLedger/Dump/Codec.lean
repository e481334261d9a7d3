import CallLedger.Data.Fields
import CallLedger.Dump.Load

/-!
# Dumps as data

The tree of records that a dump is written as. Reading it back takes fields in any order and
passes over fields it does not know; the source of a method, its allocations, the parent of a
node and its call site may be left out.
-/

namespace CallLedger

def OwnerKind.named : List (String × OwnerKind) := all.map fun kind => (kind.name, kind)

def MeasureMode.named : List (String × MeasureMode) := all.map fun mode => (mode.name, mode)

namespace Owner

def toData (owner : Owner) : Data :=
  .fields [("kind", .text owner.kind.name), ("name", .text owner.name)]

def ofData? (dialect : Dialect) (data : Data) : Option Owner := do
  let [kind, name] ← data.fields? false ["kind", "name"] | none
  return {
    kind := ← kind.required (Data.variant? dialect OwnerKind.named)
    name := ← name.required Data.text? }

end Owner

namespace SourceLocation

def toData (source : SourceLocation) : Data :=
  .fields [("file", .text source.file), ("line", .nat source.line.toNat)]

def ofData? (data : Data) : Option SourceLocation := do
  let [file, line] ← data.fields? false ["file", "line"] | none
  return { file := ← file.required Data.text?, line := ← line.required Data.uint32? }

end SourceLocation

namespace CallSite

def toData (site : CallSite) : Data :=
  .fields [("file", .optional .text site.file), ("line", .nat site.line.toNat)]

def ofData? (data : Data) : Option CallSite := do
  let [file, line] ← data.fields? false ["file", "line"] | Option.none
  return { file := ← file.optionalInRecord Data.text?, line := ← line.required Data.uint32? }

end CallSite

namespace Measurement

def toData (m : Measurement Binary64) : Data :=
  .fields [("self_time", .real m.selfTime), ("wait_time", .real m.waitTime),
    ("total_time", .real m.totalTime), ("called", .nat m.called)]

def ofData? (data : Data) : Option (Measurement Binary64) := do
  let [selfTime, waitTime, totalTime, called] ←
    data.fields? false ["self_time", "wait_time", "total_time", "called"] | none
  return {
    selfTime := ← selfTime.required Data.real?
    waitTime := ← waitTime.required Data.real?
    totalTime := ← totalTime.required Data.real?
    called := ← called.required Data.count? }

end Measurement

namespace AllocationRow

def toData (row : AllocationRow) : Data :=
  .fields [("class_name", .text row.site.className), ("source_file", .text row.site.file),
    ("line", .nat row.site.line.toNat), ("count", .nat row.count), ("memory", .nat row.memory)]

def ofData? (data : Data) : Option AllocationRow := do
  let [className, file, line, count, memory] ←
    data.fields? false ["class_name", "source_file", "line", "count", "memory"] | none
  return {
    site := {
      file := ← file.required Data.text?
      line := ← line.required Data.uint32?
      className := ← className.required Data.text? }
    count := ← count.required Data.count?
    memory := ← memory.required Data.count? }

end AllocationRow

namespace DumpedMethod

def fieldNames : List String :=
  ["key", "owner", "member", "source", "measurement", "recursive", "root", "excluded",
    "allocations"]

def toData (dumped : DumpedMethod Binary64) : Data :=
  .fields [("key", .nat dumped.key.toNat), ("owner", dumped.method.owner.toData),
    ("member", .text dumped.method.member),
    ("source", .optional SourceLocation.toData dumped.source),
    ("measurement", dumped.measurement.toData), ("recursive", .bool dumped.recursive),
    ("root", .bool dumped.root), ("excluded", .bool dumped.excluded),
    ("allocations", .list (dumped.allocations.map AllocationRow.toData))]

def ofData? (dialect : Dialect) (data : Data) : Option (DumpedMethod Binary64) := do
  let [key, owner, member, source, measurement, recursive, root, excluded, allocations] ←
    data.fields? false fieldNames | none
  return {
    key := ← key.required Data.uint64?
    method := {
      owner := ← owner.required (Owner.ofData? dialect)
      member := ← member.required Data.text? }
    source := ← source.optional SourceLocation.ofData?
    measurement := ← measurement.required Measurement.ofData?
    recursive := ← recursive.required Data.bool?
    root := ← root.required Data.bool?
    excluded := ← excluded.required Data.bool?
    allocations := ← allocations.defaulted [] (Data.list? AllocationRow.ofData?) }

end DumpedMethod

namespace DumpedNode

def toData (dumped : DumpedNode Binary64) : Data :=
  .fields [("method", .nat dumped.method), ("parent", .optional .nat dumped.parent),
    ("measurement", dumped.measurement.toData), ("call_site", dumped.site.toData)]

def ofData? (data : Data) : Option (DumpedNode Binary64) := do
  let [method, parent, measurement, site] ←
    data.fields? false ["method", "parent", "measurement", "call_site"] | none
  return {
    method := ← method.required Data.count?
    parent := ← parent.optional Data.count?
    measurement := ← measurement.required Measurement.ofData?
    site := ← site.defaulted .none CallSite.ofData? }

end DumpedNode

namespace DumpedContext

def toData (dumped : DumpedContext Binary64) : Data :=
  .fields [("thread_id", .nat dumped.thread.toNat), ("fiber_id", .nat dumped.fiber.toNat),
    ("methods", .list (dumped.methods.map DumpedMethod.toData)),
    ("nodes", .list (dumped.nodes.map DumpedNode.toData))]

def ofData? (dialect : Dialect) (data : Data) : Option (DumpedContext Binary64) := do
  let [thread, fiber, methods, nodes] ←
    data.fields? false ["thread_id", "fiber_id", "methods", "nodes"] | none
  return {
    thread := ← thread.required Data.uint64?
    fiber := ← fiber.required Data.uint64?
    methods := ← methods.required (Data.list? (DumpedMethod.ofData? dialect))
    nodes := ← nodes.required (Data.list? DumpedNode.ofData?) }

end DumpedContext

namespace Dump

def toData (dump : Dump Binary64) : Data :=
  .fields [("version", .nat dump.version.toNat), ("callprof_version", .text dump.programVersion),
    ("measure_mode", .text dump.measureMode.name),
    ("threads", .list (dump.contexts.map DumpedContext.toData))]

def ofData? (dialect : Dialect) (data : Data) : Option (Dump Binary64) := do
  let [version, program, mode, contexts] ←
    data.fields? false ["version", "callprof_version", "measure_mode", "threads"] | none
  return {
    version := ← version.required Data.uint32?
    programVersion := ← program.required Data.text?
    measureMode := ← mode.required (Data.variant? dialect MeasureMode.named)
    contexts := ← contexts.required (Data.list? (DumpedContext.ofData? dialect)) }

end Dump

end CallLedger
