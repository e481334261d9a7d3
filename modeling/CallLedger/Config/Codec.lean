import CallLedger.Config
import CallLedger.Data.Fields
import CallLedger.Dump.Codec

/-!
# Configurations as data

The record of a configuration. Every option may be left out, but none may be given that is not
an option.
-/

namespace CallLedger.Config

def fieldNames : List String :=
  ["measure_mode", "include_threads", "exclude_threads", "allow_exceptions", "track_allocations",
    "merge_fibers", "initial_stack_capacity"]

def threads? : Data → Option (List UInt64) := Data.list? Data.uint64?

def ofData? (dialect : Dialect) (data : Data) : Option Config := do
  let [mode, included, excluded, exceptions, allocations, fibers, capacity] ←
    data.fields? true fieldNames | none
  return {
    measureMode :=
      ← mode.defaulted default.measureMode (Data.variant? dialect MeasureMode.named)
    includeThreads := ← included.optional threads?
    excludeThreads := ← excluded.optional threads?
    allowExceptions := ← exceptions.defaulted default.allowExceptions Data.bool?
    trackAllocations := ← allocations.defaulted default.trackAllocations Data.bool?
    mergeFibers := ← fibers.defaulted default.mergeFibers Data.bool?
    initialStackCapacity :=
      ← capacity.defaulted default.initialStackCapacity Data.count? }

def threadsToData (threads : List UInt64) : Data := .list (threads.map (.nat ·.toNat))

def toData (config : Config) : Data :=
  .fields [("measure_mode", .text config.measureMode.name),
    ("include_threads", .optional threadsToData config.includeThreads),
    ("exclude_threads", .optional threadsToData config.excludeThreads),
    ("allow_exceptions", .bool config.allowExceptions),
    ("track_allocations", .bool config.trackAllocations),
    ("merge_fibers", .bool config.mergeFibers),
    ("initial_stack_capacity", .nat config.initialStackCapacity)]

end CallLedger.Config
