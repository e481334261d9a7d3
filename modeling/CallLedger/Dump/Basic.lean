import CallLedger.Session.Basic

/-!
# Dumps

A dump is the profile of a session as plain data: for each traced context its methods in
registry order and its call-tree nodes, parents first. A node names its method by position in
the list of methods and its parent by position in the list of nodes.
-/

namespace CallLedger

structure DumpedMethod (α : Type) where
  key : UInt64
  method : Method
  source : Option SourceLocation
  measurement : Measurement α
  recursive : Bool
  root : Bool
  excluded : Bool
  allocations : List AllocationRow
deriving DecidableEq

structure DumpedNode (α : Type) where
  /-- The position of the method in the list of methods. -/
  method : Nat
  /-- The position of the parent in the list of nodes. -/
  parent : Option Nat
  measurement : Measurement α
  site : CallSite
deriving DecidableEq

structure DumpedContext (α : Type) where
  thread : UInt64
  fiber : UInt64
  methods : List (DumpedMethod α)
  nodes : List (DumpedNode α)
deriving DecidableEq

structure Dump (α : Type) where
  version : UInt32
  programVersion : String
  measureMode : MeasureMode
  contexts : List (DumpedContext α)
deriving DecidableEq

def programName : String := "callprof"

def programVersion : String := "0.1.0"

variable {α : Type} [Amount α]

def DumpedMethod.ofRecord (record : MethodRecord α) : DumpedMethod α where
  key := record.key.number
  method := record.method
  source := record.source
  measurement := record.measurement
  recursive := record.recursive
  root := record.root
  excluded := record.excluded
  allocations := record.allocations.rows

/-- The node as a dump lists it, given the nodes in the order in which they are listed. -/
def DumpedNode.ofNode (order : List NodeId) (node : Node α) : DumpedNode α where
  method := node.method
  parent := node.parent.bind fun parent => order.idxOf? parent
  measurement := node.measurement
  site := node.site

/-- The nodes of a profile, parents first. -/
def Profile.dumpNodes (profile : Profile α) : List (DumpedNode α) :=
  let order := profile.tree.walkAll
  order.filterMap fun id => (profile.tree.node? id).map (.ofNode order)

def DumpedContext.ofContext (context : Context α) : DumpedContext α where
  thread := context.key.thread
  fiber := context.key.fiber
  methods := context.profile.methods.records.toList.map .ofRecord
  nodes := context.profile.dumpNodes

/-- A snapshot of every traced context. -/
def Session.dump (session : Session α) : Dump α where
  version := dumpVersion
  programVersion := programVersion
  measureMode := session.config.measureMode
  contexts := session.threads.map fun entry => .ofContext entry.2

end CallLedger
