import CallLedger.Dump.Basic

/-!
# Loading dumps

A dump is loaded in one pass. Methods are entered in a new registry, which finds keys for them
afresh. A node is attached under the node that it names as its parent, which must have come
before; the position of a node in the list is its position in the new tree. The first fault ends
the loading.
-/

namespace CallLedger

variable {α : Type} [Amount α]

/-- The record that a dump lists. Rows of allocations with one key are put together. -/
def DumpedMethod.toRecord (dumped : DumpedMethod α) : MethodRecord α :=
  { (MethodRecord.fresh (.hash dumped.key) dumped.method : MethodRecord α) with
    source := dumped.source
    measurement := dumped.measurement
    recursive := dumped.recursive
    root := dumped.root
    excluded := dumped.excluded
    allocations := AllocationTable.empty.merge dumped.allocations }

/-- Enters the listed methods, and tells which record each of them got. -/
def Registry.ofDump (methods : List (DumpedMethod α)) : Registry α × Array MethodId :=
  methods.foldl
    (fun (registry, ids) dumped =>
      let (registry, id) := registry.insert dumped.toRecord
      (registry, ids.push id))
    (.empty, #[])

/-- Attaches a listed node. Its position is the number of nodes before it. -/
def Profile.loadNode (ids : Array MethodId) (profile : Profile α) (node : DumpedNode α) :
    Except DumpError (Profile α) :=
  let position := profile.tree.size
  match ids[node.method]? with
  | none => .error (.unknownMethod position node.method)
  | some method =>
    let attach (parent : Option NodeId) : Profile α :=
      (profile.attach parent method node.site).modifyNode position
        ({ · with measurement := node.measurement })
    match node.parent with
    | none => .ok (attach none)
    | some parent =>
      if parent < position then .ok (attach (some parent))
      else .error (.parentOrder position parent)

def Profile.ofDump (methods : List (DumpedMethod α)) (nodes : List (DumpedNode α)) :
    Except DumpError (Profile α) :=
  let (registry, ids) := Registry.ofDump methods
  nodes.foldlM (Profile.loadNode ids) ⟨registry, .empty⟩

def DumpedContext.toContext (dumped : DumpedContext α) : Except DumpError (Context α) := do
  let profile ← Profile.ofDump dumped.methods dumped.nodes
  return .settled ⟨dumped.thread, dumped.fiber⟩ profile

/-- A finished session with the contexts of a dump. -/
def Session.ofDump (dump : Dump α) : Except DumpError (Session α) :=
  if dump.version = dumpVersion then do
    let contexts ← dump.contexts.mapM DumpedContext.toContext
    return .ofContexts dump.measureMode contexts
  else .error (.version dump.version)

end CallLedger
