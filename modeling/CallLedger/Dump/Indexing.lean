import CallLedger.Dump.Load
import CallLedger.Profile.Searching

/-!
# Loading, access by access

The ids that the methods and the nodes got are kept in arrays, and so are the records and the nodes
themselves. What a listed node says of its method is looked up with a test of the bounds; every
other element is taken by its position without one, and a position behind the end of its array
would end the program. Here each of these accesses stands where it is made, and one behind the end
is an outcome of its own, `outOfRange`.

Every listed method is searched for when it is entered, and a search that goes around for ever
leaves the loading without an outcome: `Searching.load` is `none` then.

`Session.ofDump` says what loading comes to when every position is in its array and every search
ends.
-/

namespace CallLedger

/-- Why loading ends early. -/
inductive LoadFault where
  | refused (cause : DumpError)
  /-- An array was accessed behind its end. -/
  | outOfRange

structure Loading (α : Type) where
  profile : Profile α
  /-- The node that was made for each listed node so far. -/
  made : Array NodeId

namespace Loading

variable {α : Type}

/-- An element that has to be there. -/
def element {β : Type} (items : Array β) (position : Nat) : Except LoadFault β :=
  match items[position]? with
  | some item => .ok item
  | none => .error .outOfRange

/-- Changes an element that has to be there. -/
def alter {β : Type} (items : Array β) (position : Nat) (change : β → β) :
    Except LoadFault (Array β) := do
  let _ ← element items position
  return items.modify position change

/-- Adds a node and files it under its key with its parent or among the roots. -/
def link (tree : CallTree α) (node : Node α) : Except LoadFault (CallTree α) := do
  let nodes := tree.nodes.push node
  match node.parent with
  | some parent =>
    let nodes ← alter nodes parent fun p =>
      { p with links := p.links.insert node.key tree.size }
    return { tree with nodes := nodes }
  | none =>
    return { tree with nodes := nodes, rootLinks := tree.rootLinks.insert node.key tree.size }

variable [Amount α]

/-- Adds a node for a method under a parent, or as a root, and tells its position. -/
def attach (profile : Profile α) (parent : Option NodeId) (method : MethodId) (site : CallSite) :
    Except LoadFault (Profile α × NodeId) := do
  let record ← element profile.methods.records method
  let tree ← link profile.tree (.fresh method record.key parent site)
  let records ← alter profile.methods.records method fun r =>
    { r with nodes := r.nodes.push profile.tree.size }
  return (⟨⟨records⟩, tree⟩, profile.tree.size)

/-- Makes the node for a listed one under a parent, or as a root. -/
def place (loading : Loading α) (method : MethodId) (parent : Option NodeId)
    (listed : DumpedNode α) : Except LoadFault (Loading α) := do
  let (profile, id) ← attach loading.profile parent method listed.site
  let nodes ← alter profile.tree.nodes id ({ · with measurement := listed.measurement })
  return ⟨{ profile with tree := { profile.tree with nodes := nodes } }, loading.made.push id⟩

/-- The record that a node names. -/
def methodOf (ids : Array MethodId) (position : Nat) (node : DumpedNode α) :
    Except LoadFault MethodId :=
  match ids[node.method]? with
  | some method => .ok method
  | none => .error (.refused (.unknownMethod position node.method))

/-- The node that was made for the listed one that a node names as its parent. -/
def parentOf (made : Array NodeId) (position : Nat) (node : DumpedNode α) :
    Except LoadFault (Option NodeId) :=
  match node.parent with
  | some parent =>
    if parent < position then (element made parent).map some
    else .error (.refused (.parentOrder position parent))
  | none => .ok none

/-- Takes a listed node at its position in the list. -/
def take (ids : Array MethodId) (loading : Loading α) :
    DumpedNode α × Nat → Except LoadFault (Loading α)
  | (node, position) => do
    let method ← methodOf ids position node
    let parent ← parentOf loading.made position node
    loading.place method parent node

/-- A context with the listed nodes, under the records that the listed methods got. -/
def context (entered : Registry α × Array MethodId) (dumped : DumpedContext α) :
    Except LoadFault (Context α) := do
  let (registry, ids) := entered
  let loading ← dumped.nodes.zipIdx.foldlM (take ids) ⟨⟨registry, .empty⟩, #[]⟩
  return .settled ⟨dumped.thread, dumped.fiber⟩ loading.profile

end Loading

namespace Searching

variable {α : Type} [Amount α]

/-- Enters a listed method, and tells which record it got. -/
def enterOne (entered : Registry α × Array MethodId) (listed : DumpedMethod α) :
    Option (Registry α × Array MethodId) := do
  let (registry, id) ← insert entered.1 listed.toRecord
  return (registry, entered.2.push id)

def enter (listed : List (DumpedMethod α)) : Option (Registry α × Array MethodId) :=
  listed.foldlM enterOne (.empty, #[])

def context (dumped : DumpedContext α) : ExceptT LoadFault Option (Context α) := .mk do
  return Loading.context (← enter dumped.methods) dumped

/-- Loads a dump, which comes to a session or a fault, or to nothing. -/
def load (dump : Dump α) : ExceptT LoadFault Option (Session α) :=
  if dump.version = dumpVersion then do
    let contexts ← dump.contexts.mapM context
    return .ofContexts dump.measureMode contexts
  else throw (.refused (.version dump.version))

end Searching

end CallLedger
