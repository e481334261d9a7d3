import CallLedger.Profile.Basic

/-!
# Callers and callees

The cost that flows between methods, with the call paths summed away: the edges into a method
grouped by calling method, and the edges out of it grouped by called method. The most expensive
edge comes first, and of equally expensive ones that of the earlier method.
-/

namespace CallLedger

/-- The cost of all calls between a method and one other. -/
structure Edge (α : Type) where
  method : MethodId
  measurement : Measurement α
deriving DecidableEq

namespace Edge

variable {α : Type} [Amount α]

/-- Adds a measurement to the edge of a method, which starts from nothing. -/
def add (edges : List (Edge α)) (method : MethodId) (measurement : Measurement α) :
    List (Edge α) :=
  match edges with
  | [] => [⟨method, Measurement.empty.merge measurement⟩]
  | edge :: rest =>
    if edge.method = method then
      { edge with measurement := edge.measurement.merge measurement } :: rest
    else edge :: add rest method measurement

/-- One edge for each method that is named, with the sum of what it is named with. -/
def group (costs : List (MethodId × Measurement α)) : List (Edge α) :=
  costs.foldl (fun edges cost => add edges cost.1 cost.2) []

/-- Whether an edge may stand before another in a report. -/
def precedes (a b : Edge α) : Bool :=
  if Amount.less b.measurement.totalTime a.measurement.totalTime then true
  else if Amount.less a.measurement.totalTime b.measurement.totalTime then false
  else a.method ≤ b.method

def ranked (edges : List (Edge α)) : List (Edge α) := edges.mergeSort precedes

end Edge

namespace Profile

variable {α : Type} [Amount α]

def nodesOf (profile : Profile α) (method : MethodId) : List NodeId :=
  match profile.methods.record? method with
  | some record => record.nodes.toList
  | none => []

/-- A caller of a node and what the node cost, unless the node is a root. -/
def callInto (profile : Profile α) (id : NodeId) : Option (MethodId × Measurement α) := do
  let node ← profile.tree.node? id
  let parent ← node.parent
  let caller ← profile.methodOf? parent
  return (caller, node.measurement)

/-- The callees of a node and what each child cost. -/
def callsFrom (profile : Profile α) (id : NodeId) : List (MethodId × Measurement α) :=
  (profile.tree.children id).filterMap fun child =>
    (profile.tree.node? child).map fun node => (node.method, node.measurement)

/-- What a method cost its callers, by calling method. -/
def callers (profile : Profile α) (method : MethodId) : List (Edge α) :=
  Edge.ranked (Edge.group ((profile.nodesOf method).filterMap profile.callInto))

/-- What a method spent in its callees, by called method. -/
def callees (profile : Profile α) (method : MethodId) : List (Edge α) :=
  Edge.ranked (Edge.group ((profile.nodesOf method).flatMap profile.callsFrom))

end Profile

end CallLedger
