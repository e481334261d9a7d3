import CallLedger.Links
import CallLedger.Method.Record

/-!
# Call trees

A call tree has one node for each path of calls that was seen. Nodes live in an arena and are
named by their position there; a node files its children under the keys of their methods, and
the tree its roots. Nodes are only ever added, so a node keeps its position.

Positions grow with time, so the children of a node, and the roots, stand in the order of their
first calls.

Walks go down the links of an arena that could be any value of its type. They are cut off after
as many levels as there are nodes, which no path in a tree that was built by linking new nodes
under old ones can exceed.
-/

namespace CallLedger

/-- Where a call stands in the source of the caller. -/
structure CallSite where
  file : Option String
  line : UInt32
deriving DecidableEq

/-- The call site of a node that nothing called. -/
def CallSite.none : CallSite := ⟨Option.none, 0⟩

structure Node (α : Type) where
  method : MethodId
  /-- The key of the method, under which the parent files the node. -/
  key : Key
  parent : Option NodeId
  /-- The cost along this very path. -/
  measurement : Measurement α
  /-- Where the call stood that made the node. -/
  site : CallSite
  /-- How many open frames are bound to the node, which a profiler counts in 32 bits. -/
  visits : Nat
  links : Links Key
deriving DecidableEq

namespace Node

variable {α : Type} [Amount α]

def fresh (method : MethodId) (key : Key) (parent : Option NodeId) (site : CallSite) : Node α where
  method := method
  key := key
  parent := parent
  measurement := .empty
  site := site
  visits := 0
  links := .empty

def child? (node : Node α) (key : Key) : Option NodeId := node.links.get? key

/-- The children in the order of their first calls. -/
def children (node : Node α) : List NodeId := node.links.targets

def entered (node : Node α) : Node α :=
  { node with
    measurement := { node.measurement with called := node.measurement.called + 1 }
    visits := node.visits + 1 }

/-- Settles an invocation that has ended. Inclusive cost counts when no other one is active. -/
def settled (node : Node α) (selfTime waitTime totalTime : α) : Node α :=
  { node with
    measurement :=
      { node.measurement with
        selfTime := node.measurement.selfTime + selfTime
        waitTime := node.measurement.waitTime + waitTime
        totalTime :=
          if node.visits = 1 then node.measurement.totalTime + totalTime
          else node.measurement.totalTime }
    visits := node.visits - 1 }

end Node

structure CallTree (α : Type) where
  nodes : Array (Node α)
  rootLinks : Links Key
deriving DecidableEq

namespace CallTree

variable {α : Type} [Amount α]

def empty : CallTree α := ⟨#[], .empty⟩

def size (tree : CallTree α) : Nat := tree.nodes.size

def node? (tree : CallTree α) (id : NodeId) : Option (Node α) := tree.nodes[id]?

def modify (tree : CallTree α) (id : NodeId) (change : Node α → Node α) : CallTree α :=
  { tree with nodes := tree.nodes.modify id change }

/-- The roots in the order of their first calls. -/
def roots (tree : CallTree α) : List NodeId := tree.rootLinks.targets

def root? (tree : CallTree α) (key : Key) : Option NodeId := tree.rootLinks.get? key

/-- The node for a method key under a parent, or among the roots. -/
def childOf? (tree : CallTree α) (parent : Option NodeId) (key : Key) : Option NodeId :=
  match parent with
  | some id => (tree.node? id).bind (·.child? key)
  | none => tree.root? key

def children (tree : CallTree α) (id : NodeId) : List NodeId :=
  match tree.node? id with
  | some node => node.children
  | none => []

def parent? (tree : CallTree α) (id : NodeId) : Option NodeId :=
  (tree.node? id).bind (·.parent)

/-- Adds a node and files it under its key, in the place of whatever was filed there. -/
def link (tree : CallTree α) (node : Node α) : CallTree α :=
  let id := tree.size
  let nodes := tree.nodes.push node
  match node.parent with
  | some parent =>
    { tree with
      nodes := nodes.modify parent fun p => { p with links := p.links.insert node.key id } }
  | none => { tree with nodes := nodes, rootLinks := tree.rootLinks.insert node.key id }

/-- The number of ancestors of a node, up to a bound. -/
def depthWithin (tree : CallTree α) : (bound : Nat) → NodeId → Nat
  | 0, _ => 0
  | bound + 1, id =>
    match tree.parent? id with
    | some parent => tree.depthWithin bound parent + 1
    | none => 0

/-- The distance of a node from its root. -/
def depth (tree : CallTree α) (id : NodeId) : Nat := tree.depthWithin tree.size id

/-- The subtree of a node, parents first, down to a number of levels. -/
def walkWithin (tree : CallTree α) : (levels : Nat) → NodeId → List NodeId
  | 0, _ => []
  | levels + 1, id => id :: (tree.children id).flatMap (tree.walkWithin levels)

/-- The nodes of the subtree at a node, parents first and siblings in the order of their first
calls. -/
def walk (tree : CallTree α) (id : NodeId) : List NodeId := tree.walkWithin tree.size id

def walkAll (tree : CallTree α) : List NodeId := tree.roots.flatMap tree.walk

/-- The cost of everything recorded: the sum over the roots, in the order of their first calls. A
profiler adds them in the order of a hash table, which makes no difference to exact amounts. -/
def totalTime (tree : CallTree α) : α :=
  Amount.sum (tree.roots.filterMap fun id => (tree.node? id).map (·.measurement.totalTime))

end CallTree

end CallLedger
