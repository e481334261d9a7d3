import CallLedger.CallTree.Basic
import CallLedger.Method.Registry

/-!
# Profiles

The profile of a context is its method registry together with its call tree. The two describe
the same calls from two sides, by method and by call path, so everything that happens to one of
them here happens to the other: a new node is entered in the list of its method, an invocation
is counted in both, and its cost is settled into both.
-/

namespace CallLedger

structure Profile (α : Type) where
  methods : Registry α
  tree : CallTree α
deriving DecidableEq

namespace Profile

variable {α : Type} [Amount α]

def empty : Profile α := ⟨.empty, .empty⟩

def modifyMethod (profile : Profile α) (id : MethodId)
    (change : MethodRecord α → MethodRecord α) : Profile α :=
  { profile with methods := profile.methods.modify id change }

def modifyNode (profile : Profile α) (id : NodeId) (change : Node α → Node α) : Profile α :=
  { profile with tree := profile.tree.modify id change }

/-- Adds a node for a method under a parent, or as a root. The node takes the next position. -/
def attach (profile : Profile α) (parent : Option NodeId) (method : MethodId) (site : CallSite) :
    Profile α :=
  match profile.methods.record? method with
  | none => profile
  | some record =>
    { methods :=
        profile.methods.modify method fun r => { r with nodes := r.nodes.push profile.tree.size }
      tree := profile.tree.link (.fresh method record.key parent site) }

/-- The node for a method under a parent, or among the roots; made on the first call. -/
def child (profile : Profile α) (parent : Option NodeId) (method : MethodId) (site : CallSite) :
    Profile α × NodeId :=
  let existing := do
    let record ← profile.methods.record? method
    profile.tree.childOf? parent record.key
  match existing with
  | some id => (profile, id)
  | none => (profile.attach parent method site, profile.tree.size)

def enter (profile : Profile α) (node : NodeId) (method : MethodId) : Profile α :=
  (profile.modifyNode node Node.entered).modifyMethod method MethodRecord.entered

def settle (profile : Profile α) (node : NodeId) (method : MethodId)
    (selfTime waitTime totalTime : α) : Profile α :=
  (profile.modifyMethod method (·.settled selfTime waitTime totalTime)).modifyNode node
    (·.settled selfTime waitTime totalTime)

def methodOf? (profile : Profile α) (id : NodeId) : Option MethodId :=
  (profile.tree.node? id).map (·.method)

end Profile

end CallLedger
