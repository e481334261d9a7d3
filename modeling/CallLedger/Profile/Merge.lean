import CallLedger.Profile.Basic

/-!
# Merging profiles

One call tree is added to another along common call paths. Methods are matched by identity,
because ids and keys mean something only within one registry. Where both trees have a node its
measurements are added; a subtree that only the other tree has is copied, its methods taken over
into this registry.

Nodes that both trees have are descended into last child first, after all missing children have
been copied, and a copy is made last child first below its top. Both orders show in the
positions of the copied nodes.
-/

namespace CallLedger.Profile

variable {α : Type} [Amount α]

/-- The key under which this profile files the method of a node of the other one. -/
def keyFrom (profile other : Profile α) (node : NodeId) : Option Key := do
  let theirs ← other.methodOf? node
  let mine ← profile.methods.lookupFrom other.methods theirs
  let record ← profile.methods.record? mine
  return record.key

/-- Copies one node of the other profile under a parent. The copy takes the next position. -/
def copyNode (profile other : Profile α) (parent : Option NodeId) (node : Node α) : Profile α :=
  match other.methods.record? node.method with
  | none => profile
  | some record =>
    let (methods, method) := profile.methods.adopt record
    let attached := { profile with methods := methods }.attach parent method node.site
    attached.modifyNode profile.tree.size ({ · with measurement := node.measurement })

/-- Copies a subtree of the other profile under a parent, down to a number of levels. -/
def copyWithin (other : Profile α) :
    (levels : Nat) → Profile α → (parent : Option NodeId) → NodeId → Profile α
  | 0, profile, _, _ => profile
  | levels + 1, profile, parent, source =>
    match other.tree.node? source with
    | none => profile
    | some node =>
      let id := profile.tree.size
      node.children.reverse.foldl
        (fun profile child => copyWithin other levels profile (some id) child)
        (profile.copyNode other parent node)

def copySubtree (profile other : Profile α) (parent : Option NodeId) (source : NodeId) :
    Profile α :=
  copyWithin other other.tree.size profile parent source

/-- Adds the children of a node of the other profile to a node of this one as far as they are
missing there, and lists the pairs of children that both have, the last pair first. -/
def copyMissing (other : Profile α) (target : NodeId) :
    (sources : List NodeId) → Profile α → List (NodeId × NodeId) →
      Profile α × List (NodeId × NodeId)
  | [], profile, pairs => (profile, pairs)
  | source :: sources, profile, pairs =>
    match (profile.keyFrom other source).bind (profile.tree.childOf? (some target)) with
    | some child => copyMissing other target sources profile ((child, source) :: pairs)
    | none =>
      copyMissing other target sources (profile.copySubtree other (some target) source) pairs

/-- Adds the subtree of a node of the other profile to a node of this one, down to a number of
levels. -/
def addWithin (other : Profile α) :
    (levels : Nat) → Profile α → (target source : NodeId) → Profile α
  | 0, profile, _, _ => profile
  | levels + 1, profile, target, source =>
    match other.tree.node? source with
    | none => profile
    | some node =>
      let added := profile.modifyNode target fun mine =>
        { mine with measurement := mine.measurement.merge node.measurement }
      let (copied, pairs) := copyMissing other target node.children added []
      pairs.foldl (fun profile pair => addWithin other levels profile pair.1 pair.2) copied

/-- Whether two nodes stand for the same call: the same method, both as roots or both under
parents of the same method. -/
def corresponds (profile other : Profile α) (target source : NodeId) : Bool :=
  match profile.tree.node? target, other.tree.node? source with
  | some mine, some theirs =>
    profile.methods.lookupFrom other.methods theirs.method = some mine.method &&
      (match mine.parent, theirs.parent with
      | none, none => true
      | some myParent, some theirParent =>
        match profile.methodOf? myParent, other.methodOf? theirParent with
        | some mine, some theirs => profile.methods.lookupFrom other.methods theirs = some mine
        | _, _ => false
      | _, _ => false)
  | _, _ => false

/-- Adds the subtree of a node of the other profile to a corresponding node of this one; nodes
that do not correspond are left alone. Tells whether they did. -/
def mergeNode (profile other : Profile α) (target source : NodeId) : Profile α × Bool :=
  if profile.corresponds other target source then
    (addWithin other other.tree.size profile target source, true)
  else (profile, false)

def mergeRoot (profile other : Profile α) (source : NodeId) : Profile α :=
  match (profile.keyFrom other source).bind profile.tree.root? with
  | some mine => (profile.mergeNode other mine source).1
  | none => profile.copySubtree other none source

/-- Adds the whole call tree of the other profile, root by root. -/
def mergeTree (profile other : Profile α) : Profile α :=
  other.tree.roots.foldl (fun profile root => profile.mergeRoot other root) profile

def mergeMethod (profile : Profile α) (record : MethodRecord α) : Profile α :=
  let (methods, id) := profile.methods.adopt record
  { profile with methods := methods }.modifyMethod id (·.absorb record)

/-- Adds everything the other profile holds: its methods, then its call tree. -/
def merge (profile other : Profile α) : Profile α :=
  (other.methods.records.foldl mergeMethod profile).mergeTree other

end CallLedger.Profile
