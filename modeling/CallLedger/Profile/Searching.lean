import CallLedger.Profile.Merge

/-!
# Searching and merging, search by search

A search for a method may go around for ever, and what it is part of then comes to nothing. Here
everything that searches is written with every search that it makes, in the order in which it makes
them, and `none` is the outcome of what does not end.

The functions of the same names outside this namespace have a value in any case. They say what these
come to when they end.
-/

namespace CallLedger.Searching

variable {α : Type} [Amount α]

/-! ## Registries -/

def lookup (methods : Registry α) (method : Method) : Option (Option MethodId) := do
  match ← methods.search method with
  | .found id => return some id
  | .free _ => return none

def lookupFrom (methods other : Registry α) (id : MethodId) : Option (Option MethodId) :=
  match other.record? id with
  | some record => lookup methods record.method
  | none => some none

def insert (methods : Registry α) (record : MethodRecord α) : Option (Registry α × MethodId) := do
  match ← methods.search record.method with
  | .found id => return (methods, id)
  | .free key => return (methods.push { record with key := key }, methods.size)

def lookupOrCreate (methods : Registry α) (method : Method) (native : Bool)
    (source : Option SourceLocation) (exclusions : Exclusions) :
    Option (Registry α × MethodId) := do
  match ← methods.search method with
  | .found id => return (methods, id)
  | .free key =>
    let excluded := exclusions.contains method
    let record : MethodRecord α :=
      { MethodRecord.fresh key method with
        source := if excluded || native then none else source
        excluded := excluded }
    return (methods.push record, methods.size)

def adopt (methods : Registry α) (record : MethodRecord α) : Option (Registry α × MethodId) :=
  insert methods record.detached

/-! ## Merging -/

/-- This profile's record of the method of a node of the other one. -/
def methodFrom (profile other : Profile α) (node : NodeId) : Option (Option MethodId) :=
  match other.methodOf? node with
  | some method => lookupFrom profile.methods other.methods method
  | none => some none

def keyFrom (profile other : Profile α) (node : NodeId) : Option (Option Key) := do
  let mine ← methodFrom profile other node
  return mine.bind fun id => (profile.methods.record? id).map (·.key)

def copyNode (profile other : Profile α) (parent : Option NodeId) (node : Node α) :
    Option (Profile α) :=
  match other.methods.record? node.method with
  | none => some profile
  | some record => do
    let (methods, method) ← adopt profile.methods record
    let attached := { profile with methods := methods }.attach parent method node.site
    return attached.modifyNode profile.tree.size ({ · with measurement := node.measurement })

def copyWithin (other : Profile α) :
    (levels : Nat) → Profile α → (parent : Option NodeId) → NodeId → Option (Profile α)
  | 0, profile, _, _ => some profile
  | levels + 1, profile, parent, source =>
    match other.tree.node? source with
    | none => some profile
    | some node => do
      let copied ← copyNode profile other parent node
      node.children.reverse.foldlM
        (fun copied child => copyWithin other levels copied (some profile.tree.size) child) copied

def copySubtree (profile other : Profile α) (parent : Option NodeId) (source : NodeId) :
    Option (Profile α) :=
  copyWithin other other.tree.size profile parent source

def copyMissing (other : Profile α) (target : NodeId) :
    (sources : List NodeId) → Profile α → List (NodeId × NodeId) →
      Option (Profile α × List (NodeId × NodeId))
  | [], profile, pairs => some (profile, pairs)
  | source :: sources, profile, pairs => do
    match (← keyFrom profile other source).bind (profile.tree.childOf? (some target)) with
    | some child => copyMissing other target sources profile ((child, source) :: pairs)
    | none =>
      copyMissing other target sources (← copySubtree profile other (some target) source) pairs

def addWithin (other : Profile α) :
    (levels : Nat) → Profile α → (target source : NodeId) → Option (Profile α)
  | 0, profile, _, _ => some profile
  | levels + 1, profile, target, source =>
    match other.tree.node? source with
    | none => some profile
    | some node => do
      let added := profile.modifyNode target fun mine =>
        { mine with measurement := mine.measurement.merge node.measurement }
      let (copied, pairs) ← copyMissing other target node.children added []
      pairs.foldlM (fun profile pair => addWithin other levels profile pair.1 pair.2) copied

/-- Whether two nodes stand for the same call. The method of the other one's parent is searched for
even where there is no parent to compare it with. -/
def corresponds (profile other : Profile α) (target source : NodeId) : Option Bool :=
  match profile.tree.node? target, other.tree.node? source with
  | some mine, some theirs => do
    let method ← lookupFrom profile.methods other.methods theirs.method
    if method = some mine.method then
      match theirs.parent with
      | none => return mine.parent.isNone
      | some theirParent =>
        let caller ← methodFrom profile other theirParent
        return caller.isSome && mine.parent.any fun myParent => profile.methodOf? myParent = caller
    else return false
  | _, _ => return false

def mergeNode (profile other : Profile α) (target source : NodeId) :
    Option (Profile α × Bool) := do
  if ← corresponds profile other target source then
    return (← addWithin other other.tree.size profile target source, true)
  else return (profile, false)

def mergeRoot (profile other : Profile α) (source : NodeId) : Option (Profile α) := do
  match (← keyFrom profile other source).bind profile.tree.root? with
  | some mine => return (← mergeNode profile other mine source).1
  | none => copySubtree profile other none source

def mergeTree (profile other : Profile α) : Option (Profile α) :=
  other.tree.roots.foldlM (fun profile root => mergeRoot profile other root) profile

def mergeMethod (profile : Profile α) (record : MethodRecord α) : Option (Profile α) := do
  let (methods, id) ← adopt profile.methods record
  return { profile with methods := methods }.modifyMethod id (·.absorb record)

def merge (profile other : Profile α) : Option (Profile α) := do
  let known ← other.methods.records.foldlM mergeMethod profile
  mergeTree known other

end CallLedger.Searching
