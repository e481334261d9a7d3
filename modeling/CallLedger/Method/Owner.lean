/-!
# Who a method belongs to

An event names the entity through which a method was called. That may be a view of the entity
that really defines it: a module seen through a type that includes it. `Entity.resolve`
collapses all views onto the owner, and a method is an owner together with the name of a
member. Two calls are calls of the same method exactly when owner and member agree.
-/

namespace CallLedger

inductive OwnerKind where
  /-- An ordinary type or module. -/
  | plain
  /-- The singleton of a class. -/
  | classSingleton
  /-- The singleton of a module. -/
  | moduleSingleton
  /-- The singleton of an instance of the named class. -/
  | instanceSingleton
  /-- A singleton attached to anything else. -/
  | otherSingleton
deriving DecidableEq

structure Owner where
  kind : OwnerKind
  name : String
deriving DecidableEq

/-- How an event refers to an entity: by its kind, or as a module seen through an inclusion. -/
inductive EntityKind where
  | owner (kind : OwnerKind)
  | moduleInclusion
deriving DecidableEq

structure Entity where
  kind : EntityKind
  name : String
deriving DecidableEq

structure Method where
  owner : Owner
  member : String
deriving DecidableEq

namespace OwnerKind

def all : List OwnerKind :=
  [plain, classSingleton, moduleSingleton, instanceSingleton, otherSingleton]

/-- The name of the kind in events and dumps. -/
def name : OwnerKind → String
  | plain => "plain"
  | classSingleton => "class_singleton"
  | moduleSingleton => "module_singleton"
  | instanceSingleton => "instance_singleton"
  | otherSingleton => "other_singleton"

def isSingleton (kind : OwnerKind) : Bool := kind ≠ plain

/-- The number under which the kind enters a method key. -/
def code : OwnerKind → UInt64
  | plain => 0
  | classSingleton => 1
  | moduleSingleton => 2
  | instanceSingleton => 3
  | otherSingleton => 4

end OwnerKind

namespace EntityKind

def all : List EntityKind := OwnerKind.all.map owner ++ [moduleInclusion]

def name : EntityKind → String
  | owner kind => kind.name
  | moduleInclusion => "module_inclusion"

end EntityKind

/-- The owner behind a view: a module is plain, however it was reached. -/
def Entity.resolve (entity : Entity) : Owner :=
  match entity.kind with
  | .owner kind => ⟨kind, entity.name⟩
  | .moduleInclusion => ⟨.plain, entity.name⟩

/-- The owner as reports show it; singletons are bracketed and say what they belong to. -/
def Owner.displayName (owner : Owner) : String :=
  match owner.kind with
  | .plain => owner.name
  | .classSingleton => "<Class::" ++ owner.name ++ ">"
  | .moduleSingleton => "<Module::" ++ owner.name ++ ">"
  | .instanceSingleton => "<Object::" ++ owner.name ++ ">"
  | .otherSingleton => "<" ++ owner.name ++ ">"

namespace Method

def of (entity : Entity) (member : String) : Method := ⟨entity.resolve, member⟩

def fullName (method : Method) : String :=
  method.owner.displayName ++ "#" ++ method.member

end Method

end CallLedger
