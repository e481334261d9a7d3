import CallLedger.Context.Basic
import CallLedger.ThreadFilter

/-!
# The table of contexts

A session keeps its contexts in slots. A handle is the number of a slot; slots are never used
again, so a handle leads to the context it was given for or, once that is released, to nothing.
An index finds the slot of a context by its key.

The table remembers which context was active last. When an event comes from another one, the
wait of that one ends and a wait of the last one begins.
-/

namespace CallLedger

/-- The number of a slot. -/
abbrev Handle := Nat

structure ContextTable (α : Type) where
  slots : Array (Option (Context α))
  index : Links ContextKey
  /-- The slot that was active last. -/
  last : Option Handle
deriving DecidableEq

namespace ContextTable

variable {α : Type} [Amount α]

def empty : ContextTable α := ⟨#[], .empty, none⟩

/-- The context in a slot, unless it has been released or was never there. -/
def get? (table : ContextTable α) (handle : Handle) : Option (Context α) :=
  table.slots[handle]?.join

def find? (table : ContextTable α) (key : ContextKey) : Option Handle := table.index.get? key

/-- Changes the context in a slot, if there is one. -/
def modify (table : ContextTable α) (handle : Handle) (change : Context α → Context α) :
    ContextTable α :=
  { table with slots := table.slots.modify handle (·.map change) }

/-- Puts a context into a new slot, the next one. -/
def insert (table : ContextTable α) (context : Context α) : ContextTable α :=
  { table with
    slots := table.slots.push (some context)
    index := table.index.insert context.key table.slots.size }

/-- Hands activity over to a slot: its wait ends, and one of the slot that was active begins. -/
def switchTo (table : ContextTable α) (handle : Handle) (now : α) : ContextTable α :=
  let resumed := table.modify handle (·.switchIn now)
  let waiting :=
    match table.last with
    | some last => resumed.modify last (·.switchOut now)
    | none => resumed
  { waiting with last := some handle }

/-- The slot for a context, which is made on first sight. Only then is the filter asked. -/
def slotFor (table : ContextTable α) (key : ContextKey) (filter : ThreadFilter)
    (capacity : Nat) : ContextTable α × Handle :=
  match table.find? key with
  | some handle => (table, handle)
  | none => (table.insert (.fresh key (filter.traces key.thread) capacity), table.slots.size)

/-- The slot that was active last, if it holds the named context. -/
def active? (table : ContextTable α) (key : ContextKey) : Option Handle :=
  table.last.filter fun last => (table.get? last).any fun context => context.key = key

def activate (table : ContextTable α) (key : ContextKey) (now : α) (filter : ThreadFilter)
    (capacity : Nat) : ContextTable α × Handle :=
  match table.active? key with
  | some handle => (table, handle)
  | none =>
    let (table, handle) := table.slotFor key filter capacity
    (table.switchTo handle now, handle)

def release (table : ContextTable α) (handle : Handle) : ContextTable α :=
  match table.get? handle with
  | none => table
  | some context =>
    { slots := table.slots.modify handle fun _ => none
      index := table.index.erase context.key
      last := if table.last = some handle then none else table.last }

/-- Forgets which context was active last. -/
def resetLast (table : ContextTable α) : ContextTable α := { table with last := none }

def releaseAll (table : ContextTable α) : ContextTable α where
  slots := table.slots.map fun _ => none
  index := .empty
  last := none

/-- The contexts that have not been released, with their handles. -/
def live (table : ContextTable α) : List (Handle × Context α) :=
  (List.range table.slots.size).filterMap fun handle =>
    (table.get? handle).map fun context => (handle, context)

/-- The live contexts that are traced. -/
def traced (table : ContextTable α) : List (Handle × Context α) :=
  table.live.filter fun entry => entry.2.traced

def handles (table : ContextTable α) : List Handle := table.live.map (·.1)

def mapLive (table : ContextTable α) (change : Context α → Context α) : ContextTable α :=
  { table with slots := table.slots.map (·.map change) }

/-- The number of contexts that can be found by key. -/
def size (table : ContextTable α) : Nat := table.index.size

end ContextTable

end CallLedger
