import CallLedger.Method.Key

/-!
# Excluded methods

Methods whose cost is folded into their nearest caller that is not excluded. They are matched
by identity, never by key alone: a method that only shares its key with an excluded one is
recorded as usual.
-/

namespace CallLedger

structure Exclusions where
  methods : List Method
deriving DecidableEq

namespace Exclusions

def empty : Exclusions := ⟨[]⟩

def contains (exclusions : Exclusions) (method : Method) : Bool :=
  exclusions.methods.contains method

/-- Excludes a method; excluding it twice is excluding it once. -/
def insert (exclusions : Exclusions) (method : Method) : Exclusions :=
  if exclusions.contains method then exclusions else ⟨exclusions.methods ++ [method]⟩

def size (exclusions : Exclusions) : Nat := exclusions.methods.length

theorem contains_insert (exclusions : Exclusions) (method other : Method) :
    (exclusions.insert method).contains other =
      (decide (other = method) || exclusions.contains other) := by
  unfold insert
  split
  · rename_i h
    by_cases ho : other = method
    · simp [ho, h]
    · simp [ho]
  · unfold contains
    by_cases ho : other = method <;> simp [ho]

end Exclusions

end CallLedger
