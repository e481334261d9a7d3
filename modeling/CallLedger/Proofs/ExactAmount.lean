import Mathlib
import CallLedger.Measurement

/-!
# Exact amounts

Where the time of a run goes is a law of addition, and binary floating point
does not obey it. The laws are therefore read over amounts that form a
commutative group, such as the integers and the rationals. Measurements of
exact amounts can be added in any order, and each of their four parts is a
homomorphism.
-/

namespace CallLedger

/-- Amounts that add up and cancel exactly. -/
class ExactAmount (α : Type) extends AddCommGroup α, Amount α where
  emptySum_eq : emptySum = (0 : α)

instance : ExactAmount Int where
  emptySum_eq := rfl

instance : Amount Rat where
  zero := 0
  emptySum := 0
  less a b := decide (a < b)

instance : ExactAmount Rat where
  emptySum_eq := rfl

variable {α : Type} [ExactAmount α]

theorem Amount.sum_eq (amounts : List α) : Amount.sum amounts = amounts.sum := by
  have hzero : (Amount.emptySum : α) = 0 := ExactAmount.emptySum_eq
  rw [Amount.sum, hzero, List.sum_eq_foldl]

namespace Measurement

instance : Add (Measurement α) := ⟨merge⟩

instance : Zero (Measurement α) := ⟨empty⟩

instance : AddCommMonoid (Measurement α) where
  add_assoc a b c := by
    show merge (merge a b) c = merge a (merge b c)
    simp only [merge, add_assoc]
  zero_add a := by
    show merge empty a = a
    simp only [merge, empty, zero_add]
  add_zero a := by
    show merge a empty = a
    simp only [merge, empty, add_zero]
  add_comm a b := by
    show merge a b = merge b a
    simp only [merge, add_comm]
  nsmul := nsmulRec

theorem merge_eq_add (a b : Measurement α) : a.merge b = a + b := rfl

theorem empty_eq_zero : (empty : Measurement α) = 0 := rfl

def selfPart : Measurement α →+ α where
  toFun m := m.selfTime
  map_zero' := rfl
  map_add' _ _ := rfl

def waitPart : Measurement α →+ α where
  toFun m := m.waitTime
  map_zero' := rfl
  map_add' _ _ := rfl

def totalPart : Measurement α →+ α where
  toFun m := m.totalTime
  map_zero' := rfl
  map_add' _ _ := rfl

def calledPart : Measurement α →+ Nat where
  toFun m := m.called
  map_zero' := rfl
  map_add' _ _ := rfl

end Measurement

end CallLedger
