/-!
# Links: numbers filed under keys

A small index: every key is filed at most once, and filing it again replaces what was there and
moves it to the end. Arena positions are handed out in increasing order, so the links of a call
tree list their targets in increasing order as well, that is, by first call.
-/

namespace CallLedger

structure Links (κ : Type) where
  entries : List (κ × Nat)
deriving DecidableEq

namespace Links

variable {κ : Type} [DecidableEq κ]

def empty : Links κ := ⟨[]⟩

def get? (links : Links κ) (key : κ) : Option Nat :=
  (links.entries.find? fun entry => entry.1 = key).map (·.2)

def erase (links : Links κ) (key : κ) : Links κ :=
  ⟨links.entries.filter fun entry => entry.1 ≠ key⟩

/-- Files a target under a key, in the last place. -/
def insert (links : Links κ) (key : κ) (target : Nat) : Links κ :=
  ⟨(links.erase key).entries ++ [(key, target)]⟩

/-- What is filed, in filing order. -/
def targets (links : Links κ) : List Nat := links.entries.map (·.2)

def size (links : Links κ) : Nat := links.entries.length

theorem get?_empty (key : κ) : (empty : Links κ).get? key = none := rfl

theorem get?_erase (links : Links κ) (key other : κ) :
    (links.erase key).get? other = if other = key then none else links.get? other := by
  obtain ⟨entries⟩ := links
  unfold get? erase
  split
  · subst_vars
    simp [List.find?_eq_none]
  · rename_i h
    congr 1
    induction entries with
    | nil => rfl
    | cons entry rest ih =>
        by_cases he : entry.1 = key
        · have : ¬ entry.1 = other := fun ho => h (ho ▸ he)
          simp_all
        · by_cases ho : entry.1 = other <;> simp_all

theorem get?_insert (links : Links κ) (key other : κ) (target : Nat) :
    (links.insert key target).get? other =
      if other = key then some target else links.get? other := by
  have h := get?_erase links key other
  by_cases ho : other = key
  · subst ho
    rw [if_pos rfl] at h ⊢
    have hnone : (links.erase other).entries.find? (fun entry => entry.1 = other) = none :=
      Option.map_eq_none_iff.mp h
    unfold get? insert
    rw [List.find?_append, hnone]
    simp
  · have hk : ¬ key = other := fun hk => ho hk.symm
    rw [if_neg ho] at h ⊢
    rw [← h]
    unfold get? insert
    rw [List.find?_append]
    simp [hk]

end Links

end CallLedger
