/-!
# Cutting a text at a separator

`pieces sep text` are the stretches of a text between its separators, empty ones included:
there is always one piece more than there are separators, and joining the pieces with the
separator gives the text back. There is no other way to cut the text (`pieces_eq_iff`).
-/

namespace CallLedger.Text

def pieces {α : Type} [DecidableEq α] (separator : α) : List α → List (List α)
  | [] => [[]]
  | c :: rest =>
    if c = separator then [] :: pieces separator rest
    else match pieces separator rest with
      | [] => [[c]]
      | piece :: more => (c :: piece) :: more

theorem pieces_ne_nil {α : Type} [DecidableEq α] (separator : α) (text : List α) :
    pieces separator text ≠ [] := by
  cases text with
  | nil => simp [pieces]
  | cons c rest =>
      rw [pieces]
      split
      · simp
      · split <;> simp

/-- Nothing is lost: the pieces, joined with the separator, are the text. -/
theorem intercalate_pieces {α : Type} [DecidableEq α] (separator : α) (text : List α) :
    [separator].intercalate (pieces separator text) = text := by
  induction text with
  | nil => rfl
  | cons c rest ih =>
      rw [pieces]
      split
      · rename_i h
        subst h
        cases hp : pieces c rest with
        | nil => exact absurd hp (pieces_ne_nil c rest)
        | cons piece more =>
            rw [hp] at ih
            simpa [List.intercalate, List.intersperse] using ih
      · cases hp : pieces separator rest with
        | nil => exact absurd hp (pieces_ne_nil separator rest)
        | cons piece more =>
            rw [hp] at ih
            rw [← ih]
            cases more <;> simp [List.intercalate, List.intersperse]

/-- The text is these pieces with a separator between them, and none inside. -/
structure Cut {α : Type} (separator : α) (text : List α) (cuts : List (List α)) : Prop where
  ne_nil : cuts ≠ []
  inside : ∀ piece ∈ cuts, separator ∉ piece
  joined : [separator].intercalate cuts = text

section

variable {α : Type} [DecidableEq α] {separator : α} {text : List α} {cuts : List (List α)}

theorem not_mem_of_mem_pieces :
    ∀ piece ∈ pieces separator text, separator ∉ piece := by
  induction text with
  | nil => simp [pieces]
  | cons c rest ih =>
      rw [pieces]
      split
      · simpa using ih
      · next hne =>
          cases hp : pieces separator rest with
          | nil => exact absurd hp (pieces_ne_nil separator rest)
          | cons piece more =>
              rw [hp] at ih
              simpa [Ne.symm hne] using ih

theorem pieces_of_not_mem (h : separator ∉ text) : pieces separator text = [text] := by
  induction text with
  | nil => rfl
  | cons c rest ih =>
      obtain ⟨hne, hrest⟩ := List.ne_and_not_mem_of_not_mem_cons h
      rw [pieces, if_neg (Ne.symm hne), ih hrest]

theorem pieces_append {piece : List α} (h : separator ∉ piece) (rest : List α) :
    pieces separator (piece ++ separator :: rest) = piece :: pieces separator rest := by
  induction piece with
  | nil => exact if_pos rfl
  | cons c piece ih =>
      obtain ⟨hne, hpiece⟩ := List.ne_and_not_mem_of_not_mem_cons h
      rw [List.cons_append, pieces, if_neg (Ne.symm hne), ih hpiece]

theorem Cut.pieces (h : Cut separator text cuts) : pieces separator text = cuts := by
  obtain ⟨hne, hinside, rfl⟩ := h
  induction cuts with
  | nil => exact absurd rfl hne
  | cons piece more ih =>
      have hpiece := hinside piece List.mem_cons_self
      cases more with
      | nil => simpa [List.intercalate] using pieces_of_not_mem hpiece
      | cons next more =>
          have hrest := ih (List.cons_ne_nil _ _) fun other hother =>
            hinside other (List.mem_cons_of_mem _ hother)
          have hjoin : [separator].intercalate (piece :: next :: more) =
              piece ++ separator :: [separator].intercalate (next :: more) := by
            simp [List.intercalate, List.intersperse]
          rw [hjoin, pieces_append hpiece, hrest]

/-- There is one way to cut a text. -/
theorem pieces_eq_iff : pieces separator text = cuts ↔ Cut separator text cuts := by
  refine ⟨?_, Cut.pieces⟩
  rintro rfl
  exact ⟨pieces_ne_nil separator text, not_mem_of_mem_pieces, intercalate_pieces separator text⟩

end

end CallLedger.Text
