/-!
# Blank characters

The characters with the Unicode property `White_Space`, and trimming them off both ends of a
text. Thread lists are trimmed with them, and a line of an event file that holds nothing else
is skipped.
-/

namespace CallLedger.Text

/-- The ranges of the Unicode property `White_Space`, bounds included. -/
def blankRanges : List (Nat × Nat) :=
  [(0x09, 0x0D), (0x20, 0x20), (0x85, 0x85), (0xA0, 0xA0), (0x1680, 0x1680), (0x2000, 0x200A),
   (0x2028, 0x2029), (0x202F, 0x202F), (0x205F, 0x205F), (0x3000, 0x3000)]

def isBlank (c : Char) : Bool :=
  blankRanges.any fun (first, last) => first ≤ c.toNat && c.toNat ≤ last

/-- The text without the blank characters at its ends. -/
def trim (text : List Char) : List Char :=
  ((text.dropWhile isBlank).reverse.dropWhile isBlank).reverse

/-- What is left of a text between the blank characters at its ends. -/
structure Trims (text inner : List Char) : Prop where
  around : ∃ before after, text = before ++ inner ++ after ∧ before.all isBlank ∧
    after.all isBlank
  head : ∀ c, inner.head? = some c → isBlank c = false
  last : ∀ c, inner.getLast? = some c → isBlank c = false

theorem not_isBlank_of_head?_dropWhile (text : List Char) {c : Char}
    (h : (text.dropWhile isBlank).head? = some c) : isBlank c = false := by
  have hhead := text.head?_dropWhile_not isBlank
  rw [h] at hhead
  exact hhead

theorem dropWhile_isBlank_of_head? (text : List Char)
    (h : ∀ c, text.head? = some c → isBlank c = false) : text.dropWhile isBlank = text := by
  cases text with
  | nil => rfl
  | cons c rest => exact List.dropWhile_cons_of_neg (by simp [h c rfl])

theorem Trims.trim {text inner : List Char} (h : Trims text inner) : trim text = inner := by
  obtain ⟨⟨before, after, rfl, hbefore, hafter⟩, hhead, hlast⟩ := h
  rw [List.all_eq_true] at hbefore hafter
  have hback : ∀ c ∈ after.reverse, isBlank c = true := fun c hc =>
    hafter c (List.mem_reverse.mp hc)
  rw [Text.trim, List.append_assoc, List.dropWhile_append_of_pos hbefore]
  cases inner with
  | nil =>
      rw [List.nil_append, ← List.append_nil after, List.dropWhile_append_of_pos hafter]
      rfl
  | cons c rest =>
      rw [dropWhile_isBlank_of_head? (c :: rest ++ after) hhead, List.reverse_append,
        List.dropWhile_append_of_pos hback, dropWhile_isBlank_of_head? (c :: rest).reverse,
        List.reverse_reverse]
      rwa [List.head?_reverse]

theorem trims_trim (text : List Char) : Trims text (trim text) := by
  have hfront : text.takeWhile isBlank ++ text.dropWhile isBlank = text :=
    List.takeWhile_append_dropWhile
  generalize hrest : text.dropWhile isBlank = rest at hfront
  have hback : trim text ++ (rest.reverse.takeWhile isBlank).reverse = rest := by
    rw [trim, hrest, ← List.reverse_append, List.takeWhile_append_dropWhile, List.reverse_reverse]
  refine ⟨⟨text.takeWhile isBlank, (rest.reverse.takeWhile isBlank).reverse, ?_,
    List.all_takeWhile, ?_⟩, fun c hc => ?_, fun c hc => ?_⟩
  · rw [List.append_assoc, hback, hfront]
  · rw [List.all_reverse]
    exact List.all_takeWhile
  · refine not_isBlank_of_head?_dropWhile text ?_
    rw [hrest, ← hback, List.head?_append, hc]
    rfl
  · rw [trim, List.getLast?_reverse] at hc
    exact not_isBlank_of_head?_dropWhile rest.reverse (hrest ▸ hc)

/-- There is one way to trim a text. -/
theorem trim_eq_iff {text inner : List Char} : trim text = inner ↔ Trims text inner :=
  ⟨fun h => h ▸ trims_trim text, Trims.trim⟩

end CallLedger.Text
