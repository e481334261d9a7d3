import Mathlib
import CallLedger.Json.Reader
import CallLedger.Json.Writer

/-!
# Numbers and strings in JSON

A number ends where something stands that no number goes on with. Behind a value there is nothing,
a blank, a comma or a closing bracket (`ends`), so the reader of numbers stops there, and what it
reads off a text alone it reads off the text with more behind it (`readNumber_append`). Of a whole
number that fits into 64 bits it reads the digits that were written; none is written with a zero in
front, which the reader would refuse.

A character of a string is written as itself, as a letter behind a backslash or as four digits, and
each form is cut off the string as one piece that stands for the character (`readPieces_escaped`).
The four digits are for control characters only, so no piece is half of a surrogate pair.
-/

namespace CallLedger

namespace Json

/-! ## Blanks and ends -/

/-- What may stand behind a value: nothing, a blank, a comma or a closing bracket. -/
def ends : List Char → Bool
  | [] => true
  | c :: _ => isSpace c || c = ',' || c = ']' || c = '}'

theorem head?_ne_of_ends {rest : List Char} (h : ends rest = true) {c : Char}
    (hc : ends [c] = false) : rest.head? ≠ some c := by
  cases rest with
  | nil => nofun
  | cons d rest =>
      rintro ⟨⟩
      exact absurd (hc.symm.trans h) Bool.false_ne_true

theorem head?_append_ne {text rest : List Char} (h : ends rest = true) {c : Char}
    (hc : ends [c] = false) (htext : text.head? ≠ some c) : (text ++ rest).head? ≠ some c := by
  cases text with
  | nil => exact head?_ne_of_ends h hc
  | cons d text => exact htext

theorem skipSpace_append {gap : List Char} (h : gap.all isSpace = true) (text : List Char) :
    skipSpace (gap ++ text) = skipSpace text :=
  List.dropWhile_append_of_pos (List.all_eq_true.mp h)

theorem skipSpace_cons {c : Char} (h : isSpace c = false) (text : List Char) :
    skipSpace (c :: text) = c :: text := by
  rw [skipSpace, List.dropWhile_cons_of_neg (by rw [h]; exact Bool.false_ne_true)]

/-! ## Numbers -/

theorem takeDigits_append {rest : List Char} (h : ends rest = true) (text : List Char) :
    takeDigits (text ++ rest) = ((takeDigits text).1, (takeDigits text).2 ++ rest) := by
  induction text with
  | nil =>
      cases rest with
      | nil => rfl
      | cons c rest =>
          have hdigit : c.isDigit = false := by
            simp only [ends, isSpace, Bool.or_eq_true, decide_eq_true_eq] at h
            rcases h with (((((rfl | rfl) | rfl) | rfl) | rfl) | rfl) | rfl <;> rfl
          simp [takeDigits, hdigit]
  | cons c text ih =>
      simp only [takeDigits, List.cons_append, List.takeWhile_cons, List.dropWhile_cons] at ih ⊢
      cases c.isDigit <;> simp_all

theorem readWhole_append {rest : List Char} (h : ends rest = true) (text : List Char) :
    readWhole (text ++ rest) =
      (readWhole text).map fun (digits, left) => (digits, left ++ rest) := by
  unfold readWhole
  rw [takeDigits_append h]
  rcases takeDigits text with ⟨_ | ⟨d, _ | ⟨e, digits⟩⟩, left⟩
  · rfl
  · rfl
  · cases d <;> rfl

theorem readFraction_of_ne {text : List Char} (h : text.head? ≠ some '.') :
    readFraction text = some (none, text) := by
  unfold readFraction
  split
  · exact absurd rfl h
  · rfl

theorem readFraction_append {rest : List Char} (h : ends rest = true) (text : List Char) :
    readFraction (text ++ rest) =
      (readFraction text).map fun (digits, left) => (digits, left ++ rest) := by
  by_cases hpoint : text.head? = some '.'
  · obtain ⟨text, rfl⟩ := List.head?_eq_some_iff.mp hpoint
    rw [List.cons_append, readFraction, takeDigits_append h, readFraction]
    rcases takeDigits text with ⟨_ | ⟨d, digits⟩, left⟩ <;> rfl
  · rw [readFraction_of_ne hpoint, readFraction_of_ne (head?_append_ne h rfl hpoint)]
    rfl

theorem readExponentDigits_of_ne {text : List Char} (h : text.head? ≠ some '+')
    (h' : text.head? ≠ some '-') : readExponentDigits text =
      match takeDigits text with
      | ([], _) => none
      | (digits, rest) =>
        some ((digits.foldl (fun n digit => 10 * n + digit) 0 : Nat), rest) := by
  unfold readExponentDigits
  split
  next negative unsigned heq =>
  split at heq
  · exact absurd rfl h
  · exact absurd rfl h'
  · cases heq
    rfl

theorem readExponentDigits_append {rest : List Char} (h : ends rest = true) (text : List Char) :
    readExponentDigits (text ++ rest) =
      (readExponentDigits text).map fun (n, left) => (n, left ++ rest) := by
  by_cases hplus : text.head? = some '+'
  · obtain ⟨text, rfl⟩ := List.head?_eq_some_iff.mp hplus
    simp only [List.cons_append, readExponentDigits, takeDigits_append h]
    rcases takeDigits text with ⟨_ | ⟨d, digits⟩, left⟩ <;> rfl
  by_cases hminus : text.head? = some '-'
  · obtain ⟨text, rfl⟩ := List.head?_eq_some_iff.mp hminus
    simp only [List.cons_append, readExponentDigits, takeDigits_append h]
    rcases takeDigits text with ⟨_ | ⟨d, digits⟩, left⟩ <;> rfl
  · rw [readExponentDigits_of_ne hplus hminus, readExponentDigits_of_ne
      (head?_append_ne h rfl hplus) (head?_append_ne h rfl hminus), takeDigits_append h]
    rcases takeDigits text with ⟨_ | ⟨d, digits⟩, left⟩ <;> rfl

theorem readExponent_of_ne {text : List Char} (h : text.head? ≠ some 'e')
    (h' : text.head? ≠ some 'E') : readExponent text = some (none, text) := by
  unfold readExponent
  split
  · exact absurd rfl h
  · exact absurd rfl h'
  · rfl

theorem readExponent_append {rest : List Char} (h : ends rest = true) (text : List Char) :
    readExponent (text ++ rest) =
      (readExponent text).map fun (n, left) => (n, left ++ rest) := by
  by_cases hsmall : text.head? = some 'e'
  · obtain ⟨text, rfl⟩ := List.head?_eq_some_iff.mp hsmall
    rw [List.cons_append, readExponent, readExponentDigits_append h, readExponent]
    cases readExponentDigits text <;> rfl
  by_cases hlarge : text.head? = some 'E'
  · obtain ⟨text, rfl⟩ := List.head?_eq_some_iff.mp hlarge
    rw [List.cons_append, readExponent, readExponentDigits_append h, readExponent]
    cases readExponentDigits text <;> rfl
  · rw [readExponent_of_ne hsmall hlarge, readExponent_of_ne (head?_append_ne h rfl hsmall)
      (head?_append_ne h rfl hlarge)]
    rfl

/-- Reads a literal behind its sign. -/
def readUnsigned (negative : Bool) (text : List Char) :
    Option (Decimal.Literal × List Char) := do
  let (whole, text) ← readWhole text
  let (fraction, text) ← readFraction text
  let (exponent, text) ← readExponent text
  return (⟨negative, whole, fraction.getD [], exponent.getD 0,
    fraction.isSome || exponent.isSome⟩, text)

theorem readLiteral_minus (text : List Char) :
    readLiteral ('-' :: text) = readUnsigned true text := rfl

theorem readLiteral_of_ne {text : List Char} (h : text.head? ≠ some '-') :
    readLiteral text = readUnsigned false text := by
  unfold readLiteral
  split
  next negative unsigned heq =>
  split at heq
  · exact absurd rfl h
  · cases heq
    rfl

theorem readUnsigned_append {rest : List Char} (h : ends rest = true) (negative : Bool)
    (text : List Char) : readUnsigned negative (text ++ rest) =
      (readUnsigned negative text).map fun (literal, left) => (literal, left ++ rest) := by
  simp only [readUnsigned, Option.bind_eq_bind]
  rw [readWhole_append h]
  rcases readWhole text with _ | ⟨whole, text⟩
  · rfl
  simp only [Option.map_some, Option.bind_some]
  rw [readFraction_append h]
  rcases readFraction text with _ | ⟨fraction, text⟩
  · rfl
  simp only [Option.map_some, Option.bind_some]
  rw [readExponent_append h]
  rcases readExponent text with _ | ⟨exponent, text⟩ <;> rfl

theorem readLiteral_append {rest : List Char} (h : ends rest = true) (text : List Char) :
    readLiteral (text ++ rest) =
      (readLiteral text).map fun (literal, left) => (literal, left ++ rest) := by
  by_cases hminus : text.head? = some '-'
  · obtain ⟨text, rfl⟩ := List.head?_eq_some_iff.mp hminus
    exact readUnsigned_append h true text
  · rw [readLiteral_of_ne hminus, readLiteral_of_ne (head?_append_ne h rfl hminus),
      readUnsigned_append h]

/-- Reads a number. -/
def readNumber (text : List Char) : Option (Data × List Char) :=
  (readLiteral text).map fun (literal, rest) => (ofLiteral literal, rest)

theorem readNumber_append {text rest : List Char} {data : Data} (h : ends rest = true)
    (hread : readNumber text = some (data, [])) :
    readNumber (text ++ rest) = some (data, rest) := by
  unfold readNumber at hread ⊢
  rw [readLiteral_append h]
  rcases hliteral : readLiteral text with _ | ⟨literal, left⟩
  · rw [hliteral] at hread
    contradiction
  · rw [hliteral] at hread
    cases hread
    rfl

/-- A number starts with its sign or a digit. -/
theorem head_of_readNumber {text : List Char} {read : Data × List Char}
    (h : readNumber text = some read) :
    ∃ c rest, text = c :: rest ∧ (c = '-' ∨ c.isDigit = true) := by
  cases text with
  | nil => cases h
  | cons c rest =>
      refine ⟨c, rest, rfl, ?_⟩
      by_cases hminus : c = '-'
      · exact .inl hminus
      · refine .inr ?_
        by_cases hdigit : c.isDigit = true
        · exact hdigit
        · have hwhole : readWhole (c :: rest) = none := by
            simp [readWhole, takeDigits, List.takeWhile_cons_of_neg hdigit]
          rw [readNumber, readLiteral_of_ne (by simpa using hminus), readUnsigned, hwhole] at h
          cases h

/-! ### Whole numbers -/

theorem takeDigits_digits (n : Nat) :
    takeDigits (Decimal.digits n) = ((Decimal.digits n).map digitValue, []) := by
  have hall : ∀ c ∈ Decimal.digits n, c.isDigit = true := fun c hc =>
    Nat.isDigit_of_mem_toDigits (by decide) (by decide) hc
  rw [takeDigits, List.takeWhile_eq_self_iff.mpr hall, List.dropWhile_eq_nil_iff.mpr hall]

/-- A number is not written with a zero in front of other digits. -/
theorem head_digits {n : Nat} (h : 0 < n) :
    ∃ c rest, Decimal.digits n = c :: rest ∧ digitValue c ≠ 0 := by
  induction n using Nat.base_induction 10 (by decide) with
  | single m hm =>
      refine ⟨m.digitChar, [], Nat.toDigits_of_lt_base hm, ?_⟩
      have hvalue : digitValue m.digitChar = m := Nat.toNat_digitChar_sub_48_of_lt_ten hm
      omega
  | digit m k hk hm ih =>
      obtain ⟨c, rest, hdigits, hc⟩ := ih hm
      refine ⟨c, rest ++ Decimal.digits k, ?_, hc⟩
      rw [Decimal.digits, ← Nat.toDigits_append_toDigits (by decide) hm hk, ← List.cons_append,
        ← hdigits]
      rfl

theorem readWhole_digits (n : Nat) :
    readWhole (Decimal.digits n) = some ((Decimal.digits n).map digitValue, []) := by
  unfold readWhole
  rw [takeDigits_digits]
  by_cases hn : 0 < n
  · obtain ⟨c, rest, hdigits, hc⟩ := head_digits hn
    rw [hdigits, List.map_cons]
    obtain ⟨d, hd⟩ := Nat.exists_eq_succ_of_ne_zero hc
    rw [hd]
    cases rest <;> rfl
  · rw [Nat.le_zero.mp (Nat.not_lt.mp hn)]
    rfl

theorem readUnsigned_digits (negative : Bool) (n : Nat) :
    readUnsigned negative (Decimal.digits n) =
      some (⟨negative, (Decimal.digits n).map digitValue, [], 0, false⟩, []) := by
  rw [readUnsigned, readWhole_digits]
  rfl

/-- The digits of a number write that number. -/
theorem foldl_digits (n : Nat) :
    ((Decimal.digits n).map digitValue).foldl (fun n digit => 10 * n + digit) 0 = n := by
  rw [List.foldl_map]
  exact Nat.ofDigitChars_ten_toDigits

theorem ofLiteral_whole {literal : Decimal.Literal} {n : Int} (h : literal.whole? = some n)
    (hrange : n < UInt64.size ∧ -Nat.pow 2 63 ≤ n) (hzero : ¬ (n = 0 ∧ literal.negative = true)) :
    ofLiteral literal = .int n := by
  unfold ofLiteral
  rw [h]
  exact if_pos ⟨hrange.1, hrange.2, hzero⟩

theorem readNumber_ofInt {n : Int} (hlow : -2 ^ 63 ≤ n) (hhigh : n < 2 ^ 64) :
    readNumber (Decimal.ofInt n) = some (.int n, []) := by
  cases n with
  | ofNat n =>
      have hplus : (Decimal.digits n).head? ≠ some '-' := by
        intro hhead
        have hdigit := Nat.isDigit_of_mem_toDigits (by decide) (by decide)
          (List.mem_of_head? hhead)
        exact absurd hdigit (by decide)
      have hwhole : Decimal.Literal.whole? ⟨false, (Decimal.digits n).map digitValue, [], 0,
          false⟩ = some (.ofNat n) := by
        simp [Decimal.Literal.whole?, foldl_digits]
      rw [Decimal.ofInt, readNumber, readLiteral_of_ne hplus, readUnsigned_digits,
        Option.map_some]
      exact congrArg (fun data => some (data, []))
        (ofLiteral_whole hwhole ⟨hhigh, hlow⟩ (by simp))
  | negSucc n =>
      have hwhole : Decimal.Literal.whole? ⟨true, (Decimal.digits (n + 1)).map digitValue, [], 0,
          false⟩ = some (.negSucc n) := by
        simp [Decimal.Literal.whole?, foldl_digits]
        omega
      rw [Decimal.ofInt, readNumber, readLiteral_minus, readUnsigned_digits,
        Option.map_some]
      exact congrArg (fun data => some (data, []))
        (ofLiteral_whole hwhole ⟨hhigh, hlow⟩ (by omega))

/-! ## Strings -/

theorem hexValue?_hexDigit : ∀ n < 16, Text.hexValue? (Text.hexDigit n) = some n := by decide

theorem ofHex?_hexOf {width n : Nat} (h : n < 16 ^ width) :
    Text.ofHex? (Text.hexOf width n) = some n := by
  induction width generalizing n with
  | zero =>
      rw [Nat.pow_zero, Nat.lt_one_iff] at h
      rw [h]
      rfl
  | succ width ih =>
      have hhigh : n / 16 < 16 ^ width := Nat.div_lt_of_lt_mul (by rw [Nat.pow_succ] at h; omega)
      have hread := ih hhigh
      unfold Text.ofHex? at hread ⊢
      rw [Text.hexOf, List.foldlM_append, hread]
      simp [hexValue?_hexDigit (n % 16) (by omega)]
      omega

/-- A piece in front of those that are read. -/
def prepend (piece : Piece) (read : Option (List Piece × List Char)) :
    Option (List Piece × List Char) :=
  read.map fun (pieces, rest) => (piece :: pieces, rest)

theorem readPieces_letter {letter c : Char} (h : unescaped? letter = some c) (rest : List Char) :
    readPieces ('\\' :: letter :: rest) = prepend (.char c) (readPieces rest) := by
  have hletter : letter ≠ 'u' := by
    rintro rfl
    cases h
  rw [readPieces, h]
  · cases readPieces rest <;> rfl
  · intro a b d e more heq
    exact absurd heq hletter

theorem readPieces_unit {a b c d : Char} {n : Nat} (h : Text.ofHex? [a, b, c, d] = some n)
    (rest : List Char) : readPieces ('\\' :: 'u' :: a :: b :: c :: d :: rest) =
      prepend (.unit n) (readPieces rest) := by
  rw [readPieces, h]
  cases readPieces rest <;> rfl

theorem readPieces_plain {c : Char} (hquote : c ≠ '"') (hslash : c ≠ '\\') (hlow : ¬ c < ' ')
    (rest : List Char) : readPieces (c :: rest) = prepend (.char c) (readPieces rest) := by
  rw [readPieces]
  · rw [if_neg (by simp [hlow, hslash])]
    cases readPieces rest <;> rfl
  · exact fun h => hquote h
  · exact fun a b d e more heq => absurd heq hslash
  · exact fun d more heq => absurd heq hslash

/-- What a character is cut into: control characters without a letter are written as units. -/
def pieceOf (c : Char) : Piece :=
  if c < ' ' ∧ c ∉ ['\x08', '\x0c', '\n', '\r', '\t'] then .unit c.toNat else .char c

theorem readPieces_escaped (c : Char) (rest : List Char) :
    readPieces (escaped c ++ rest) = prepend (pieceOf c) (readPieces rest) := by
  unfold escaped
  split
  · exact readPieces_letter rfl rest
  · exact readPieces_letter rfl rest
  · exact readPieces_letter rfl rest
  · exact readPieces_letter rfl rest
  · exact readPieces_letter rfl rest
  · exact readPieces_letter rfl rest
  · exact readPieces_letter rfl rest
  · next hquote hslash hb hf hn hr ht =>
      split
      · next hlow =>
          have hpiece : pieceOf c = .unit c.toNat := by
            rw [pieceOf, if_pos]
            simp only [List.mem_cons, List.not_mem_nil, or_false, not_or]
            exact ⟨hlow, hb, hf, hn, hr, ht⟩
          rw [hpiece]
          have hsmall : c.toNat < 32 := hlow
          exact readPieces_unit (ofHex?_hexOf (by omega : c.toNat < 16 ^ 4)) rest
      · next hlow =>
          have hpiece : pieceOf c = .char c := by rw [pieceOf, if_neg fun h => hlow h.1]
          rw [hpiece]
          exact readPieces_plain hquote hslash hlow rest

theorem assembleAfter_pieceOf (c : Char) (pieces : List Piece) :
    assembleAfter none (pieceOf c :: pieces) = (assembleAfter none pieces).map (c :: ·) := by
  unfold pieceOf
  split
  · next hlow =>
      have hsmall : c.toNat < 32 := hlow.1
      have hhigh : isHighSurrogate c.toNat = false := by simp [isHighSurrogate]; omega
      have hlow : isLowSurrogate c.toNat = false := by simp [isLowSurrogate]; omega
      simp [assembleAfter, hhigh, hlow, Char.ofNat_toNat]
  · rfl

theorem readPieces_quoted (characters rest : List Char) :
    readPieces (characters.flatMap escaped ++ '"' :: rest) =
      some (characters.map pieceOf, rest) := by
  induction characters with
  | nil => simp [readPieces]
  | cons c more ih =>
      rw [List.flatMap_cons, List.append_assoc, readPieces_escaped, ih]
      rfl

theorem assemble_pieces (characters : List Char) :
    assemble (characters.map pieceOf) = some characters := by
  unfold assemble
  induction characters with
  | nil => rfl
  | cons c more ih => rw [List.map_cons, assembleAfter_pieceOf, ih, Option.map_some]

/-- A string is read back behind its opening quote, whatever its characters. -/
theorem readText_quoted (text : String) (rest : List Char) :
    readText (text.toList.flatMap escaped ++ '"' :: rest) = some (.text text, rest) := by
  simp [readText, readPieces_quoted, assemble_pieces]

end Json

end CallLedger
