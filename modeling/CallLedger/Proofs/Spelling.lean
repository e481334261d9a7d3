import CallLedger.Proofs.Limits
import CallLedger.Proofs.Literals

/-!
# JSON is read as it was written, in either layout

The two layouts differ in blanks only: what stands before the members of a list or a record, and
what stands behind a colon (`Layout`). The reader skips both. So there is one theorem for the two,
by induction on the data (`Layout.readsAs`), and the writers only have to be shown to be layouts.

The induction carries the text behind a value. It must not go on with a number, and it never does:
in a layout there is a comma, a blank or a closing bracket behind each member. It also carries how
deep the reader may go, two calls for each character.
-/

namespace CallLedger

namespace Json

/-! ## Values -/

/-- Whole numbers of 64 bits are read as they are written. Of a finite real this is for the reader
and the writer of reals to say; one that is not finite is written as null. -/
def limits : Limits where
  whole := Limits.word
  real x := x.isFinite = true → readNumber (Decimal.ofReal x) = some (.real x, [])
  text _ := True
  length _ := True
  whole_of_lt := Limits.word_of_lt
  text_of_short _ _ := trivial
  length_of_few _ _ := trivial

/-- A text is read as the data by a reader that may go deep enough, whatever may stand behind a
value. -/
def ReadsAs (text : List Char) (data : Data) : Prop :=
  ∀ depth rest, ends rest = true → 2 * text.length ≤ depth + 1 →
    readValue depth (text ++ rest) = some (data, rest)

theorem readValue_number {text : List Char} {data : Data}
    (h : readNumber text = some (data, [])) : ReadsAs text data := by
  intro depth rest hrest hdepth
  obtain ⟨c, more, rfl, hc⟩ := head_of_readNumber h
  rw [List.length_cons] at hdepth
  obtain ⟨depth, rfl⟩ := Nat.exists_eq_succ_of_ne_zero (show depth ≠ 0 by omega)
  have hblank : isSpace c = false := by
    rw [Bool.eq_false_iff]
    intro h
    simp only [isSpace, Bool.or_eq_true, decide_eq_true_eq] at h
    rcases h with ((rfl | rfl) | rfl) | rfl <;> exact absurd hc (by decide)
  have hother : ∀ {d other}, c :: (more ++ rest) = d :: other → d = '-' ∨ d.isDigit = true :=
    fun heq => List.head_eq_of_cons_eq heq ▸ hc
  have hread := readNumber_append hrest h
  rw [List.cons_append] at hread ⊢
  unfold readValue
  rw [skipSpace_cons hblank]
  split
  · next heq => exact absurd (hother heq) (by decide)
  · next heq => exact absurd (hother heq) (by decide)
  · next heq => exact absurd (hother heq) (by decide)
  · next heq => exact absurd (hother heq) (by decide)
  · next heq => exact absurd (hother heq) (by decide)
  · next heq => exact absurd (hother heq) (by decide)
  · exact hread

theorem readValue_quoted (text : String) : ReadsAs (quoted text.toList) (.text text) := by
  intro depth rest _ hdepth
  rw [quoted, List.cons_append, List.length_cons] at hdepth
  obtain ⟨depth, rfl⟩ := Nat.exists_eq_succ_of_ne_zero (show depth ≠ 0 by omega)
  rw [quoted, List.append_assoc, List.cons_append, readValue, skipSpace_cons rfl]
  exact readText_quoted text rest

theorem readValue_word {word : List Char} {data : Data} (hpos : 0 < word.length)
    (h : ∀ depth rest, readValue (depth + 1) (word ++ rest) = some (data, rest)) :
    ReadsAs word data := by
  intro depth rest _ hdepth
  obtain ⟨depth, rfl⟩ := Nat.exists_eq_succ_of_ne_zero (show depth ≠ 0 by omega)
  exact h depth rest

theorem readsAs_leaf {data : Data} (h : data.Within limits) (hlist : ∀ items, data ≠ .list items)
    (hrecord : ∀ entries, data ≠ .record entries) :
    ReadsAs (leaf data) (data.masked Binary64.isFinite) := by
  cases h with
  | null => exact readValue_word (by decide) fun _ _ => rfl
  | bool value =>
      cases value with
      | false => exact readValue_word (by decide) fun _ _ => rfl
      | true => exact readValue_word (by decide) fun _ _ => rfl
  | int h => exact readValue_number (readNumber_ofInt h.1 h.2)
  | @real x h =>
      rw [leaf, Data.masked]
      split
      · next hfinite => exact readValue_number (h hfinite)
      · exact readValue_word (by decide) fun _ _ => rfl
  | @text text _ => exact readValue_quoted text
  | list _ _ => exact absurd rfl (hlist _)
  | record _ _ _ => exact absurd rfl (hrecord _)

/-! ## Lists and records -/

/-- Texts with commas between them, blanks behind the commas, and an end. -/
def joined (gap close : List Char) : List (List Char) → List Char
  | [] => close
  | [text] => text ++ close
  | text :: rest => text ++ ',' :: gap ++ joined gap close rest

theorem joined_cons (gap close text : List Char) {rest : List (List Char)} (h : rest ≠ []) :
    joined gap close (text :: rest) = text ++ ',' :: (gap ++ joined gap close rest) := by
  cases rest with
  | nil => exact absurd rfl h
  | cons next rest => rw [joined, List.append_assoc, List.cons_append]; exact List.cons_ne_nil _ _

theorem readValue_skip {gap : List Char} (h : gap.all isSpace = true) (depth : Nat)
    (text : List Char) : readValue depth (gap ++ text) = readValue depth text := by
  cases depth with
  | zero => rfl
  | succ depth => rw [readValue, skipSpace_append h, readValue]

theorem skipSpace_skipSpace (text : List Char) : skipSpace (skipSpace text) = skipSpace text :=
  List.dropWhile_idempotent _ _

theorem readItems_skipSpace (depth : Nat) (text : List Char) :
    readItems depth (skipSpace text) = readItems depth text := by
  rcases depth with _ | _ | depth
  · rfl
  · rfl
  · rw [readItems, readItems, readValue, readValue, skipSpace_skipSpace]

theorem readEntries_skipSpace (depth : Nat) (text : List Char) :
    readEntries depth (skipSpace text) = readEntries depth text := by
  cases depth with
  | zero => rfl
  | succ depth => rw [readEntries, readEntries, skipSpace_skipSpace]

/-- Items that are read make a list; the closing bracket of an empty one is no item. -/
theorem readValue_bracket {depth : Nat} {text rest : List Char} {items : List Data}
    (h : readItems depth text = some (items, rest)) :
    readValue (depth + 1) ('[' :: text) = some (.list items, rest) := by
  rw [← readItems_skipSpace] at h
  simp only [readValue, skipSpace_cons (show isSpace '[' = false from rfl)]
  split
  · next heq =>
      rw [heq] at h
      rcases depth with _ | _ | depth <;> cases h
  · rw [h, Option.map_some]

/-- Entries that are read make a record; the closing brace of an empty one is no entry. -/
theorem readValue_brace {depth : Nat} {text rest : List Char} {entries : List (Data × Data)}
    (h : readEntries depth text = some (entries, rest)) :
    readValue (depth + 1) ('{' :: text) = some (.record entries, rest) := by
  rw [← readEntries_skipSpace] at h
  simp only [readValue, skipSpace_cons (show isSpace '{' = false from rfl)]
  split
  · next heq =>
      rw [heq] at h
      rcases depth with _ | depth <;> cases h
  · rw [h, Option.map_some]

section

variable {depth : Nat} {text after rest left : List Char}

theorem readItems_last {item : Data} (hitem : readValue depth text = some (item, after))
    (hafter : skipSpace after = ']' :: rest) :
    readItems (depth + 1) text = some ([item], rest) := by
  rw [readItems, hitem]
  simp [hafter]

theorem readItems_more {item : Data} {items : List Data}
    (hitem : readValue depth text = some (item, after)) (hafter : skipSpace after = ',' :: rest)
    (hmore : readItems depth rest = some (items, left)) :
    readItems (depth + 1) text = some (item :: items, left) := by
  rw [readItems, hitem]
  simp [hafter, hmore]

theorem readEntries_quoted (depth : Nat) (name : String) (text : List Char) :
    readEntries (depth + 1) (quoted name.toList ++ ':' :: text) = (do
      let (value, rest) ← readValue depth text
      match skipSpace rest with
      | ',' :: rest =>
        let (entries, rest) ← readEntries depth rest
        return ((.text name, value) :: entries, rest)
      | '}' :: rest => return ([(.text name, value)], rest)
      | _ => none) := by
  have hkey := readText_quoted name (':' :: text)
  rw [quoted, List.append_assoc, List.cons_append]
  show (readText _).bind _ = _
  rw [List.singleton_append, hkey]
  rfl

/-- An entry: its key, a colon with blanks behind it, and its value. -/
def entryText (colon : List Char) (write : Data → List Char) (entry : Data × Data) : List Char :=
  leaf entry.1 ++ ':' :: (colon ++ write entry.2)

variable {colon : List Char} {name : String} {write : Data → List Char} {value result : Data}

theorem readEntries_last (hcolon : colon.all isSpace = true)
    (hvalue : readValue depth (write value ++ after) = some (result, after))
    (hafter : skipSpace after = '}' :: rest) :
    readEntries (depth + 1) (entryText colon write (.text name, value) ++ after) =
      some ([(.text name, result)], rest) := by
  rw [← readValue_skip hcolon] at hvalue
  rw [entryText, leaf, List.append_assoc, List.cons_append, List.append_assoc,
    readEntries_quoted, hvalue]
  simp [hafter]

theorem readEntries_more {entries : List (Data × Data)} (hcolon : colon.all isSpace = true)
    (hvalue : readValue depth (write value ++ after) = some (result, after))
    (hafter : skipSpace after = ',' :: rest)
    (hmore : readEntries depth rest = some (entries, left)) :
    readEntries (depth + 1) (entryText colon write (.text name, value) ++ after) =
      some ((.text name, result) :: entries, left) := by
  rw [← readValue_skip hcolon] at hvalue
  rw [entryText, leaf, List.append_assoc, List.cons_append, List.append_assoc,
    readEntries_quoted, hvalue]
  simp [hafter, hmore]

end

section

variable {gap close : List Char}

theorem ends_closing (h : close.all isSpace = true) {bracket : Char}
    (hbracket : ends [bracket] = true) (rest : List Char) :
    ends (close ++ bracket :: rest) = true := by
  cases close with
  | nil => exact hbracket
  | cons c close =>
      rw [List.all_cons, Bool.and_eq_true] at h
      simp [ends, h.1]

theorem readItems_joined (hgap : gap.all isSpace = true) (hclose : close.all isSpace = true)
    {write : Data → List Char} {result : Data → Data} {items : List Data} (hne : items ≠ [])
    (h : ∀ item ∈ items, ReadsAs (write item) (result item)) (depth : Nat)
    (hdepth : 2 * (joined gap (close ++ [']']) (items.map write)).length ≤ depth)
    (rest : List Char) :
    readItems depth (joined gap (close ++ [']']) (items.map write) ++ rest) =
      some (items.map result, rest) := by
  induction items generalizing depth with
  | nil => exact absurd rfl hne
  | cons item more ih =>
      have hitem := h item List.mem_cons_self
      cases more with
      | nil =>
          rw [List.map_cons, List.map_nil, joined, List.length_append, List.length_append,
            List.length_singleton] at hdepth
          obtain ⟨depth, rfl⟩ := Nat.exists_eq_succ_of_ne_zero (show depth ≠ 0 by omega)
          rw [List.map_cons, List.map_nil, joined, List.append_assoc, List.append_assoc]
          exact readItems_last (hitem depth _ (ends_closing hclose rfl rest) (by omega))
            (skipSpace_append hclose _)
      | cons next more =>
          have hsome : (next :: more).map write ≠ [] := List.cons_ne_nil _ _
          rw [List.map_cons, joined_cons _ _ _ hsome, List.length_append, List.length_cons,
            List.length_append] at hdepth
          obtain ⟨depth, rfl⟩ := Nat.exists_eq_succ_of_ne_zero (show depth ≠ 0 by omega)
          have hmore := ih (List.cons_ne_nil _ _)
            (fun other hother => h other (List.mem_cons_of_mem _ hother)) depth (by omega)
          rw [← readItems_skipSpace, ← skipSpace_append hgap, readItems_skipSpace] at hmore
          rw [List.map_cons, joined_cons _ _ _ hsome, List.append_assoc, List.cons_append,
            List.append_assoc]
          exact readItems_more (hitem depth (',' :: _) rfl (by omega)) rfl hmore

theorem readEntries_joined (hgap : gap.all isSpace = true) (hclose : close.all isSpace = true)
    {colon : List Char} (hcolon : colon.all isSpace = true) {write : Data → List Char}
    {result : Data → Data} {entries : List (Data × Data)} (hne : entries ≠ [])
    (hkeys : ∀ entry ∈ entries, ∃ name, entry.1 = .text name)
    (h : ∀ entry ∈ entries, ReadsAs (write entry.2) (result entry.2)) (depth : Nat)
    (hdepth : 2 * (joined gap (close ++ ['}']) (entries.map (entryText colon write))).length ≤
      depth) (rest : List Char) :
    readEntries depth (joined gap (close ++ ['}']) (entries.map (entryText colon write)) ++ rest) =
      some (entries.map fun entry => (entry.1, result entry.2), rest) := by
  induction entries generalizing depth with
  | nil => exact absurd rfl hne
  | cons entry more ih =>
      obtain ⟨key, value⟩ := entry
      obtain ⟨name, rfl⟩ : ∃ name, key = .text name := hkeys (key, value) List.mem_cons_self
      have hvalue : ReadsAs (write value) (result value) := h (_, value) List.mem_cons_self
      have hlength : (entryText colon write (.text name, value)).length ≥
          (write value).length + 1 := by
        simp [entryText]
        omega
      cases more with
      | nil =>
          rw [List.map_cons, List.map_nil, joined, List.length_append, List.length_append,
            List.length_singleton] at hdepth
          obtain ⟨depth, rfl⟩ := Nat.exists_eq_succ_of_ne_zero (show depth ≠ 0 by omega)
          rw [List.map_cons, List.map_nil, joined, List.append_assoc, List.append_assoc]
          exact readEntries_last hcolon
            (hvalue depth _ (ends_closing hclose rfl rest) (by omega))
            (skipSpace_append hclose _)
      | cons next more =>
          have hsome : (next :: more).map (entryText colon write) ≠ [] := List.cons_ne_nil _ _
          rw [List.map_cons, joined_cons _ _ _ hsome, List.length_append, List.length_cons,
            List.length_append] at hdepth
          obtain ⟨depth, rfl⟩ := Nat.exists_eq_succ_of_ne_zero (show depth ≠ 0 by omega)
          have hmore := ih (List.cons_ne_nil _ _)
            (fun other hother => hkeys other (List.mem_cons_of_mem _ hother))
            (fun other hother => h other (List.mem_cons_of_mem _ hother)) depth (by omega)
          rw [← readEntries_skipSpace, ← skipSpace_append hgap, readEntries_skipSpace] at hmore
          rw [List.map_cons, joined_cons _ _ _ hsome, List.append_assoc, List.cons_append,
            List.append_assoc]
          exact readEntries_more hcolon (hvalue depth (',' :: _) rfl (by omega)) rfl hmore

end

/-- How data is laid out: what stands before the members of a list or a record at a level, what
stands behind a colon, and the writer that does so. -/
structure Layout (write : Nat → Data → List Char) (line : Nat → List Char) (colon : List Char) :
    Prop where
  line_blank : ∀ level, (line level).all isSpace = true
  colon_blank : colon.all isSpace = true
  leaf : ∀ level data, (∀ items, data ≠ .list items) → (∀ entries, data ≠ .record entries) →
    write level data = leaf data
  empty_list : ∀ level, write level (.list []) = ['[', ']']
  list : ∀ level items, items ≠ [] → write level (.list items) = '[' :: (line (level + 1) ++
    joined (line (level + 1)) (line level ++ [']']) (items.map (write (level + 1))))
  empty_record : ∀ level, write level (.record []) = ['{', '}']
  record : ∀ level entries, entries ≠ [] → write level (.record entries) = '{' ::
    (line (level + 1) ++ joined (line (level + 1)) (line level ++ ['}'])
      (entries.map (entryText colon (write (level + 1)))))

namespace Layout

variable {write : Nat → Data → List Char} {line : Nat → List Char} {colon : List Char}

theorem readsAs_leaf (h : Layout write line colon) {data : Data} (hdata : data.Within limits)
    (hlist : ∀ items, data ≠ .list items) (hrecord : ∀ entries, data ≠ .record entries)
    (level : Nat) : ReadsAs (write level data) (data.masked Binary64.isFinite) := by
  rw [h.leaf level data hlist hrecord]
  exact Json.readsAs_leaf hdata hlist hrecord

/-- In whatever layout, data is read as it was, but for the reals that have no words. -/
theorem readsAs (h : Layout write line colon) {data : Data} (hdata : data.Within limits)
    (level : Nat) : ReadsAs (write level data) (data.masked Binary64.isFinite) := by
  induction hdata generalizing level with
  | null => exact h.readsAs_leaf .null nofun nofun level
  | bool value => exact h.readsAs_leaf (.bool value) nofun nofun level
  | int hwhole => exact h.readsAs_leaf (.int hwhole) nofun nofun level
  | real hread => exact h.readsAs_leaf (.real hread) nofun nofun level
  | text htext => exact h.readsAs_leaf (.text htext) nofun nofun level
  | @list items hlength hitems ih =>
      rw [Data.masked_list]
      by_cases hne : items = []
      · subst hne
        rw [h.empty_list]
        exact readValue_word (by decide) fun _ _ => rfl
      · intro depth rest hrest hdepth
        rw [h.list level items hne, List.length_cons, List.length_append] at hdepth
        obtain ⟨depth, rfl⟩ := Nat.exists_eq_succ_of_ne_zero (show depth ≠ 0 by omega)
        rw [h.list level items hne, List.cons_append, List.append_assoc]
        refine readValue_bracket ?_
        rw [← readItems_skipSpace, skipSpace_append (h.line_blank _), readItems_skipSpace]
        have hread : ∀ item ∈ items, ReadsAs (write (level + 1) item) _ :=
          fun item hitem => ih item hitem (level + 1)
        exact readItems_joined (h.line_blank _) (h.line_blank _) hne hread depth (by omega) rest
  | @record entries hlength hkeys hvalues ih =>
      rw [Data.masked, Data.maskedEntries_eq_map]
      by_cases hne : entries = []
      · subst hne
        rw [h.empty_record]
        exact readValue_word (by decide) fun _ _ => rfl
      · intro depth rest hrest hdepth
        rw [h.record level entries hne, List.length_cons, List.length_append] at hdepth
        obtain ⟨depth, rfl⟩ := Nat.exists_eq_succ_of_ne_zero (show depth ≠ 0 by omega)
        rw [h.record level entries hne, List.cons_append, List.append_assoc]
        refine readValue_brace ?_
        rw [← readEntries_skipSpace, skipSpace_append (h.line_blank _), readEntries_skipSpace]
        exact readEntries_joined (h.line_blank _) (h.line_blank _) h.colon_blank hne
          (fun entry hentry => (hkeys entry hentry).imp fun _ h => h.1)
          (fun entry hentry => ih entry hentry (level + 1)) depth (by omega) rest

end Layout

theorem compactItems_eq (items : List Data) :
    compactItems items = joined [] [']'] (items.map compact) := by
  induction items with
  | nil => rfl
  | cons item more ih =>
      cases more with
      | nil => rfl
      | cons next more =>
          have hsome : (next :: more).map compact ≠ [] := List.cons_ne_nil _ _
          rw [List.map_cons, joined_cons _ _ _ hsome, compactItems, ih, List.nil_append]
          nofun

theorem compactEntries_eq (entries : List (Data × Data)) :
    compactEntries entries = joined [] ['}'] (entries.map (entryText [] compact)) := by
  induction entries with
  | nil => rfl
  | cons entry more ih =>
      cases more with
      | nil => simp [compactEntries, joined, entryText]
      | cons next more =>
          have hsome : (next :: more).map (entryText [] compact) ≠ [] := List.cons_ne_nil _ _
          rw [List.map_cons, joined_cons _ _ _ hsome, compactEntries, ih, entryText]
          · rfl
          · nofun

theorem layout_compact : Layout (fun _ => compact) (fun _ => []) [] where
  line_blank _ := rfl
  colon_blank := rfl
  leaf _ data hlist hrecord := by
    cases data with
    | list items => exact absurd rfl (hlist items)
    | record entries => exact absurd rfl (hrecord entries)
    | _ => rfl
  empty_list _ := rfl
  list _ items _ := by rw [compact, compactItems_eq]; rfl
  empty_record _ := rfl
  record _ entries _ := by rw [compact, compactEntries_eq]; rfl

theorem prettyItems_eq (level : Nat) {items : List Data} (h : items ≠ []) :
    prettyItems level items =
      joined (newLine (level + 1)) (newLine level ++ [']']) (items.map (prettyAt (level + 1))) := by
  induction items with
  | nil => exact absurd rfl h
  | cons item more ih =>
      cases more with
      | nil => simp [prettyItems, joined]
      | cons next more =>
          have hsome : (next :: more).map (prettyAt (level + 1)) ≠ [] := List.cons_ne_nil _ _
          rw [List.map_cons, joined_cons _ _ _ hsome, prettyItems, ih (List.cons_ne_nil _ _),
            List.append_assoc, List.cons_append]
          nofun

theorem prettyEntries_eq (level : Nat) {entries : List (Data × Data)} (h : entries ≠ []) :
    prettyEntries level entries = joined (newLine (level + 1)) (newLine level ++ ['}'])
      (entries.map (entryText [' '] (prettyAt (level + 1)))) := by
  induction entries with
  | nil => exact absurd rfl h
  | cons entry more ih =>
      cases more with
      | nil => simp [prettyEntries, joined, entryText]
      | cons next more =>
          have hsome : (next :: more).map (entryText [' '] (prettyAt (level + 1))) ≠ [] :=
            List.cons_ne_nil _ _
          rw [List.map_cons, joined_cons _ _ _ hsome, prettyEntries,
            ih (List.cons_ne_nil _ _), entryText]
          · simp only [List.append_assoc, List.cons_append, List.nil_append]
          · nofun

theorem newLine_blank (level : Nat) : (newLine level).all isSpace = true := by
  simp [newLine, isSpace]

theorem layout_pretty : Layout prettyAt newLine [' '] where
  line_blank := newLine_blank
  colon_blank := rfl
  leaf _ data hlist hrecord := by
    cases data with
    | list items => exact absurd rfl (hlist items)
    | record entries => exact absurd rfl (hrecord entries)
    | _ => rfl
  empty_list _ := rfl
  list level items h := by rw [prettyAt, prettyItems_eq level h, List.cons_append]; exact h
  empty_record _ := rfl
  record level entries h := by
    rw [prettyAt, prettyEntries_eq level h, List.cons_append]
    exact h

theorem read?_of_readsAs {text : List Char} {data : Data} (h : ReadsAs text data) :
    read? text = some data := by
  have hread := h (2 * text.length + 1) [] rfl (by omega)
  rw [List.append_nil] at hread
  rw [read?, hread]
  rfl

theorem read?_pretty {data : Data} (h : data.Within limits) :
    read? (pretty data) = some (data.masked Binary64.isFinite) :=
  read?_of_readsAs (layout_pretty.readsAs h 0)

theorem read?_compact {data : Data} (h : data.Within limits) :
    read? (compact data) = some (data.masked Binary64.isFinite) :=
  read?_of_readsAs (layout_compact.readsAs h 0)

end Json

end CallLedger
