import CallLedger.ThreadFilter.Expression
import Mathlib.Data.List.Forall2
import Mathlib.Data.List.Induction
import Mathlib.Data.Nat.Digits.Defs

/-!
# What a thread filter expression says

The grammar of lists of threads is written down here beside its reader. A number is a digit, or
a number and a digit behind it (`Numeral`). A piece of a list says nothing or names a thread
(`ThreadFilter.Entry`), and a list is cut into such pieces at its commas (`ThreadFilter.Lists`).
What is no list has a first piece that is neither (`ThreadFilter.FirstFault`).

The reader goes along the pieces, and each one is settled for itself: one that says nothing is
passed over, one that names a thread adds it, and any other one ends the reading with its
trimmed text (`ThreadFilter.readPieces_cons`). So every expression comes to what its grammar says
(`ThreadFilter.expressions_settled`), and a list that is written comes back, with whatever padding,
plus signs and zeros it is written.
-/

namespace CallLedger

/-! ## Numbers -/

/-- A text of decimal digits, leading zeros allowed, and the number that it writes. -/
inductive Numeral : List Char → Nat → Prop
  | digit {d : Nat} (hd : d < 10) : Numeral [d.digitChar] d
  | more {digits : List Char} {n d : Nat} (h : Numeral digits n) (hd : d < 10) :
      Numeral (digits ++ [d.digitChar]) (10 * n + d)

theorem decimalDigit?_eq_some_iff {c : Char} {d : Nat} :
    decimalDigit? c = some d ↔ d < 10 ∧ c = d.digitChar := by
  unfold decimalDigit?
  constructor
  · intro h
    split at h
    · next hdigit =>
        obtain ⟨hlow, hhigh⟩ := Char.isDigit_iff_toNat.mp hdigit
        change 48 ≤ c.toNat at hlow
        change c.toNat ≤ 57 at hhigh
        have hd : c.toNat - 48 = d := Option.some.inj h
        have hsmall : d < 10 := by omega
        refine ⟨hsmall, Char.toNat_inj.mp ?_⟩
        rw [Nat.toNat_digitChar_of_lt_ten hsmall]
        omega
    · cases h
  · rintro ⟨hd, rfl⟩
    rw [if_pos (by rw [Nat.isDigit_digitChar]; exact decide_eq_true hd)]
    exact congrArg some (Nat.toNat_digitChar_sub_48_of_lt_ten hd)

theorem Numeral.ne_nil {digits : List Char} {n : Nat} (h : Numeral digits n) : digits ≠ [] := by
  cases h <;> simp

/-- The last digit is the lowest one. -/
theorem numeral_concat_iff {digits : List Char} {c : Char} {n : Nat} :
    Numeral (digits ++ [c]) n ↔ ∃ d, d < 10 ∧ c = d.digitChar ∧
      (digits = [] ∧ n = d ∨ ∃ m, Numeral digits m ∧ n = 10 * m + d) := by
  constructor
  · intro h
    generalize htext : digits ++ [c] = text at h
    cases h with
    | digit hd =>
        obtain ⟨rfl, rfl⟩ := List.append_singleton_inj.mp (htext.trans (List.nil_append _).symm)
        exact ⟨_, hd, rfl, Or.inl ⟨rfl, rfl⟩⟩
    | more hrest hd =>
        obtain ⟨rfl, rfl⟩ := List.append_singleton_inj.mp htext
        exact ⟨_, hd, rfl, Or.inr ⟨_, hrest, rfl⟩⟩
  · rintro ⟨d, hd, rfl, ⟨rfl, rfl⟩ | ⟨m, hrest, rfl⟩⟩
    · exact .digit hd
    · exact .more hrest hd

theorem decimal?_concat (digits : List Char) (c : Char) :
    decimal? (digits ++ [c]) =
      (if digits = [] then some 0 else decimal? digits).bind fun n =>
        (decimalDigit? c).map (10 * n + ·) := by
  cases digits with
  | nil => simp [decimal?]
  | cons first rest => simp [decimal?, List.foldlM_append, Option.bind_assoc]

/-- The reader of numbers knows those texts that write one. -/
theorem decimal?_eq_some_iff {digits : List Char} {n : Nat} :
    decimal? digits = some n ↔ Numeral digits n := by
  induction digits using List.reverseRecOn generalizing n with
  | nil => exact iff_of_false nofun fun h => h.ne_nil rfl
  | append_singleton digits c ih =>
      rw [decimal?_concat, numeral_concat_iff, Option.bind_eq_some_iff]
      simp only [Option.map_eq_some_iff, decimalDigit?_eq_some_iff]
      by_cases hempty : digits = []
      · rw [if_pos hempty]
        constructor
        · rintro ⟨m, hm, d, ⟨hd, hc⟩, rfl⟩
          cases hm
          exact ⟨d, hd, hc, Or.inl ⟨hempty, by omega⟩⟩
        · rintro ⟨d, hd, hc, ⟨-, rfl⟩ | ⟨m, hrest, -⟩⟩
          · exact ⟨0, rfl, n, ⟨hd, hc⟩, by omega⟩
          · exact absurd hempty hrest.ne_nil
      · rw [if_neg hempty]
        constructor
        · rintro ⟨m, hm, d, ⟨hd, hc⟩, rfl⟩
          exact ⟨d, hd, hc, Or.inr ⟨m, ih.mp hm, rfl⟩⟩
        · rintro ⟨d, hd, hc, ⟨hnil, -⟩ | ⟨m, hrest, rfl⟩⟩
          · exact absurd hnil hempty
          · exact ⟨m, ih.mpr hrest, d, ⟨hd, hc⟩, rfl⟩

theorem Numeral.zero_cons {digits : List Char} {n : Nat} (h : Numeral digits n) :
    Numeral ('0' :: digits) n := by
  induction h with
  | @digit d hd =>
      have hzero := Numeral.more (.digit (show 0 < 10 by decide)) hd
      rwa [Nat.mul_zero, Nat.zero_add] at hzero
  | more _ hd ih => exact .more ih hd

theorem Numeral.zeros {digits : List Char} {n : Nat} (h : Numeral digits n) (zeros : Nat) :
    Numeral (List.replicate zeros '0' ++ digits) n := by
  induction zeros with
  | zero => exact h
  | succ zeros ih => exact ih.zero_cons

theorem Numeral.isDigit {digits : List Char} {n : Nat} (h : Numeral digits n) :
    ∀ c ∈ digits, c.isDigit = true := by
  induction h with
  | digit hd =>
      intro c hc
      rw [List.mem_singleton.mp hc, Nat.isDigit_digitChar]
      exact decide_eq_true hd
  | more _ hd ih =>
      intro c hc
      rcases List.mem_append.mp hc with hearlier | hlast
      · exact ih c hearlier
      · rw [List.mem_singleton.mp hlast, Nat.isDigit_digitChar]
        exact decide_eq_true hd

theorem numeral_toDigits (n : Nat) : Numeral (Nat.toDigits 10 n) n := by
  induction n using Nat.base_induction 10 (by decide) with
  | single d hd =>
      rw [Nat.toDigits_of_lt_base hd]
      exact .digit hd
  | digit m d hd hm ih =>
      rw [← Nat.toDigits_append_toDigits (by decide) hm hd, Nat.toDigits_of_lt_base hd]
      exact .more ih hd

namespace ThreadFilter

open Text

/-! ## Thread ids -/

/-- A text that writes a thread id, after a plus sign if one likes. -/
inductive WritesId : List Char → UInt64 → Prop
  | plain {digits : List Char} {id : UInt64} (h : Numeral digits id.toNat) : WritesId digits id
  | plus {digits : List Char} {id : UInt64} (h : Numeral digits id.toNat) :
      WritesId ('+' :: digits) id

theorem bind_decimal?_eq_some_iff {digits : List Char} {id : UInt64} :
    ((decimal? digits).bind fun n => if n < UInt64.size then some n.toUInt64 else none) =
      some id ↔ Numeral digits id.toNat := by
  rw [Option.bind_eq_some_iff]
  constructor
  · rintro ⟨n, hn, hid⟩
    split at hid
    · next hrange =>
        cases hid
        rw [decimal?_eq_some_iff] at hn
        rwa [Nat.toUInt64_eq, UInt64.toNat_ofNat_of_lt' hrange]
    · cases hid
  · intro h
    refine ⟨id.toNat, decimal?_eq_some_iff.mpr h, ?_⟩
    rw [if_pos id.toNat_lt_size]
    exact congrArg some id.ofNat_toNat

/-- The reader of thread ids knows those texts that write one. -/
theorem threadId?_eq_some_iff {text : List Char} {id : UInt64} :
    threadId? text = some id ↔ WritesId text id := by
  unfold threadId?
  refine bind_decimal?_eq_some_iff.trans ?_
  split
  · next digits =>
      refine ⟨.plus, fun h => ?_⟩
      cases h with
      | plain hdigits => exact absurd (hdigits.isDigit '+' List.mem_cons_self) (by decide)
      | plus hdigits => exact hdigits
  · next hsign =>
      refine ⟨.plain, fun h => ?_⟩
      cases h with
      | plain hdigits => exact hdigits
      | plus hdigits => exact absurd rfl (hsign _)

/-- A thread id is written without blanks and commas. -/
theorem WritesId.solid {text : List Char} {id : UInt64} (h : WritesId text id) :
    ∀ c ∈ text, isBlank c = false ∧ c ≠ ',' := by
  have hdigits : ∀ c : Char, c.isDigit = true → isBlank c = false ∧ c ≠ ',' := by
    intro c hc
    obtain ⟨hlow, hhigh⟩ := Char.isDigit_iff_toNat.mp hc
    change 48 ≤ c.toNat at hlow
    change c.toNat ≤ 57 at hhigh
    refine ⟨?_, ?_⟩
    · simp [isBlank, blankRanges]
      omega
    · rintro rfl
      exact absurd hc (by decide)
  cases h with
  | plain h => exact fun c hc => hdigits c (h.isDigit c hc)
  | plus h =>
      intro c hc
      rcases List.mem_cons.mp hc with rfl | hmem
      · decide
      · exact hdigits c (h.isDigit c hmem)

theorem WritesId.ne_nil {text : List Char} {id : UInt64} (h : WritesId text id) : text ≠ [] := by
  cases h with
  | plain h => exact h.ne_nil
  | plus h => exact List.cons_ne_nil _ _

/-! ## Lists -/

/-- A piece of a list: blank, or a thread id between blanks. -/
inductive Entry : List Char → Option UInt64 → Prop
  | blank {piece : List Char} (h : Trims piece []) : Entry piece none
  | thread {piece text : List Char} {id : UInt64} (h : Trims piece text) (hid : WritesId text id) :
      Entry piece (some id)

/-- A text whose pieces between commas are all blank or thread ids, and these ids. -/
def Lists (text : List Char) (ids : List UInt64) : Prop :=
  ∃ cuts entries, Cut ',' text cuts ∧ List.Forall₂ Entry cuts entries ∧
    ids = entries.filterMap id

/-- The first piece of a text that is neither blank nor a thread id, without the blanks around it. -/
def FirstFault (text piece : List Char) : Prop :=
  ∃ before faulty after, Cut ',' text (before ++ faulty :: after) ∧
    (∀ earlier ∈ before, ∃ entry, Entry earlier entry) ∧ (∀ entry, ¬ Entry faulty entry) ∧
    Trims faulty piece

/-- The reader of lists, once the text is cut. -/
def idsOf (cuts : List (List Char)) : Except ConfigError (List UInt64) :=
  ((cuts.map trim).filter fun piece => !piece.isEmpty).mapM fun piece =>
    match threadId? piece with
    | some id => .ok id
    | none => .error (.threadId (String.ofList piece))

theorem threadIds_of_cut {text : List Char} {cuts : List (List Char)} (h : Cut ',' text cuts) :
    threadIds text = idsOf cuts := by
  rw [threadIds, listed, h.pieces]
  rfl

section

variable {piece text : List Char} {cuts : List (List Char)}

theorem idsOf_blank (h : Trims piece []) : idsOf (piece :: cuts) = idsOf cuts := by
  rw [idsOf, List.map_cons, h.trim]
  rfl

theorem idsOf_cons (h : Trims piece text) (hne : text ≠ []) :
    idsOf (piece :: cuts) = (match threadId? text with
      | some id => .ok id
      | none => .error (.threadId (String.ofList text))) >>= fun id =>
        idsOf cuts >>= fun ids => .ok (id :: ids) := by
  rw [idsOf, List.map_cons, h.trim, List.filter_cons_of_pos (by simpa using hne), List.mapM_cons]
  rfl

theorem idsOf_thread {id : UInt64} (h : Trims piece text) (hid : WritesId text id) :
    idsOf (piece :: cuts) = (idsOf cuts).map (id :: ·) := by
  rw [idsOf_cons h hid.ne_nil, threadId?_eq_some_iff.mpr hid]
  cases idsOf cuts <;> rfl

theorem idsOf_fault (h : Trims piece text) (hfault : ∀ entry, ¬ Entry piece entry) :
    idsOf (piece :: cuts) = .error (.threadId (String.ofList text)) := by
  have hne : text ≠ [] := by
    rintro rfl
    exact hfault none (.blank h)
  have hnone : threadId? text = none := Option.eq_none_iff_forall_ne_some.mpr fun id hid =>
    hfault (some id) (.thread h (threadId?_eq_some_iff.mp hid))
  rw [idsOf_cons h hne, hnone]
  rfl

theorem idsOf_entries {entries : List (Option UInt64)} (h : List.Forall₂ Entry cuts entries) :
    idsOf cuts = .ok (entries.filterMap id) := by
  induction h with
  | nil => rfl
  | cons hentry _ ih =>
      cases hentry with
      | blank hblank => rw [idsOf_blank hblank, ih]; rfl
      | thread htrims hid => rw [idsOf_thread htrims hid, ih]; rfl

theorem idsOf_append_fault {before after : List (List Char)} {faulty : List Char}
    (hbefore : ∀ earlier ∈ before, ∃ entry, Entry earlier entry) (h : Trims faulty piece)
    (hfault : ∀ entry, ¬ Entry faulty entry) :
    idsOf (before ++ faulty :: after) = .error (.threadId (String.ofList piece)) := by
  induction before with
  | nil => exact idsOf_fault h hfault
  | cons earlier before ih =>
      have hrest := ih fun other hother => hbefore other (List.mem_cons_of_mem _ hother)
      obtain ⟨entry, hentry⟩ := hbefore earlier List.mem_cons_self
      rw [List.cons_append]
      cases hentry with
      | blank hblank => rw [idsOf_blank hblank, hrest]
      | thread htrims hid => rw [idsOf_thread htrims hid, hrest]; rfl

/-- Pieces are all in order, or there is a first one that is not. -/
theorem entries_or_fault (cuts : List (List Char)) :
    (∃ entries, List.Forall₂ Entry cuts entries) ∨
      ∃ before faulty after, cuts = before ++ faulty :: after ∧
        (∀ earlier ∈ before, ∃ entry, Entry earlier entry) ∧ ∀ entry, ¬ Entry faulty entry := by
  induction cuts with
  | nil => exact Or.inl ⟨[], .nil⟩
  | cons piece cuts ih =>
      by_cases hpiece : ∃ entry, Entry piece entry
      · obtain ⟨entry, hentry⟩ := hpiece
        rcases ih with ⟨entries, hentries⟩ | ⟨before, faulty, after, rfl, hbefore, hfault⟩
        · exact Or.inl ⟨entry :: entries, .cons hentry hentries⟩
        · refine Or.inr ⟨piece :: before, faulty, after, rfl, ?_, hfault⟩
          exact List.forall_mem_cons.mpr ⟨⟨entry, hentry⟩, hbefore⟩
      · exact Or.inr ⟨[], piece, cuts, rfl, nofun, not_exists.mp hpiece⟩

theorem threadIds_of_lists {ids : List UInt64} (h : Lists text ids) : threadIds text = .ok ids := by
  obtain ⟨cuts, entries, hcut, hentries, rfl⟩ := h
  rw [threadIds_of_cut hcut, idsOf_entries hentries]

theorem threadIds_of_fault (h : FirstFault text piece) :
    threadIds text = .error (.threadId (String.ofList piece)) := by
  obtain ⟨before, faulty, after, hcut, hbefore, hfault, htrims⟩ := h
  rw [threadIds_of_cut hcut, idsOf_append_fault hbefore htrims hfault]

/-- A list has one first fault at most. -/
theorem FirstFault.unique {other : List Char} (hother : FirstFault text other)
    (h : FirstFault text piece) : other = piece := by
  have hsame := (threadIds_of_fault hother).symm.trans (threadIds_of_fault h)
  rw [Except.error.injEq, ConfigError.threadId.injEq] at hsame
  exact String.ofList_inj.mp hsame

theorem lists_or_fault (text : List Char) :
    (∃ ids, Lists text ids) ∨ ∃ piece, FirstFault text piece := by
  have hcut : Cut ',' text (pieces ',' text) := pieces_eq_iff.mp rfl
  rcases entries_or_fault (pieces ',' text) with
    ⟨entries, hentries⟩ | ⟨before, faulty, after, hsplit, hbefore, hfault⟩
  · exact Or.inl ⟨_, _, entries, hcut, hentries, rfl⟩
  · rw [hsplit] at hcut
    exact Or.inr ⟨_, before, faulty, after, hcut, hbefore, hfault, trims_trim faulty⟩

end

/-! ## Writing a list -/

/-- One piece of a list as it may be written: blanks, a thread id or none, with a plus sign or
without and with zeros in front, and blanks again. -/
structure Written where
  before : List Char
  after : List Char
  plus : Bool
  zeros : Nat
  id? : Option UInt64
  blank : ∀ c ∈ before ++ after, isBlank c = true

namespace Written

def word (written : Written) : List Char :=
  match written.id? with
  | none => []
  | some id =>
    (if written.plus then ['+'] else []) ++ List.replicate written.zeros '0' ++ (toString id).toList

def text (written : Written) : String :=
  String.ofList (written.before ++ written.word ++ written.after)

theorem writesId_word {written : Written} {id : UInt64} (h : written.id? = some id) :
    WritesId written.word id := by
  have hdigits : Numeral (List.replicate written.zeros '0' ++ (toString id).toList) id.toNat := by
    have hid : (toString id).toList = Nat.toDigits 10 id.toNat := String.toList_ofList
    rw [hid]
    exact (numeral_toDigits id.toNat).zeros written.zeros
  rw [word, h]
  cases written.plus with
  | true => exact .plus hdigits
  | false => exact .plain hdigits

theorem solid_word (written : Written) : ∀ c ∈ written.word, isBlank c = false ∧ c ≠ ',' := by
  cases hid : written.id? with
  | none =>
      rw [word, hid]
      exact nofun
  | some id => exact (writesId_word hid).solid

theorem trims_text (written : Written) : Trims written.text.toList written.word where
  around := by
    have hblank := List.forall_mem_append.mp written.blank
    exact ⟨written.before, written.after, String.toList_ofList, List.all_eq_true.mpr hblank.1,
      List.all_eq_true.mpr hblank.2⟩
  head c hc := (written.solid_word c (List.mem_of_head? hc)).1
  last c hc := (written.solid_word c (List.mem_of_getLast? hc)).1

theorem entry_text (written : Written) : Entry written.text.toList written.id? := by
  have htrims := written.trims_text
  cases hid : written.id? with
  | none =>
      rw [word, hid] at htrims
      exact .blank htrims
  | some id => exact .thread htrims (writesId_word hid)

theorem comma_not_mem (written : Written) : ',' ∉ written.text.toList := by
  intro hmem
  have hblank := List.forall_mem_append.mp written.blank
  rw [text, String.toList_ofList, List.mem_append, List.mem_append] at hmem
  rcases hmem with (hbefore | hword) | hafter
  · exact absurd (hblank.1 ',' hbefore) (by decide)
  · exact (written.solid_word ',' hword).2 rfl
  · exact absurd (hblank.2 ',' hafter) (by decide)

end Written

theorem lists_written (items : List Written) :
    Lists (",".intercalate (items.map Written.text)).toList (items.filterMap Written.id?) := by
  rw [String.toList_intercalate, List.map_map]
  by_cases hempty : items = []
  · subst hempty
    refine ⟨[[]], [none], ⟨List.cons_ne_nil _ _, by simp, rfl⟩, ?_, rfl⟩
    exact .cons (.blank ⟨⟨[], [], rfl, rfl, rfl⟩, nofun, nofun⟩) .nil
  · refine ⟨_, items.map Written.id?, ⟨by simpa using hempty, ?_, rfl⟩, ?_, ?_⟩
    · exact List.forall_mem_map.mpr fun written _ => written.comma_not_mem
    · exact List.forall₂_map_left_iff.mpr (List.forall₂_map_right_iff.mpr
        (List.forall₂_same.mpr fun written _ => written.entry_text))
    · rw [List.filterMap_map]
      rfl

/-! ## Expressions -/

/-- The filter that lets these threads through. -/
def including (ids : List UInt64) : ThreadFilter := ⟨some ids, none⟩

/-- The filter that keeps these threads out. -/
def excluding (ids : List UInt64) : ThreadFilter := ⟨none, some ids⟩

theorem traces_including {ids : List UInt64} {thread : UInt64} :
    (including ids).traces thread = true ↔ thread ∈ ids := by
  simp [including, traces]

theorem traces_excluding {ids : List UInt64} {thread : UInt64} :
    (excluding ids).traces thread = true ↔ thread ∉ ids := by
  simp [excluding, traces]

theorem isPrefixOf_toList_iff {word expression : String} :
    word.toList.isPrefixOf expression.toList = true ↔ ∃ list, expression = word ++ list := by
  rw [List.isPrefixOf_iff_prefix]
  constructor
  · rintro ⟨rest, hrest⟩
    refine ⟨String.ofList rest, String.toList_inj.mp ?_⟩
    rw [String.toList_append, String.toList_ofList, hrest]
  · rintro ⟨list, rfl⟩
    rw [String.toList_append]
    exact List.prefix_append _ _

/-- The words differ in their first letter. -/
theorem include_ne_exclude (list other : String) : "include=" ++ list ≠ "exclude=" ++ other := by
  intro h
  have hletters := congrArg String.toList h
  rw [String.toList_append, String.toList_append] at hletters
  exact absurd (List.cons.inj hletters).1 (by decide)

theorem ofExpression_include (list : String) :
    ofExpression ("include=" ++ list) = (threadIds list.toList).map including := by
  have hword : includeWord.isPrefixOf ("include=" ++ list).toList = true :=
    isPrefixOf_toList_iff.mpr ⟨list, rfl⟩
  rw [ofExpression, if_pos hword, String.toList_append]
  exact congrArg (fun text => (threadIds text).map including) List.drop_left

theorem ofExpression_exclude (list : String) :
    ofExpression ("exclude=" ++ list) = (threadIds list.toList).map excluding := by
  have hother : ¬ includeWord.isPrefixOf ("exclude=" ++ list).toList = true := fun hprefix =>
    (isPrefixOf_toList_iff.mp hprefix).elim fun other h => include_ne_exclude other list h.symm
  have hword : excludeWord.isPrefixOf ("exclude=" ++ list).toList = true :=
    isPrefixOf_toList_iff.mpr ⟨list, rfl⟩
  rw [ofExpression, if_neg hother, if_pos hword, String.toList_append]
  exact congrArg (fun text => (threadIds text).map excluding) List.drop_left

theorem ofExpression_of_neither {expression : String}
    (hinclude : ∀ list, expression ≠ "include=" ++ list)
    (hexclude : ∀ list, expression ≠ "exclude=" ++ list) :
    ofExpression expression = .error (.filterExpression expression) := by
  have hnot : ∀ {word : String}, (∀ list, expression ≠ word ++ list) →
      ¬ word.toList.isPrefixOf expression.toList = true := fun h hprefix =>
    (isPrefixOf_toList_iff.mp hprefix).elim h
  rw [ofExpression]
  exact (if_neg (hnot hinclude)).trans (if_neg (hnot hexclude))

theorem ofExpression_of_fault {expression list : String} {piece : List Char}
    (hword : expression = "include=" ++ list ∨ expression = "exclude=" ++ list)
    (h : FirstFault list.toList piece) :
    ofExpression expression = .error (.threadId (String.ofList piece)) := by
  rcases hword with rfl | rfl
  · rw [ofExpression_include, threadIds_of_fault h]
    rfl
  · rw [ofExpression_exclude, threadIds_of_fault h]
    rfl

/-- What an expression comes to: a filter, if it is a word and a list behind it, and otherwise an
error that names the first faulty piece or, if there is no word, the whole expression. -/
structure Understood (expression : String) : Prop where
  accepted : (∃ filter, ofExpression expression = .ok filter) ↔
    ∃ list ids, (expression = "include=" ++ list ∨ expression = "exclude=" ++ list) ∧
      Lists list.toList ids
  included : ∀ {list : String} {ids : List UInt64}, expression = "include=" ++ list →
    Lists list.toList ids → ofExpression expression = .ok (including ids) ∧
      ∀ thread, (including ids).traces thread = true ↔ thread ∈ ids
  excluded : ∀ {list : String} {ids : List UInt64}, expression = "exclude=" ++ list →
    Lists list.toList ids → ofExpression expression = .ok (excluding ids) ∧
      ∀ thread, (excluding ids).traces thread = true ↔ thread ∉ ids
  faulty : ∀ {list : String},
    expression = "include=" ++ list ∨ expression = "exclude=" ++ list →
      (¬ ∃ ids, Lists list.toList ids) →
        ∃ piece, (∀ other, FirstFault list.toList other ↔ other = piece) ∧
          ofExpression expression = .error (.threadId (String.ofList piece)) ∧
          (Error.config (.threadId (String.ofList piece))).message =
            "Invalid configuration: " ++ ("Invalid thread id: " ++ String.ofList piece)
  neither : (∀ list, expression ≠ "include=" ++ list) →
    (∀ list, expression ≠ "exclude=" ++ list) →
      ofExpression expression = .error (.filterExpression expression)

theorem understood (expression : String) : Understood expression where
  accepted := by
    constructor
    · rintro ⟨filter, hfilter⟩
      by_cases hword : ∃ list, expression = "include=" ++ list ∨ expression = "exclude=" ++ list
      · obtain ⟨list, hword⟩ := hword
        rcases lists_or_fault list.toList with ⟨ids, hlists⟩ | ⟨piece, hfault⟩
        · exact ⟨list, ids, hword, hlists⟩
        · exact nomatch hfilter.symm.trans (ofExpression_of_fault hword hfault)
      · have hneither := ofExpression_of_neither (fun list h => hword ⟨list, Or.inl h⟩)
          fun list h => hword ⟨list, Or.inr h⟩
        exact nomatch hfilter.symm.trans hneither
    · rintro ⟨list, ids, rfl | rfl, hlists⟩
      · rw [ofExpression_include, threadIds_of_lists hlists]
        exact ⟨_, rfl⟩
      · rw [ofExpression_exclude, threadIds_of_lists hlists]
        exact ⟨_, rfl⟩
  included {list ids} hword hlists := by
    rw [hword, ofExpression_include, threadIds_of_lists hlists]
    exact ⟨rfl, fun _ => traces_including⟩
  excluded {list ids} hword hlists := by
    rw [hword, ofExpression_exclude, threadIds_of_lists hlists]
    exact ⟨rfl, fun _ => traces_excluding⟩
  faulty {list} hword hnone := by
    obtain ⟨piece, hfault⟩ := (lists_or_fault list.toList).resolve_left hnone
    refine ⟨piece, fun other => ⟨fun hother => hother.unique hfault, ?_⟩,
      ofExpression_of_fault hword hfault, rfl⟩
    rintro rfl
    exact hfault
  neither := ofExpression_of_neither

/-- Every expression comes to what its grammar says, and every list of thread ids that is written
after one of the words comes back. -/
theorem expressions_settled : (∀ expression, Understood expression) ∧
    ∀ items : List Written,
      ofExpression ("include=" ++ ",".intercalate (items.map Written.text)) =
        .ok (including (items.filterMap Written.id?)) ∧
      ofExpression ("exclude=" ++ ",".intercalate (items.map Written.text)) =
        .ok (excluding (items.filterMap Written.id?)) := by
  refine ⟨understood, fun items => ⟨?_, ?_⟩⟩
  · exact ((understood _).included rfl (lists_written items)).1
  · exact ((understood _).excluded rfl (lists_written items)).1

example : ofExpression "include=1, +02 ,,3" = .ok (including [1, 2, 3]) := by rfl

end ThreadFilter

end CallLedger
