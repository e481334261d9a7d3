import CallLedger.Proofs.Codecs

/-!
# What a dump is made of

A format keeps a value if the numbers, texts and lengths in it are such as the format has room or
words for. What these are is for each format to say (`Limits`), but any of them has room for 64 bits
and for the few short names that structures come with. So the data of a dump keeps within the limits
as soon as its own amounts, texts and lists do (`Dump.within`).
-/

namespace CallLedger

/-- The leaves and lengths that a format keeps. -/
structure Limits where
  whole : Int → Prop
  real : Binary64 → Prop
  text : String → Prop
  length : Nat → Prop
  whole_of_lt : ∀ n : Nat, n < 2 ^ 64 → whole n
  text_of_short : ∀ name : String, name.utf8ByteSize < 32 → text name
  length_of_few : ∀ n : Nat, n < 16 → length n

/-- A whole number that has 64 bits, with or without a sign. -/
def Limits.word (n : Int) : Prop := -2 ^ 63 ≤ n ∧ n < 2 ^ 64

theorem Limits.word_of_lt (n : Nat) (h : n < 2 ^ 64) : word n := by
  unfold word
  omega

/-- Data that a format keeps; keys are texts. -/
inductive Data.Within (limits : Limits) : Data → Prop
  | null : Within limits .null
  | bool (value : Bool) : Within limits (.bool value)
  | int {n : Int} (h : limits.whole n) : Within limits (.int n)
  | real {x : Binary64} (h : limits.real x) : Within limits (.real x)
  | text {text : String} (h : limits.text text) : Within limits (.text text)
  | list {items : List Data} (hlength : limits.length items.length)
      (hitems : ∀ item ∈ items, Within limits item) : Within limits (.list items)
  | record {entries : List (Data × Data)} (hlength : limits.length entries.length)
      (hkeys : ∀ entry ∈ entries, ∃ name, entry.1 = .text name ∧ limits.text name)
      (hvalues : ∀ entry ∈ entries, Within limits entry.2) : Within limits (.record entries)

section

variable {α : Type}

def AllocationRow.texts (row : AllocationRow) : List String := [row.site.className, row.site.file]

def DumpedMethod.texts (dumped : DumpedMethod α) : List String :=
  dumped.method.owner.name :: dumped.method.member :: dumped.source.toList.map (·.file) ++
    dumped.allocations.flatMap AllocationRow.texts

def DumpedContext.texts (dumped : DumpedContext α) : List String :=
  dumped.methods.flatMap DumpedMethod.texts ++ dumped.nodes.filterMap (·.site.file)

/-- All texts of a dump that are not names of its own. -/
def Dump.texts (dump : Dump α) : List String :=
  dump.programVersion :: dump.contexts.flatMap DumpedContext.texts

def DumpedContext.lengths (dumped : DumpedContext α) : List Nat :=
  dumped.methods.length :: dumped.nodes.length :: dumped.methods.map (·.allocations.length)

/-- The lengths of all lists in a dump. -/
def Dump.lengths (dump : Dump α) : List Nat :=
  dump.contexts.length :: dump.contexts.flatMap DumpedContext.lengths

end

variable {limits : Limits}

namespace Data.Within

theorem nat {n : Nat} (h : n < 2 ^ 64) : Within limits (.nat n) := int (limits.whole_of_lt n h)

/-- A structure with few fields and short names for them. -/
theorem fields {named : List (String × Data)} (hfew : named.length < 16)
    (hnames : (named.map (·.1)).all (fun name => name.utf8ByteSize < 32) = true)
    (hvalues : ∀ entry ∈ named, Within limits entry.2) : Within limits (.fields named) := by
  simp only [List.all_map, List.all_eq_true, Function.comp, decide_eq_true_eq] at hnames
  exact record (limits.length_of_few _ (by rwa [List.length_map]))
    (List.forall_mem_map.mpr fun entry hentry =>
      ⟨entry.1, rfl, limits.text_of_short entry.1 (hnames entry hentry)⟩)
    (List.forall_mem_map.mpr hvalues)

theorem optional {β : Type} {write : β → Data} {value : Option β}
    (h : ∀ x ∈ value, Within limits (write x)) : Within limits (.optional write value) := by
  cases value with
  | none => exact null
  | some x => exact h x rfl

theorem listOf {β : Type} {write : β → Data} {xs : List β} (hlength : limits.length xs.length)
    (h : ∀ x ∈ xs, Within limits (write x)) : Within limits (.list (xs.map write)) :=
  list (by rwa [List.length_map]) (List.forall_mem_map.mpr h)

end Data.Within

variable (limits)

theorem Owner.within {owner : Owner} (h : limits.text owner.name) :
    owner.toData.Within limits := by
  have hkind : owner.kind.name.utf8ByteSize < 32 := by
    cases owner.kind <;> decide
  refine .fields (by simp) rfl ?_
  simp only [List.forall_mem_cons]
  exact ⟨.text (limits.text_of_short _ hkind), .text h, List.forall_mem_nil _⟩

theorem SourceLocation.within {source : SourceLocation} (h : limits.text source.file) :
    source.toData.Within limits := by
  have hline := source.line.toNat_lt
  refine .fields (by simp) rfl ?_
  simp only [List.forall_mem_cons]
  exact ⟨.text h, .nat (by omega), List.forall_mem_nil _⟩

theorem CallSite.within {site : CallSite} (h : ∀ file ∈ site.file, limits.text file) :
    site.toData.Within limits := by
  have hline := site.line.toNat_lt
  refine .fields (by simp) rfl ?_
  simp only [List.forall_mem_cons]
  exact ⟨.optional fun file hfile => .text (h file hfile), .nat (by omega), List.forall_mem_nil _⟩

theorem Measurement.within {m : Measurement Binary64} (hcalled : m.called < 2 ^ 64)
    (hreals : ∀ x ∈ m.amounts, limits.real x) : m.toData.Within limits := by
  simp only [amounts, List.forall_mem_cons] at hreals
  obtain ⟨hself, hwait, htotal, -⟩ := hreals
  refine .fields (by simp) rfl ?_
  simp only [List.forall_mem_cons]
  exact ⟨.real hself, .real hwait, .real htotal, .nat hcalled, List.forall_mem_nil _⟩

theorem AllocationRow.within {row : AllocationRow} (hcounts : ∀ n ∈ row.counts, n < 2 ^ 64)
    (htexts : ∀ text ∈ row.texts, limits.text text) : row.toData.Within limits := by
  have hline := row.site.line.toNat_lt
  simp only [counts, texts, List.forall_mem_cons] at hcounts htexts
  refine .fields (by simp) rfl ?_
  simp only [List.forall_mem_cons]
  exact ⟨.text htexts.1, .text htexts.2.1, .nat (by omega), .nat hcounts.1, .nat hcounts.2.1,
    List.forall_mem_nil _⟩

theorem DumpedMethod.within {dumped : DumpedMethod Binary64}
    (hcounts : ∀ n ∈ dumped.counts, n < 2 ^ 64)
    (hreals : ∀ x ∈ dumped.measurement.amounts, limits.real x)
    (htexts : ∀ text ∈ dumped.texts, limits.text text)
    (hrows : limits.length dumped.allocations.length) : dumped.toData.Within limits := by
  simp only [counts, List.forall_mem_cons, List.forall_mem_flatMap] at hcounts
  simp only [texts, List.cons_append, List.forall_mem_cons, List.forall_mem_append,
    List.forall_mem_map, Option.mem_toList, List.forall_mem_flatMap] at htexts
  obtain ⟨hname, hmember, hsource, hsites⟩ := htexts
  refine .fields (by simp) rfl ?_
  simp only [List.forall_mem_cons]
  exact ⟨.nat dumped.key.toNat_lt, Owner.within limits hname, .text hmember,
    .optional fun source hsome => SourceLocation.within limits (hsource source hsome),
    Measurement.within limits hcounts.1 hreals, .bool _, .bool _, .bool _,
    .listOf hrows fun row hrow =>
      AllocationRow.within limits (hcounts.2 row hrow) (hsites row hrow), List.forall_mem_nil _⟩

theorem DumpedNode.within {dumped : DumpedNode Binary64}
    (hcounts : ∀ n ∈ dumped.counts, n < 2 ^ 64)
    (hreals : ∀ x ∈ dumped.measurement.amounts, limits.real x)
    (hfile : ∀ file ∈ dumped.site.file, limits.text file) : dumped.toData.Within limits := by
  simp only [counts, List.forall_mem_cons, Option.mem_toList] at hcounts
  refine .fields (by simp) rfl ?_
  simp only [List.forall_mem_cons]
  exact ⟨.nat hcounts.1, .optional fun parent hsome => .nat (hcounts.2.2 parent hsome),
    Measurement.within limits hcounts.2.1 hreals, CallSite.within limits hfile,
    List.forall_mem_nil _⟩

theorem DumpedContext.within {dumped : DumpedContext Binary64}
    (hcounts : ∀ n ∈ dumped.counts, n < 2 ^ 64) (hreals : ∀ x ∈ dumped.amounts, limits.real x)
    (htexts : ∀ text ∈ dumped.texts, limits.text text)
    (hlengths : ∀ n ∈ dumped.lengths, limits.length n) : dumped.toData.Within limits := by
  simp only [counts, List.forall_mem_append, List.forall_mem_flatMap] at hcounts
  simp only [amounts, List.forall_mem_append, List.forall_mem_flatMap] at hreals
  simp only [texts, List.forall_mem_append, List.forall_mem_flatMap] at htexts
  simp only [lengths, List.forall_mem_cons, List.forall_mem_map] at hlengths
  refine .fields (by simp) rfl ?_
  simp only [List.forall_mem_cons]
  exact ⟨.nat dumped.thread.toNat_lt, .nat dumped.fiber.toNat_lt,
    .listOf hlengths.1 fun method hmethod => DumpedMethod.within limits
      (hcounts.1 method hmethod) (hreals.1 method hmethod) (htexts.1 method hmethod)
      (hlengths.2.2 method hmethod),
    .listOf hlengths.2.1 fun node hnode => DumpedNode.within limits (hcounts.2 node hnode)
      (hreals.2 node hnode)
      fun file hfile => htexts.2 file (List.mem_filterMap.mpr ⟨node, hnode, hfile⟩),
    List.forall_mem_nil _⟩

/-- A dump keeps within the limits of a format if its counts fit into 64 bits and its amounts,
texts and lists are such as the format keeps. -/
theorem Dump.within (dump : Dump Binary64) (hcounts : ∀ n ∈ dump.counts, n < 2 ^ 64)
    (hreals : ∀ x ∈ dump.amounts, limits.real x) (htexts : ∀ text ∈ dump.texts, limits.text text)
    (hlengths : ∀ n ∈ dump.lengths, limits.length n) : dump.toData.Within limits := by
  have hversion := dump.version.toNat_lt
  have hmode : dump.measureMode.name.utf8ByteSize < 32 := by
    cases dump.measureMode <;> decide
  simp only [counts, List.forall_mem_flatMap] at hcounts
  simp only [amounts, List.forall_mem_flatMap] at hreals
  simp only [texts, List.forall_mem_cons, List.forall_mem_flatMap] at htexts
  simp only [lengths, List.forall_mem_cons, List.forall_mem_flatMap] at hlengths
  refine .fields (by simp) rfl ?_
  simp only [List.forall_mem_cons]
  exact ⟨.nat (by omega), .text htexts.1, .text (limits.text_of_short _ hmode),
    .listOf hlengths.1 fun context hcontext => DumpedContext.within limits
      (hcounts context hcontext) (hreals context hcontext) (htexts.2 context hcontext)
      (hlengths.2 context hcontext),
    List.forall_mem_nil _⟩

end CallLedger
