import Mathlib
import CallLedger.Dump.Codec
import CallLedger.Dump.Same

/-!
# A dump is read from the data it is written as

Every structure is written as a record of its fields under names of their own, so each field finds
its own value and no other (`Data.fields?_fields`), and each field reads the value that it wrote.
From the rows of an allocation table upwards to the whole dump, what is read is what was written.

A format may have no form for some amounts. It shows null in their place, and a structure with
such an amount is not read at all: null is no number. So all lemmas are about data in which the
amounts that a format does not keep are masked, and say that a structure comes back exactly when
all its amounts are kept.
-/

namespace CallLedger

/-- What a structure finds for the field of a name among named values. -/
def Field.among (named : List (String × Data)) (name : String) : Field :=
  match named.lookup name with
  | some data => .given data
  | none => .omitted

namespace Data

/-! ## Masking -/

mutual

/-- The data with null in the place of every real that is not kept. -/
def masked (keep : Binary64 → Bool) : Data → Data
  | real value => if keep value then real value else null
  | list items => list (maskedItems keep items)
  | record entries => record (maskedEntries keep entries)
  | data => data

def maskedItems (keep : Binary64 → Bool) : List Data → List Data
  | [] => []
  | item :: rest => masked keep item :: maskedItems keep rest

def maskedEntries (keep : Binary64 → Bool) : List (Data × Data) → List (Data × Data)
  | [] => []
  | (key, value) :: rest => (key, masked keep value) :: maskedEntries keep rest

end

section

variable (keep : Binary64 → Bool)

theorem maskedItems_eq_map (items : List Data) :
    maskedItems keep items = items.map (masked keep) := by
  induction items with
  | nil => rfl
  | cons item rest ih => rw [maskedItems, ih, List.map_cons]

theorem maskedEntries_eq_map (entries : List (Data × Data)) :
    maskedEntries keep entries = entries.map fun entry => (entry.1, masked keep entry.2) := by
  induction entries with
  | nil => rfl
  | cons entry rest ih => rw [maskedEntries, ih, List.map_cons]

@[simp] theorem masked_nat (n : Nat) : (nat n).masked keep = nat n := by simp [nat, masked]

@[simp] theorem masked_text (s : String) : (text s).masked keep = text s := by simp [masked]

@[simp] theorem masked_bool (value : Bool) : (bool value).masked keep = bool value := by
  simp [masked]

@[simp] theorem masked_list (items : List Data) :
    (list items).masked keep = list (items.map (masked keep)) := by
  rw [masked, maskedItems_eq_map]

@[simp] theorem masked_fields (named : List (String × Data)) :
    (fields named).masked keep =
      fields (named.map fun entry => (entry.1, entry.2.masked keep)) := by
  simp only [fields, masked, maskedEntries_eq_map, List.map_map, Function.comp_def]

theorem masked_optional {β : Type} (write : β → Data) (value : Option β) :
    (optional write value).masked keep = optional (fun x => (write x).masked keep) value := by
  cases value <;> simp [optional, masked]

end

mutual

/-- Nothing is masked if everything is kept. -/
theorem masked_true : ∀ data, masked (fun _ => true) data = data
  | null | bool _ | int _ | real _ | text _ | bytes _ | unreadable => by simp [masked]
  | list items => by rw [masked, maskedItems_true items]
  | record entries => by rw [masked, maskedEntries_true entries]

theorem maskedItems_true : ∀ items, maskedItems (fun _ => true) items = items
  | [] => rfl
  | item :: rest => by rw [maskedItems, masked_true item, maskedItems_true rest]

theorem maskedEntries_true : ∀ entries, maskedEntries (fun _ => true) entries = entries
  | [] => rfl
  | (key, value) :: rest => by rw [maskedEntries, masked_true value, maskedEntries_true rest]

end

/-! ## Lists -/

theorem bind_guarded {β γ : Type} (ok : Prop) [Decidable ok] (x : β) (next : β → Option γ) :
    (if ok then some x else none).bind next = if ok then next x else none := by
  split <;> rfl

/-- A reader that answers for some members of a list answers for the list if it does for all. -/
theorem mapM_guarded {β γ : Type} {read : β → Option γ} {ok : β → Bool} {result : β → γ}
    {xs : List β} (h : ∀ x ∈ xs, read x = if ok x then some (result x) else none) :
    xs.mapM read = if xs.all ok then some (xs.map result) else none := by
  induction xs with
  | nil => rfl
  | cons x rest ih =>
      rw [List.mapM_cons, h x List.mem_cons_self, ih fun y hy => h y (List.mem_cons_of_mem _ hy),
        List.all_cons]
      cases ok x <;> cases rest.all ok <;> simp

theorem mapM_total {β γ : Type} {read : β → Option γ} {result : β → γ} {xs : List β}
    (h : ∀ x ∈ xs, read x = some (result x)) : xs.mapM read = some (xs.map result) := by
  have hok : ∀ x ∈ xs, read x = if (fun _ => true) x then some (result x) else none := h
  rw [mapM_guarded hok, if_pos (List.all_eq_true.mpr fun _ _ => rfl)]

theorem list?_guarded {β : Type} {read : Data → Option β} {write : β → Data} {ok : β → Bool}
    {xs : List β} (h : ∀ x ∈ xs, read (write x) = if ok x then some x else none) :
    list? read (list (xs.map write)) = if xs.all ok then some xs else none := by
  have hread : ∀ x ∈ xs, (read ∘ write) x = if ok x then some (id x) else none := h
  rw [list?, List.mapM_map, mapM_guarded hread, List.map_id]

theorem list?_total {β : Type} {read : Data → Option β} {write : β → Data} {xs : List β}
    (h : ∀ x ∈ xs, read (write x) = some x) : list? read (list (xs.map write)) = some xs := by
  have hok : ∀ x ∈ xs, read (write x) = if (fun _ => true) x then some x else none := h
  rw [list?_guarded hok, if_pos (List.all_eq_true.mpr fun _ _ => rfl)]

/-! ## Fields -/

/-- Among entries under names of their own there is at most one value for a name. -/
theorem valuesOf_named {named : List (String × Data)} (h : (named.map (·.1)).Nodup)
    (name : String) :
    valuesOf name (named.map fun entry => (some entry.1, entry.2)) =
      (named.lookup name).toList := by
  induction named with
  | nil => rfl
  | cons entry rest ih =>
      obtain ⟨other, value⟩ := entry
      rw [List.map_cons, List.nodup_cons] at h
      have hrest := ih h.2
      unfold valuesOf at hrest ⊢
      rw [List.map_cons, List.filterMap_cons, List.lookup_cons, hrest]
      by_cases hname : name = other
      · subst hname
        have hnone : rest.lookup name = none :=
          List.lookup_eq_none_iff.mpr fun entry hentry => bne_iff_ne.mpr fun heq =>
            h.1 (List.mem_map.mpr ⟨entry, hentry, heq.symm⟩)
        simp [hnone]
      · rw [beq_eq_false_iff_ne.mpr hname]
        simp [Ne.symm hname]

/-- A record of named values has for each field the value under its name. -/
theorem fields?_fields {named : List (String × Data)} (h : (named.map (·.1)).Nodup)
    (names : List String) :
    (fields named).fields? false names = some (names.map (Field.among named)) := by
  have hkeys : ∀ entry ∈ named, ((fun written : Data × Data =>
      (keyText? names written.1).map fun key => (key, written.2)) ∘
        fun entry : String × Data => (text entry.1, entry.2)) entry =
          some (some entry.1, entry.2) := fun _ _ => rfl
  simp only [fields, fields?, List.mapM_map]
  rw [mapM_total hkeys]
  refine mapM_total fun name _ => ?_
  rw [valuesOf_named h, Field.among]
  cases named.lookup name <;> rfl

/-! ## Leaves -/

@[simp] theorem count?_nat {n : Nat} (h : n < UInt64.size) : (nat n).count? = some n :=
  if_pos h

@[simp] theorem uint64?_nat (n : UInt64) : (nat n.toNat).uint64? = some n := by
  have hread : natBelow? UInt64.size (nat n.toNat) = some n.toNat := if_pos n.toNat_lt
  simp [uint64?, hread]

@[simp] theorem uint32?_nat (n : UInt32) : (nat n.toNat).uint32? = some n := by
  have hread : natBelow? UInt32.size (nat n.toNat) = some n.toNat := if_pos n.toNat_lt
  simp [uint32?, hread]

/-- Null is no number. -/
theorem real?_masked (keep : Binary64 → Bool) (x : Binary64) :
    ((real x).masked keep).real? = if keep x then some x else none := by
  rw [masked]
  split <;> rfl

theorem nullable?_optional {β : Type} {read : Data → Option β} {write : β → Data}
    {value : Option β} (h : ∀ x ∈ value, write x ≠ null ∧ read (write x) = some x) :
    nullable? read (optional write value) = some value := by
  cases value with
  | none => rfl
  | some x =>
      obtain ⟨hwritten, hread⟩ := h x rfl
      rw [optional, nullable?, hread]
      · rfl
      · exact hwritten

end Data

section

variable {α : Type}

/-! ## The counts of a dump -/

namespace AllocationRow

def counts (row : AllocationRow) : List Nat := [row.count, row.memory]

end AllocationRow

def DumpedMethod.counts (dumped : DumpedMethod α) : List Nat :=
  dumped.measurement.called :: dumped.allocations.flatMap AllocationRow.counts

/-- The counts of a node; the positions of its method and its parent are counts too. -/
def DumpedNode.counts (dumped : DumpedNode α) : List Nat :=
  dumped.method :: dumped.measurement.called :: dumped.parent.toList

def DumpedContext.counts (dumped : DumpedContext α) : List Nat :=
  dumped.methods.flatMap DumpedMethod.counts ++ dumped.nodes.flatMap DumpedNode.counts

/-- All whole numbers of a dump that are written in 64 bits. -/
def Dump.counts (dump : Dump α) : List Nat := dump.contexts.flatMap DumpedContext.counts

end

theorem OwnerKind.lookup_name (kind : OwnerKind) : named.lookup kind.name = some kind := by
  cases kind <;> rfl

theorem MeasureMode.lookup_name (mode : MeasureMode) : named.lookup mode.name = some mode := by
  cases mode <;> rfl

variable (keep : Binary64 → Bool)

open Data

theorem Owner.ofData?_masked (dialect : Dialect) (owner : Owner) :
    ofData? dialect (owner.toData.masked keep) = some owner := by
  rw [toData, masked_fields, ofData?, fields?_fields (by simp)]
  simp [Field.among, Field.required, List.lookup, variant?, named?, text?, OwnerKind.lookup_name]

theorem SourceLocation.ofData?_masked (source : SourceLocation) :
    ofData? (source.toData.masked keep) = some source := by
  rw [toData, masked_fields, ofData?, fields?_fields (by simp)]
  simp [Field.among, Field.required, List.lookup, text?]

theorem CallSite.ofData?_masked (site : CallSite) :
    ofData? (site.toData.masked keep) = some site := by
  have hfile : nullable? text? (optional text site.file) = some site.file :=
    nullable?_optional fun _ _ => ⟨nofun, rfl⟩
  rw [toData, masked_fields, ofData?, fields?_fields (by simp)]
  simp [Field.among, Field.required, Field.optionalInRecord, List.lookup, masked_optional, hfile]

theorem Measurement.ofData?_masked {m : Measurement Binary64} (h : m.called < UInt64.size) :
    ofData? (m.toData.masked keep) = if m.amounts.all keep then some m else none := by
  rw [toData, masked_fields, ofData?, fields?_fields (by simp)]
  simp [Field.among, Field.required, List.lookup, real?_masked, h, amounts, bind_guarded, ite_and]

theorem AllocationRow.ofData?_masked {row : AllocationRow}
    (h : ∀ n ∈ row.counts, n < UInt64.size) :
    ofData? (row.toData.masked keep) = some row := by
  simp only [counts, List.forall_mem_cons] at h
  rw [toData, masked_fields, ofData?, fields?_fields (by simp)]
  simp [Field.among, Field.required, List.lookup, text?, h.1, h.2.1]

theorem DumpedMethod.ofData?_masked (dialect : Dialect) {dumped : DumpedMethod Binary64}
    (h : ∀ n ∈ dumped.counts, n < UInt64.size) :
    ofData? dialect (dumped.toData.masked keep) =
      if dumped.measurement.amounts.all keep then some dumped else none := by
  rw [counts, List.forall_mem_cons, List.forall_mem_flatMap] at h
  have hsource : nullable? SourceLocation.ofData?
      (optional (fun source => source.toData.masked keep) dumped.source) = some dumped.source :=
    nullable?_optional fun source _ =>
      ⟨by rw [SourceLocation.toData, masked_fields]; exact nofun, source.ofData?_masked keep⟩
  have hrows : list? AllocationRow.ofData?
      (list (dumped.allocations.map fun row => row.toData.masked keep)) =
        some dumped.allocations :=
    list?_total fun row hrow => AllocationRow.ofData?_masked keep (h.2 row hrow)
  rw [toData, masked_fields, ofData?, fields?_fields (by simp)]
  simp [Field.among, Field.required, Field.optional, Field.defaulted, fieldNames, List.lookup,
    text?, bool?, masked_optional, hsource, Function.comp_def, hrows,
    Owner.ofData?_masked, Measurement.ofData?_masked keep h.1, bind_guarded]

theorem DumpedNode.ofData?_masked {dumped : DumpedNode Binary64}
    (h : ∀ n ∈ dumped.counts, n < UInt64.size) :
    ofData? (dumped.toData.masked keep) =
      if dumped.measurement.amounts.all keep then some dumped else none := by
  simp only [counts, List.forall_mem_cons, Option.mem_toList] at h
  have hparent : nullable? count? (optional nat dumped.parent) = some dumped.parent :=
    nullable?_optional fun n hn => ⟨nofun, count?_nat (h.2.2 n hn)⟩
  rw [toData, masked_fields, ofData?, fields?_fields (by simp)]
  simp [Field.among, Field.required, Field.optional, Field.defaulted, List.lookup,
    masked_optional, hparent, h.1, CallSite.ofData?_masked,
    Measurement.ofData?_masked keep h.2.1, bind_guarded]

theorem DumpedContext.ofData?_masked (dialect : Dialect) {dumped : DumpedContext Binary64}
    (h : ∀ n ∈ dumped.counts, n < UInt64.size) :
    ofData? dialect (dumped.toData.masked keep) =
      if dumped.amounts.all keep then some dumped else none := by
  rw [counts, List.forall_mem_append, List.forall_mem_flatMap, List.forall_mem_flatMap] at h
  have hmethods := list?_guarded fun method hmethod =>
    DumpedMethod.ofData?_masked keep dialect (h.1 method hmethod)
  have hnodes := list?_guarded fun node hnode =>
    DumpedNode.ofData?_masked keep (h.2 node hnode)
  rw [toData, masked_fields, ofData?, fields?_fields (by simp)]
  simp [Field.among, Field.required, List.lookup, Function.comp_def, hmethods, hnodes, amounts,
    bind_guarded, ite_and]

/-- What is read of a dump is the dump if all its amounts are kept, and nothing otherwise. -/
theorem Dump.ofData?_masked (dialect : Dialect) {dump : Dump Binary64}
    (h : ∀ n ∈ dump.counts, n < UInt64.size) :
    ofData? dialect (dump.toData.masked keep) =
      if dump.amounts.all keep then some dump else none := by
  rw [counts, List.forall_mem_flatMap] at h
  have hcontexts := list?_guarded fun context hcontext =>
    DumpedContext.ofData?_masked keep dialect (h context hcontext)
  rw [toData, masked_fields, ofData?, fields?_fields (by simp)]
  simp [Field.among, Field.required, List.lookup, text?, variant?, named?,
    MeasureMode.lookup_name, Function.comp_def, hcontexts, amounts, bind_guarded]

end CallLedger
