import CallLedger.Proofs.Records
import CallLedger.Proofs.Reprobing
import CallLedger.Proofs.Roots
import CallLedger.Profile.Merge

/-!
# Records add up

When profiles are merged, all that was said of one method, or at one call path,
ends up in one place. `Collected` says what is found there: nothing if there was
nothing to begin with, and otherwise one thing that counts as much as all of the
pieces and keeps a mark of the first of them. What is collected from what was
collected before is collected from everything (`Collected.append`).

For the records this is the whole story, since a record is added to the record
of its method and to no other. Not everything on a record adds up at any time,
though: a table of allocations finds rows by key, so its sums are right only as
long as no two rows have one key. `Additive` tells what adds up, and on which
records; a registry that takes in records one by one then collects it
(`Sound.collected_foldl`).
-/

namespace CallLedger

/-! ## One place for many pieces -/

/-- What has been made of some pieces: nothing of none, and otherwise one thing that counts as
much as all of them and has the mark of the first. -/
def Collected {γ M β : Type} [Zero M] [Add M] (value : γ → M) (mark : γ → β)
    (pieces whole : List γ) : Prop :=
  match pieces with
  | [] => whole = []
  | first :: _ => ∃ one, whole = [one] ∧ value one = (pieces.map value).sum ∧
      mark one = mark first

namespace Collected

variable {γ M β : Type} [AddMonoid M] {value : γ → M} {mark : γ → β}
  {pieces more whole after : List γ}

theorem single (piece : γ) : Collected value mark [piece] [piece] :=
  ⟨piece, rfl, (add_zero _).symm, rfl⟩

theorem sum_eq (h : Collected value mark pieces whole) :
    (whole.map value).sum = (pieces.map value).sum := by
  cases pieces with
  | nil =>
      rw [show whole = [] from h]
  | cons first rest =>
      obtain ⟨one, rfl, hvalue, -⟩ := h
      rw [List.map_singleton, List.sum_singleton, hvalue]

/-- What was collected may take part in collecting. -/
theorem append (h : Collected value mark pieces whole)
    (hmore : Collected value mark (whole ++ more) after) :
    Collected value mark (pieces ++ more) after := by
  cases pieces with
  | nil =>
      rw [show whole = [] from h] at hmore
      exact hmore
  | cons first rest =>
      obtain ⟨one, rfl, hvalue, hmark⟩ := h
      obtain ⟨last, rfl, hlast, hlastMark⟩ := hmore
      refine ⟨last, rfl, ?_, hlastMark.trans hmark⟩
      rw [hlast, List.singleton_append, List.map_cons, List.sum_cons, hvalue, List.map_append,
        List.sum_append]

/-- What neither the value nor the mark depends on may change. -/
theorem congr (h : Collected value mark pieces whole) (drop : γ → γ)
    (hsame : after.map drop = whole.map drop) (hvalue : ∀ one, value (drop one) = value one)
    (hmark : ∀ one, mark (drop one) = mark one) : Collected value mark pieces after := by
  cases pieces with
  | nil =>
      rw [show whole = [] from h] at hsame
      exact List.map_eq_nil_iff.mp hsame
  | cons first rest =>
      obtain ⟨one, rfl, hone, hfirst⟩ := h
      obtain ⟨last, rfl, hlast⟩ := List.map_eq_singleton_iff.mp hsame
      refine ⟨last, rfl, ?_, ?_⟩
      · rw [← hvalue last, hlast, hvalue, hone]
      · rw [← hmark last, hlast, hmark, hfirst]

end Collected

variable {α : Type}

/-! ## The records of a method -/

namespace Registry

variable {methods : Registry α}

theorem Sound.collected_self {M : Type} [AddMonoid M] (hs : methods.Sound)
    (value : MethodRecord α → M) (method : Method) :
    Collected value MethodRecord.method (methods.recordsOf method)
      (methods.recordsOf method) := by
  rcases hs.recordsOf_cases method with ⟨-, record, -, -, hrecords⟩ | hrecords
  · rw [hrecords]
    exact Collected.single record
  · rw [hrecords]
    exact rfl

theorem hasRoot_iff {method : Method} :
    methods.HasRoot method ↔ (methods.recordsOf method).any (·.root) = true := by
  rw [List.any_eq_true]
  constructor
  · rintro ⟨id, record, hid, hmethod, hroot⟩
    exact ⟨record, mem_recordsOf.mpr ⟨⟨id, hid⟩, hmethod⟩, hroot⟩
  · rintro ⟨record, hrecord, hroot⟩
    obtain ⟨⟨id, hid⟩, hmethod⟩ := mem_recordsOf.mp hrecord
    exact ⟨id, record, hid, hmethod, hroot⟩

theorem Sound.spent_eq [ExactAmount α] (hs : methods.Sound) (method : Method) :
    methods.spent method = ((methods.recordsOf method).map (·.measurement)).sum := by
  rcases hs.recordsOf_cases method with ⟨id, record, hid, rfl, hrecords⟩ | hrecords
  · rw [hrecords, hs.spent_record hid, List.map_singleton, List.sum_singleton]
  · rw [hrecords]
    refine spent_unknown fun hid hmethod => ?_
    have hmem := mem_recordsOf.mpr ⟨⟨_, hid⟩, hmethod⟩
    rw [hrecords] at hmem
    cases hmem

/-! ## Taking records in -/

section TakingIn

variable [Amount α]

/-- Adds a record to that of its method, which is made if need be. -/
def mergeRecord (methods : Registry α) (record : MethodRecord α) : Registry α :=
  let (methods, id) := methods.adopt record
  methods.modify id (·.absorb record)

/-- A profile that takes in records keeps its tree. -/
theorem foldl_mergeMethod : ∀ (records : List (MethodRecord α)) (profile : Profile α),
    records.foldl Profile.mergeMethod profile =
      { profile with methods := records.foldl mergeRecord profile.methods } := by
  intro records
  induction records with
  | nil => intro profile; rfl
  | cons record records ih => intro profile; exact ih (profile.mergeMethod record)

/-- A registry that knows a method: the record is the one it had, or says nothing yet. -/
structure Adopted (methods adopted : Registry α) (method : Method) (id : MethodId)
    (base : MethodRecord α) : Prop where
  sound : adopted.Sound
  records : ∀ {i : Nat} {record : MethodRecord α}, adopted.record? i = some record →
    methods.record? i = some record ∨ Unseen record
  found : adopted.record? id = some base
  named : base.method = method
  own : methods.recordsOf method = [base] ∨ methods.recordsOf method = [] ∧ Unseen base
  others : ∀ other ≠ method, adopted.recordsOf other = methods.recordsOf other

theorem Sound.adopted (hs : methods.Sound) {method : Method} {excluded : Bool}
    {after : Registry α} {id : Nat} (h : Entered methods method excluded after id) :
    ∃ base, Adopted methods after method id base := by
  cases h with
  | known hlocate =>
      obtain ⟨found, hfound, rfl⟩ := locate_found hlocate
      exact ⟨found, hs, Or.inl, hfound, rfl, Or.inl (hs.recordsOf_record hfound), fun _ _ => rfl⟩
  | @new fresh hmethod hlocate hunseen _ =>
      subst hmethod
      refine ⟨fresh, hs.push hlocate, fun {i record} hi => ?_, by rw [record?_push, if_pos rfl],
        rfl, Or.inr ⟨recordsOf_unknown fun hi => ((hs.locate_free hlocate).1 hi).2, hunseen⟩,
        fun other hne => ?_⟩
      · rw [record?_push] at hi
        split at hi
        · cases hi
          exact Or.inr hunseen
        · exact Or.inl hi
      · rw [recordsOf_push, if_neg hne, List.append_nil]

end TakingIn

section Additive

variable {M : Type} [AddMonoid M] {law : MethodRecord α → Prop} {value : MethodRecord α → M}

/-- What adds up when a record takes in another one, on records that a law holds of. -/
structure Additive [Amount α] (law : MethodRecord α → Prop) (value : MethodRecord α → M) :
    Prop where
  unseen : ∀ {record : MethodRecord α}, Unseen record → law record ∧ value record = 0
  absorb : ∀ {record : MethodRecord α} (other : MethodRecord α), law record →
    law (record.absorb other) ∧ value (record.absorb other) = value record + value other

/-- A registry that has taken in some records. -/
structure Gathered (methods after : Registry α) (law : MethodRecord α → Prop)
    (value : MethodRecord α → M) (records : List (MethodRecord α)) : Prop where
  sound : after.Sound
  lawful : ∀ {id : Nat} {record : MethodRecord α}, after.record? id = some record → law record
  collected : ∀ method, Collected value MethodRecord.method
    (methods.recordsOf method ++ records.filter (·.method = method)) (after.recordsOf method)

theorem Gathered.trans {middle after : Registry α} {records more : List (MethodRecord α)}
    (h : Gathered methods middle law value records)
    (hmore : Gathered middle after law value more) :
    Gathered methods after law value (records ++ more) where
  sound := hmore.sound
  lawful := hmore.lawful
  collected method := by
    rw [List.filter_append, ← List.append_assoc]
    exact (h.collected method).append (hmore.collected method)

variable [Amount α]

theorem Sound.gathered_mergeRecord (hs : methods.Sound) (hadd : Additive law value)
    (hlaw : ∀ {id : Nat} {record : MethodRecord α}, methods.record? id = some record → law record)
    (record : MethodRecord α) :
    Gathered methods (methods.mergeRecord record) law value [record] := by
  have hentered := methods.adopt_entered record
  unfold mergeRecord
  generalize methods.adopt record = adopted at hentered ⊢
  obtain ⟨adopted, id⟩ := adopted
  obtain ⟨base, h⟩ := hs.adopted hentered
  have hbase : ∀ {i : Nat} {found : MethodRecord α}, adopted.record? i = some found →
      law found := by
    intro i found hi
    rcases h.records hi with hold | hunseen
    · exact hlaw hold
    · exact (hadd.unseen hunseen).1
  obtain ⟨-, hvalue⟩ := hadd.absorb record (hbase h.found)
  have hnames : (adopted.modify id (·.absorb record)).names = adopted.names :=
    names_modify (fun _ => rfl) fun _ => rfl
  refine ⟨h.sound.of_names hnames.symm, fun hid => ?_, fun method => ?_⟩
  · obtain ⟨before, hbefore, ⟨-, rfl⟩ | ⟨-, rfl⟩⟩ := record?_modify_cases hid
    · exact (hadd.absorb record (hbase hbefore)).1
    · exact hbase hbefore
  · show Collected _ _ _ ((adopted.modify id (·.absorb record)).recordsOf method)
    rw [h.sound.recordsOf_modify h.found (·.absorb record) (fun _ => rfl) (fun _ => rfl), h.named,
      filter_singleton]
    by_cases heq : method = record.method
    · rw [if_pos heq, if_pos heq, heq]
      rcases h.own with hown | ⟨hown, hunseen⟩
      · rw [hown]
        refine ⟨base.absorb record, rfl, ?_, rfl⟩
        rw [hvalue, List.singleton_append, List.map_cons, List.map_singleton, List.sum_cons,
          List.sum_singleton]
      · rw [hown]
        refine ⟨base.absorb record, rfl, ?_, h.named⟩
        rw [hvalue, (hadd.unseen hunseen).2, zero_add, List.nil_append, List.map_singleton,
          List.sum_singleton]
    · rw [if_neg heq, if_neg heq, h.others method heq, List.append_nil]
      exact hs.collected_self value method

theorem Sound.gathered_foldl (hadd : Additive law value) :
    ∀ {records : List (MethodRecord α)} {methods : Registry α}, methods.Sound →
      (∀ {id : Nat} {record : MethodRecord α}, methods.record? id = some record → law record) →
      Gathered methods (records.foldl mergeRecord methods) law value records := by
  intro records
  induction records with
  | nil =>
      intro methods hs hlaw
      refine ⟨hs, hlaw, fun method => ?_⟩
      rw [List.filter_nil, List.append_nil]
      exact hs.collected_self value method
  | cons record records ih =>
      intro methods hs hlaw
      have hfirst := hs.gathered_mergeRecord hadd hlaw record
      exact hfirst.trans (ih hfirst.sound hfirst.lawful)

end Additive

end Registry

/-! ## What adds up -/

/-- What is measured and noted on a record. -/
structure Notes (α : Type) where
  measurement : Measurement α
  recursive : Bool
  root : Bool

def MethodRecord.notes (record : MethodRecord α) : Notes α :=
  ⟨record.measurement, record.recursive, record.root⟩

namespace Notes

variable [ExactAmount α]

instance : Zero (Notes α) := ⟨⟨0, false, false⟩⟩

instance : Add (Notes α) :=
  ⟨fun a b => ⟨a.measurement + b.measurement, a.recursive || b.recursive, a.root || b.root⟩⟩

instance : AddMonoid (Notes α) where
  zero_add a := by
    show (⟨0 + a.measurement, false || a.recursive, false || a.root⟩ : Notes α) = a
    rw [zero_add, Bool.false_or, Bool.false_or]
  add_zero a := by
    show (⟨a.measurement + 0, a.recursive || false, a.root || false⟩ : Notes α) = a
    rw [add_zero, Bool.or_false, Bool.or_false]
  add_assoc a b c := by
    refine Eq.trans (b := ⟨a.measurement + (b.measurement + c.measurement),
      a.recursive || (b.recursive || c.recursive), a.root || (b.root || c.root)⟩) ?_ rfl
    rw [← add_assoc, ← Bool.or_assoc, ← Bool.or_assoc]
    rfl
  nsmul := nsmulRec

theorem measurement_sum (notes : List (Notes α)) :
    notes.sum.measurement = (notes.map (·.measurement)).sum := by
  induction notes with
  | nil => rfl
  | cons first rest ih =>
      rw [List.map_cons, List.sum_cons, List.sum_cons, ← ih]
      rfl

theorem root_sum (notes : List (Notes α)) : notes.sum.root = notes.any (·.root) := by
  induction notes with
  | nil => rfl
  | cons first rest ih =>
      rw [List.any_cons, List.sum_cons, ← ih]
      rfl

end Notes

theorem Registry.additive_notes [ExactAmount α] :
    Additive (fun _ : MethodRecord α => True) MethodRecord.notes where
  unseen {record} hunseen := by
    refine ⟨trivial, ?_⟩
    show (⟨_, _, _⟩ : Notes α) = ⟨_, _, _⟩
    rw [hunseen.cost, hunseen.recursive, hunseen.root]
    rfl
  absorb _ _ := ⟨trivial, rfl⟩

namespace AllocationTable

/-- How many objects a table lists, and how many bytes they take. -/
def total (table : AllocationTable) : ℕ × ℕ :=
  (table.rows.map fun row => (row.count, row.memory)).sum

theorem place_perm (row : AllocationRow) (rows : List AllocationRow) :
    (place row rows).Perm (row :: rows) := by
  induction rows with
  | nil => exact List.Perm.refl _
  | cons first rest ih =>
      rw [place]
      split
      · exact (ih.cons first).trans (List.Perm.swap _ _ _)
      · exact List.Perm.refl _

/-- Only one row takes in what is added under its key. -/
theorem sum_added {key : UInt64} (count memory : ℕ) : ∀ {rows : List AllocationRow},
    rows.Pairwise Precedes → rows.any (fun row => row.site.key = key) = true →
    ((rows.map fun row => if row.site.key = key then
        (⟨row.site, row.count + count, row.memory + memory⟩ : AllocationRow) else row).map
          fun row => (row.count, row.memory)).sum =
      (rows.map fun row => (row.count, row.memory)).sum + (count, memory) := by
  intro rows
  induction rows with
  | nil => nofun
  | cons first rest ih =>
      intro hsorted hany
      obtain ⟨hfirst, hrest⟩ := List.pairwise_cons.mp hsorted
      rw [List.map_cons, List.map_cons, List.sum_cons, List.map_cons, List.sum_cons]
      by_cases hkey : first.site.key = key
      · have hothers : (rest.map fun row => if row.site.key = key then
            (⟨row.site, row.count + count, row.memory + memory⟩ : AllocationRow) else row) =
              rest := by
          refine List.map_congr_left (fun row hrow => ?_) |>.trans (List.map_id rest)
          rw [if_neg fun heq => (hfirst row hrow).apart (hkey.trans heq.symm)]
          rfl
        rw [if_pos hkey, hothers, add_right_comm]
        rfl
      · rw [if_neg hkey, add_assoc, ih hrest]
        rw [List.any_cons, decide_eq_false hkey, Bool.false_or] at hany
        exact hany

theorem Sorted.total_add {table : AllocationTable} (h : table.Sorted) (site : AllocationSite)
    (count memory : ℕ) :
    (table.add site count memory).total = table.total + (count, memory) := by
  unfold AllocationTable.add
  split
  · next hany => exact sum_added count memory h hany
  · rw [total, ((place_perm _ _).map _).sum_eq, List.map_cons, List.sum_cons, add_comm]
    rfl

theorem Sorted.total_merge {table : AllocationTable} (h : table.Sorted)
    (rows : List AllocationRow) :
    (table.merge rows).total = table.total + (⟨rows⟩ : AllocationTable).total := by
  unfold AllocationTable.merge
  induction rows generalizing table with
  | nil => exact (add_zero _).symm
  | cons row rows ih =>
      rw [List.foldl_cons, addRow, ih (h.add _ _ _), h.total_add, add_assoc]
      rfl

end AllocationTable

theorem Registry.additive_allocations [Amount α] :
    Additive (fun record : MethodRecord α => record.allocations.Sorted)
      fun record => record.allocations.total where
  unseen {record} hunseen := by
    rw [hunseen.allocations]
    exact ⟨AllocationTable.sorted_empty, rfl⟩
  absorb other hsorted := ⟨hsorted.merge _, hsorted.total_merge _⟩

end CallLedger
