import CallLedger.Proofs.Registry
import CallLedger.Proofs.Rows
import CallLedger.Dump.Load

/-!
# Entering the same methods again finds the same keys

The key of a method depends on the keys that were taken when it was first
seen. A registry only ever grows, by a record under the key that is free for
its method, so its keys are those which the same methods get when they are
entered in the same order in an empty registry (`Grown`). That is all there is
to know about where keys come from, and it makes a registry sound.

Loading a dump enters the listed records in their order. Those of one registry
have different methods, so each gets the position that it had (`Restores`); and
when the registry had grown, each gets the key that it had as well, however
keys had collided (`Grown.relisted`).
-/

namespace CallLedger.Registry

variable {α : Type}

/-! ## Rows in order -/

/-- Every record holds its allocations in order. -/
def Tidy (methods : Registry α) : Prop :=
  ∀ (id : Nat) (record : MethodRecord α), methods.record? id = some record →
    record.allocations.Sorted

theorem tidy_empty : (empty : Registry α).Tidy :=
  fun _ _ hid => absurd (record?_lt hid) (Nat.not_lt_zero _)

theorem Tidy.push {methods : Registry α} (h : methods.Tidy) {record : MethodRecord α}
    (hrecord : record.allocations.Sorted) : (methods.push record).Tidy := by
  intro id found hid
  rw [record?_push] at hid
  split at hid
  · cases hid
    exact hrecord
  · exact h _ _ hid

theorem Tidy.modify {methods : Registry α} (h : methods.Tidy) (id : Nat)
    {change : MethodRecord α → MethodRecord α}
    (hchange : ∀ record, record.allocations.Sorted → (change record).allocations.Sorted) :
    (methods.modify id change).Tidy := by
  intro other found hother
  obtain ⟨before, hbefore, ⟨-, rfl⟩ | ⟨-, rfl⟩⟩ := record?_modify_cases hother
  · exact hchange before (h _ _ hbefore)
  · exact h _ _ hbefore

/-! ## Grown registries -/

theorem Sound.insert {methods : Registry α} (hs : methods.Sound) (record : MethodRecord α) :
    (methods.insert record).1.Sound := by
  unfold Registry.insert
  cases hlocate : methods.locate record.method with
  | found id => exact hs
  | free key => exact hs.push hlocate

theorem names_insert {methods : Registry α} {record : MethodRecord α} {key : Key}
    (hlocate : methods.locate record.method = .free key) :
    (methods.insert record).1.names = methods.names.push (key, record.method) := by
  unfold Registry.insert
  rw [hlocate]
  exact names_push

/-- The methods of the records, in their order. -/
def identities (methods : Registry α) : List Method := methods.names.toList.map (·.2)

theorem identities_eq (methods : Registry α) :
    methods.identities = methods.records.toList.map (·.method) := by
  unfold identities names
  rw [Array.toList_map, List.map_map]
  rfl

theorem identities_push {methods : Registry α} {record : MethodRecord α} :
    (methods.push record).identities = methods.identities ++ [record.method] := by
  unfold identities
  rw [names_push, Array.toList_push, List.map_append]
  rfl

theorem identities_getElem? {methods : Registry α} {id : Nat} :
    methods.identities[id]? = (methods.record? id).map (·.method) := by
  rw [identities_eq, List.getElem?_map, Array.getElem?_toList]
  rfl

variable [Amount α]

/-- An empty registry after methods have been entered in order. -/
def entering (methods : List Method) : Registry α :=
  methods.foldl (fun registry method => (registry.insert (.fresh (.spare 0) method)).1) .empty

theorem entering_concat (methods : List Method) (method : Method) :
    (entering (methods ++ [method]) : Registry α) =
      ((entering methods).insert (.fresh (.spare 0) method)).1 := by
  unfold entering
  rw [List.foldl_append]
  rfl

theorem sound_entering (methods : List Method) : (entering methods : Registry α).Sound := by
  induction methods using List.reverseRecOn with
  | nil => exact sound_empty
  | append_singleton methods method ih =>
      rw [entering_concat]
      exact ih.insert _

/-- The keys are those that the methods get when they are entered in order. -/
def Grown (methods : Registry α) : Prop :=
  methods.names = (entering methods.identities : Registry α).names

theorem grown_empty : (empty : Registry α).Grown := by
  simp [Grown, identities, names, entering, empty]

theorem Grown.sound {methods : Registry α} (h : methods.Grown) : methods.Sound :=
  (sound_entering methods.identities).of_names h.symm

theorem Grown.of_names {methods others : Registry α} (h : methods.Grown)
    (hnames : others.names = methods.names) : others.Grown := by
  unfold Grown identities
  rw [hnames]
  exact h

/-- The order of the methods decides about the keys. -/
theorem Grown.names_eq {methods others : Registry α} (h : methods.Grown) (ho : others.Grown)
    (hsame : methods.identities = others.identities) : methods.names = others.names := by
  rw [h, ho, hsame]

theorem Grown.push {methods : Registry α} (h : methods.Grown) {record : MethodRecord α}
    (hlocate : methods.locate record.method = .free record.key) :
    (methods.push record).Grown := by
  have hentering : (entering methods.identities : Registry α).locate
      (MethodRecord.fresh (.spare 0) record.method : MethodRecord α).method = .free record.key := by
    rw [← locate_congr h]
    exact hlocate
  unfold Grown
  rw [identities_push, entering_concat, names_push, h]
  exact (names_insert hentering).symm

theorem Grown.insert {methods : Registry α} (h : methods.Grown) (record : MethodRecord α) :
    (methods.insert record).1.Grown := by
  unfold Registry.insert
  cases hlocate : methods.locate record.method with
  | found id => exact h
  | free key => exact h.push hlocate

/-! ## Loading records -/

/-- What entering a listed method keeps, entering all of them keeps. -/
theorem ofDump_keeps (law : Registry α × Array MethodId → Prop) (hempty : law (.empty, #[]))
    (hinsert : ∀ {methods : Registry α} {ids : Array MethodId} (dumped : DumpedMethod α),
      law (methods, ids) →
        law ((methods.insert dumped.toRecord).1, ids.push (methods.insert dumped.toRecord).2))
    (dumped : List (DumpedMethod α)) : law (ofDump dumped) := by
  unfold ofDump
  generalize ((.empty, #[]) : Registry α × Array MethodId) = start at hempty
  induction dumped generalizing start with
  | nil => exact hempty
  | cons first rest ih => exact ih _ (hinsert first hempty)

/-- What has been entered, with the position that each listed method got. -/
structure Entries (methods : Registry α) (ids : Array MethodId) : Prop where
  grown : methods.Grown
  tidy : methods.Tidy
  known : ∀ {i id : Nat}, ids[i]? = some id → id < methods.size

theorem entries_ofDump (dumped : List (DumpedMethod α)) :
    Entries (ofDump dumped).1 (ofDump dumped).2 := by
  refine ofDump_keeps (fun entered => Entries entered.1 entered.2)
    ⟨grown_empty, tidy_empty, by simp⟩ (fun {methods ids} listed h => ?_) dumped
  refine ⟨h.grown.insert _, ?_, ?_⟩
  · unfold Registry.insert
    cases methods.locate listed.toRecord.method with
    | found id => exact h.tidy
    | free key => exact h.tidy.push (AllocationTable.sorted_empty.merge _)
  · intro i id hid
    rw [Array.getElem?_push] at hid
    unfold Registry.insert at hid ⊢
    cases hlocate : methods.locate listed.toRecord.method with
    | found other =>
        obtain ⟨record, hrecord, -⟩ := locate_found hlocate
        rw [hlocate] at hid
        split at hid
        · cases hid
          exact record?_lt hrecord
        · exact h.known hid
    | free key =>
        rw [hlocate] at hid
        show id < (methods.push _).size
        rw [size_push]
        split at hid
        · cases hid
          exact Nat.lt_succ_self _
        · exact Nat.lt_succ_of_lt (h.known hid)

/-- The registry holds what was entered, under keys of its own, and nothing
else. -/
structure Restores (records : List (MethodRecord α)) (methods : Registry α)
    (ids : Array MethodId) : Prop where
  sound : methods.Sound
  size : methods.size = records.length
  count : ids.size = records.length
  ids : ∀ {i : Nat}, i < records.length → ids[i]? = some i
  record : ∀ {i : Nat} {record : MethodRecord α}, records[i]? = some record →
    ∃ key, methods.record? i =
      some { (DumpedMethod.ofRecord record).toRecord with key := key }

theorem Restores.insert {records : List (MethodRecord α)} {methods : Registry α}
    {ids : Array MethodId} (h : Restores records methods ids) {record : MethodRecord α}
    (hnew : ∀ known ∈ records, known.method ≠ record.method) :
    Restores (records ++ [record])
      (methods.insert (DumpedMethod.ofRecord record).toRecord).1
      (ids.push (methods.insert (DumpedMethod.ofRecord record).toRecord).2) := by
  have hlocate : ∃ key, methods.locate record.method = .free key := by
    cases hlocate : methods.locate record.method with
    | free key => exact ⟨key, rfl⟩
    | found id =>
        obtain ⟨found, hfound, hmethod⟩ := locate_found hlocate
        have hlt := record?_lt hfound
        rw [h.size] at hlt
        obtain ⟨key, hrestored⟩ := h.record (List.getElem?_eq_getElem hlt)
        rw [hfound, Option.some.injEq] at hrestored
        rw [hrestored] at hmethod
        exact absurd hmethod (hnew records[id] (List.getElem_mem hlt))
  obtain ⟨key, hlocate⟩ := hlocate
  have hinsert : methods.insert (DumpedMethod.ofRecord record).toRecord =
      (methods.push { (DumpedMethod.ofRecord record).toRecord with key := key },
        methods.size) := by
    unfold Registry.insert
    rw [show methods.locate (DumpedMethod.ofRecord record).toRecord.method = .free key
      from hlocate]
  rw [hinsert]
  refine ⟨h.sound.push hlocate, ?_, ?_, ?_, ?_⟩
  · rw [size_push, h.size, List.length_append, List.length_singleton]
  · rw [Array.size_push, h.count, List.length_append, List.length_singleton]
  · intro i hi
    rw [List.length_append, List.length_singleton] at hi
    rw [Array.getElem?_push, h.count]
    split
    · next heq => rw [heq, h.size]
    · exact h.ids (by omega)
  · intro i found hi
    rw [record?_push, h.size]
    split
    · next heq =>
        rw [heq, List.getElem?_concat_length, Option.some.injEq] at hi
        exact ⟨key, by rw [hi]⟩
    · next hne =>
        have hlt := (List.getElem?_eq_some_iff.mp hi).1
        rw [List.length_append, List.length_singleton] at hlt
        rw [List.getElem?_append_left (by omega)] at hi
        exact h.record hi

theorem restores_foldl : ∀ {rest records : List (MethodRecord α)}
    {methods : Registry α} {ids : Array MethodId}, Restores records methods ids →
    (records ++ rest).Pairwise (fun a b => a.method ≠ b.method) →
    ∃ after ids', (rest.map DumpedMethod.ofRecord).foldl
        (fun (registry, ids) dumped =>
          let (registry, id) := Registry.insert registry dumped.toRecord
          (registry, ids.push id)) (methods, ids) = (after, ids') ∧
      Restores (records ++ rest) after ids' := by
  intro rest
  induction rest with
  | nil =>
      intro records methods ids h _
      rw [List.append_nil]
      exact ⟨methods, ids, rfl, h⟩
  | cons record rest ih =>
      intro records methods ids h hpairwise
      have hnew : ∀ known ∈ records, known.method ≠ record.method :=
        fun known hknown => (List.pairwise_append.mp hpairwise).2.2 known hknown record
          List.mem_cons_self
      rw [List.append_cons] at hpairwise ⊢
      exact ih (h.insert hnew) hpairwise

/-- The records of a sound registry get the positions that they had. -/
theorem Sound.restores {methods : Registry α} (hs : methods.Sound) :
    Restores methods.records.toList
      (ofDump (methods.records.toList.map DumpedMethod.ofRecord)).1
      (ofDump (methods.records.toList.map DumpedMethod.ofRecord)).2 := by
  have hstart : Restores ([] : List (MethodRecord α)) empty #[] :=
    ⟨sound_empty, rfl, rfl, fun hi => absurd hi (Nat.not_lt_zero _), by simp⟩
  obtain ⟨after, ids, hfold, hrestores⟩ := restores_foldl hstart hs.pairwise
  rw [ofDump, hfold]
  exact hrestores

/-- Each record comes back with all that a dump lists of it, but for the key. -/
theorem Restores.restored {methods after : Registry α} {ids : Array MethodId}
    (h : Restores methods.records.toList after ids) {id : Nat} {record : MethodRecord α}
    (hid : methods.record? id = some record) :
    ∃ key, after.record? id =
      some { (DumpedMethod.ofRecord record).toRecord with key := key } := by
  refine h.record ?_
  rw [Array.getElem?_toList]
  exact hid

theorem Restores.of_restored {methods after : Registry α} {ids : Array MethodId}
    (h : Restores methods.records.toList after ids) {id : Nat} {found : MethodRecord α}
    (hid : after.record? id = some found) :
    ∃ record, methods.record? id = some record ∧
      ∃ key, found = { (DumpedMethod.ofRecord record).toRecord with key := key } := by
  have hlt := record?_lt hid
  rw [h.size, Array.length_toList] at hlt
  obtain ⟨record, hrecord⟩ := exists_record? hlt
  obtain ⟨key, hfound⟩ := h.restored hrecord
  rw [hid, Option.some.injEq] at hfound
  exact ⟨record, hrecord, key, hfound⟩

theorem Restores.map_listed {methods after : Registry α} {ids : Array MethodId} {β : Type}
    (h : Restores methods.records.toList after ids) (f : MethodRecord α → β)
    (hf : ∀ {id : Nat} {record found : MethodRecord α}, methods.record? id = some record →
      after.record? id = some found → (∃ key, found =
        { (DumpedMethod.ofRecord record).toRecord with key := key }) → f found = f record) :
    after.records.toList.map f = methods.records.toList.map f := by
  refine List.ext_getElem? fun i => ?_
  rw [List.getElem?_map, List.getElem?_map, Array.getElem?_toList, Array.getElem?_toList]
  show (after.record? i).map f = (methods.record? i).map f
  cases hid : methods.record? i with
  | none =>
      cases hafter : after.record? i with
      | none => rfl
      | some found =>
          obtain ⟨record, hrecord, -⟩ := h.of_restored hafter
          rw [hid] at hrecord
          cases hrecord
  | some record =>
      obtain ⟨key, hfound⟩ := h.restored hid
      rw [hfound]
      exact congrArg some (hf hid hfound ⟨key, rfl⟩)

theorem Grown.restored_names {methods after : Registry α} {ids : Array MethodId}
    (h : methods.Grown) (ho : after.Grown) (hrestores : Restores methods.records.toList after ids) :
    after.names = methods.names := by
  refine ho.names_eq h ?_
  rw [identities_eq, identities_eq]
  refine hrestores.map_listed _ fun _ _ ⟨key, hfound⟩ => ?_
  rw [hfound]
  rfl

/-- The records of a registry that has grown are listed again as they were, their keys
included. -/
theorem Grown.relisted {methods : Registry α} (h : methods.Grown) (htidy : methods.Tidy) :
    (ofDump (methods.records.toList.map DumpedMethod.ofRecord)).1.records.toList.map
        DumpedMethod.ofRecord = methods.records.toList.map DumpedMethod.ofRecord := by
  have hrestores := h.sound.restores
  have hnames := h.restored_names (entries_ofDump _).grown hrestores
  refine hrestores.map_listed _ fun {id record found} hrecord hfound => ?_
  rintro ⟨key, rfl⟩
  obtain ⟨other, hother, hkey, -⟩ := record?_of_names hnames hfound
  rw [hrecord] at hother
  cases hother
  change record.key = key at hkey
  have hrows : AllocationTable.empty.merge record.allocations.rows = record.allocations :=
    (htidy _ _ hrecord).merge_rows
  simp only [DumpedMethod.ofRecord, DumpedMethod.toRecord, MethodRecord.fresh, hrows, hkey]

end CallLedger.Registry
