import CallLedger.Dump.Format
import CallLedger.Event.Codec
import CallLedger.Proofs.Spelling

/-!
# Dumps and events come back from their texts

A text is read as the data it was written from, with null in the place of the reals that are not
finite (`Json.read?_pretty`, `Json.read?_compact`), and from that data a structure is read exactly
when none of its own amounts is among these. So a dump with an infinity or a NaN is refused and
never read as another dump.

An event leaves out the fields that it has nothing to tell in, and these are the fields that are
read as nothing told when they are missing. For both it is enough to know what stands under each
name (`Event.lookup_entry`), as the names of the fields that are there are still all different
(`Event.names_entries`).

That a finite real is read as it was written is an assumption about each real that occurs. It does
not hold of all of them: the reader rounds twice.
-/

namespace CallLedger

open Data

theorem Data.lookup_masked (keep : Binary64 → Bool) (named : List (String × Data))
    (name : String) : (named.map fun entry => (entry.1, entry.2.masked keep)).lookup name =
      (named.lookup name).map (masked keep) := by
  induction named with
  | nil => rfl
  | cons entry rest ih =>
      rw [List.map_cons, List.lookup_cons, List.lookup_cons]
      cases name == entry.1 with
      | false => exact ih
      | true => rfl

namespace Field

theorem among_masked (keep : Binary64 → Bool) (named : List (String × Data)) (name : String) :
    among (named.map fun entry => (entry.1, entry.2.masked keep)) name =
      match named.lookup name with
      | some data => .given (data.masked keep)
      | none => .omitted := by
  rw [among, lookup_masked]
  cases named.lookup name <;> rfl

end Field

theorem EventKind.lookup_name (kind : EventKind) : named.lookup kind.name = some kind := by
  cases kind <;> rfl

theorem EntityKind.lookup_name (kind : EntityKind) : named.lookup kind.name = some kind := by
  rcases kind with ⟨_ | _ | _ | _ | _⟩ | _ <;> rfl

section

variable (keep : Binary64 → Bool)

theorem Entity.ofData?_masked (entity : Entity) :
    ofData? (entity.toData.masked keep) = some entity := by
  rw [toData, masked_fields, ofData?, fields?_fields (by simp)]
  simp [Field.among, Field.required, List.lookup, variant?, named?, text?, EntityKind.lookup_name]

theorem AllocatedObject.ofData?_masked (object : AllocatedObject) :
    ofData? (object.toData.masked keep) = some object := by
  rw [toData, masked_fields, ofData?, fields?_fields (by simp)]
  simp [Field.among, Field.required, Field.defaulted, List.lookup, text?]

namespace Event

/-- Whether an event has something to say in a field. -/
def tells (event : Event Binary64) : String → Bool
  | "entity" => event.entity.isSome
  | "member" => event.member.isSome
  | "source_file" => event.file.isSome
  | "allocation" => event.allocation.isSome
  | _ => true

def entries (event : Event Binary64) : List (String × Data) :=
  [("kind", .text event.kind.name), ("thread_id", .nat event.thread.toNat),
    ("fiber_id", .nat event.fiber.toNat), ("measurement", .real event.sample)] ++
  entry "entity" Entity.toData event.entity ++ entry "member" .text event.member ++
  entry "source_file" .text event.file ++ [("line", .nat event.line.toNat)] ++
  entry "allocation" AllocatedObject.toData event.allocation

theorem toData_eq (event : Event Binary64) : event.toData = .fields event.entries := rfl

theorem names_entry {β : Type} (name : String) (write : β → Data) (value : Option β) :
    (entry name write value).map (·.1) = if value.isSome then [name] else [] := by
  cases value <;> rfl

theorem lookup_entry {β : Type} (name other : String) (write : β → Data) (value : Option β) :
    (entry name write value).lookup other = if other = name then value.map write else none := by
  cases value with
  | none => simp [entry]
  | some value =>
      by_cases h : other = name
      · simp [entry, h]
      · simp [entry, List.lookup_cons, beq_eq_false_iff_ne.mpr h, h]

/-- The entries stand in the order of the fields, and those with nothing to tell are left out. -/
theorem names_entries (event : Event Binary64) :
    event.entries.map (·.1) = fieldNames.filter event.tells := by
  simp only [entries, List.map_append, names_entry, fieldNames, List.filter_cons, List.filter_nil,
    tells]
  cases event.entity.isSome <;> cases event.member.isSome <;> cases event.file.isSome <;>
    cases event.allocation.isSome <;> rfl

/-- A field that may be left out is read as it was written, be it there or not. -/
theorem optional_masked {β : Type} {write : β → Data} {read : Data → Option β}
    (value : Option β)
    (h : ∀ x ∈ value, (write x).masked keep ≠ null ∧ read ((write x).masked keep) = some x) :
    Field.optional read (match value.map write with
      | some data => .given (data.masked keep)
      | none => .omitted) = some value := by
  cases value with
  | none => rfl
  | some x =>
      have hread : nullable? read (optional (fun x => (write x).masked keep) (some x)) = _ :=
        nullable?_optional h
      exact hread

theorem names_masked (event : Event Binary64) :
    (event.entries.map fun entry => (entry.1, entry.2.masked keep)).map (·.1) =
      fieldNames.filter event.tells := by
  rw [List.map_map, Function.comp_def, names_entries]

/-- What is read of an event is the event if its sample is kept, and nothing otherwise. -/
theorem ofData?_masked (event : Event Binary64) :
    ofData? (event.toData.masked keep) = if keep event.sample then some event else none := by
  have hnodup : ((event.entries.map fun entry => (entry.1, entry.2.masked keep)).map
      (·.1)).Nodup := by
    rw [names_masked]
    exact (by decide : fieldNames.Nodup).filter _
  have htext : ∀ value : Option String, Field.optional text? (match value.map Data.text with
      | some data => .given (data.masked keep)
      | none => .omitted) = some value := fun value =>
    optional_masked keep value fun _ _ =>
      ⟨by rw [masked_text]; exact nofun, by rw [masked_text]; rfl⟩
  have hentity := optional_masked keep event.entity fun entity _ =>
    ⟨by rw [Entity.toData, masked_fields]; exact nofun, entity.ofData?_masked keep⟩
  have hallocation := optional_masked keep event.allocation fun object _ =>
    ⟨by rw [AllocatedObject.toData, masked_fields]; exact nofun, object.ofData?_masked keep⟩
  rw [toData_eq, masked_fields, ofData?, fields?_fields hnodup]
  simp only [fieldNames, List.map_cons, List.map_nil, Field.among_masked]
  simp [entries, List.lookup_append, lookup_entry, List.lookup, htext, hentity, hallocation,
    Field.required, Field.defaulted, variant?, named?, EventKind.lookup_name, real?_masked,
    bind_guarded]

theorem within_entry {limits : Limits} {β : Type} {name : String} {write : β → Data}
    {value : Option β} (h : ∀ x ∈ value, (write x).Within limits) :
    ∀ written ∈ entry name write value, written.2.Within limits := by
  cases value with
  | none => nofun
  | some x => simpa [entry] using h x rfl

theorem within {event : Event Binary64} (h : Json.limits.real event.sample) :
    event.toData.Within Json.limits := by
  have hline := event.line.toNat_lt
  have hentity : ∀ entity : Entity, entity.toData.Within Json.limits := fun entity => by
    refine .fields (by simp) rfl ?_
    simp only [List.forall_mem_cons]
    exact ⟨.text trivial, .text trivial, nofun⟩
  have hobject : ∀ object : AllocatedObject, object.toData.Within Json.limits := fun object => by
    refine .fields (by simp) rfl ?_
    simp only [List.forall_mem_cons]
    exact ⟨.text trivial, .nat object.size.toNat_lt, nofun⟩
  have hlength : event.entries.length ≤ fieldNames.length := by
    rw [← List.length_map (·.1), names_entries]
    exact List.length_filter_le _ _
  have hnames : (event.entries.map (·.1)).all (fun name => name.utf8ByteSize < 32) = true := by
    have hall : fieldNames.all (fun name => name.utf8ByteSize < 32) = true := rfl
    rw [names_entries]
    exact List.all_eq_true.mpr fun name hname =>
      List.all_eq_true.mp hall name (List.mem_filter.mp hname).1
  rw [toData_eq]
  refine .fields (Nat.lt_of_le_of_lt hlength (by decide)) hnames ?_
  simp only [entries, List.forall_mem_append, List.forall_mem_cons]
  exact ⟨⟨⟨⟨⟨⟨.text trivial, .nat event.thread.toNat_lt, .nat event.fiber.toNat_lt, .real h,
    nofun⟩, within_entry fun entity _ => hentity entity⟩, within_entry fun _ _ => .text trivial⟩,
    within_entry fun _ _ => .text trivial⟩, .nat (by omega), nofun⟩,
    within_entry fun object _ => hobject object⟩

end Event

end

/-! ## Texts -/

theorem Dump.ofJson_toJson (dump : Dump Binary64) (hcounts : ∀ n ∈ dump.counts, n < 2 ^ 64)
    (hreals : ∀ x ∈ dump.amounts, Json.limits.real x) :
    ofJson dump.toJson =
      if dump.amounts.all Binary64.isFinite then .ok dump else .error .malformed := by
  have hread := Json.read?_pretty (dump.within Json.limits hcounts hreals (fun _ _ => trivial)
    fun _ _ => trivial)
  rw [ofJson, toJson, String.toList_ofList, hread, Option.bind_some,
    ofData?_masked _ _ hcounts]
  cases dump.amounts.all Binary64.isFinite <;> rfl

theorem Event.read?_toJson {event : Event Binary64} (h : Json.limits.real event.sample) :
    Json.read? event.toJson.toList = some (event.toData.masked Binary64.isFinite) := by
  rw [toJson, String.toList_ofList, Json.read?_compact (within h)]

/-- A dump comes back from its JSON text if all its amounts are finite, and is refused otherwise. An
event with a finite sample comes back from its own, in which only the fields stand that have
something to tell. -/
theorem texts_come_back (dump : Dump Binary64) (event : Event Binary64)
    (hcounts : ∀ n ∈ dump.counts, n < 2 ^ 64)
    (hreals : ∀ x ∈ event.sample :: dump.amounts, x.isFinite = true →
      Json.readNumber (Decimal.ofReal x) = some (.real x, []))
    (hsample : event.sample.isFinite = true) :
    Dump.ofJson dump.toJson =
        (if dump.amounts.all Binary64.isFinite then .ok dump else .error .malformed) ∧
      Event.ofJson? event.toJson = some event ∧
      ∃ named, Json.read? event.toJson.toList = some (.fields named) ∧
        named.map (·.1) = Event.fieldNames.filter event.tells ∧
        named.lookup "entity" = event.entity.map fun entity =>
          .fields [("kind", .text entity.kind.name), ("name", .text entity.name)] := by
  rw [List.forall_mem_cons] at hreals
  have hread := Event.read?_toJson hreals.1
  refine ⟨dump.ofJson_toJson hcounts hreals.2, ?_, _, ?_, event.names_masked Binary64.isFinite, ?_⟩
  · rw [Event.ofJson?, hread]
    exact (event.ofData?_masked _).trans (if_pos hsample)
  · rw [hread, Event.toData_eq, masked_fields]
  · rw [lookup_masked]
    simp [Event.entries, List.lookup_append, Event.lookup_entry, List.lookup, Entity.toData,
      Function.comp_def]

/-- A dump of one call, with amounts in both layouts of reals and of both signs. -/
def Dump.sample : Dump Binary64 where
  version := 1
  programVersion := "0.1.0"
  measureMode := .wallTime
  contexts := [{
    thread := 0xFFFFFFFFFFFFFFFF
    fiber := 7
    methods := [
      { key := 0x80000000FFFFFFFF
        method := ⟨⟨.instanceSingleton, "a\"b\\c\n\x01λ𝕊"⟩, "run"⟩
        source := some ⟨"app.rb", 0xFFFFFFFF⟩
        measurement := ⟨.ofFloat 1.5, .negativeZero, .ofFloat 2e16, 0xFFFFFFFFFFFFFFFF⟩
        recursive := false
        root := true
        excluded := false
        allocations := [⟨⟨"", 0, "String"⟩, 1, 40⟩] }]
    nodes := [
      { method := 0, parent := none, measurement := ⟨.ofFloat 1.5, .zero, .ofFloat (-1e-7), 1⟩,
        site := .none },
      { method := 0, parent := some 0, measurement := .empty, site := ⟨some "app.rb", 3⟩ }] }]

/-- A call with an entity and a member and nothing else to tell. -/
def Event.sampleCall : Event Binary64 :=
  (Event.call ⟨.moduleInclusion, "Kernel\t"⟩ "puts").sampled (.ofFloat 0.1)

theorem Dump.sample_comes_back :
    (∀ n ∈ sample.counts, n < 2 ^ 64) ∧
      (∀ x ∈ Event.sampleCall.sample :: sample.amounts, x.isFinite = true →
        Json.readNumber (Decimal.ofReal x) = some (.real x, [])) ∧
      Event.sampleCall.sample.isFinite = true ∧
      ofJson sample.toJson =
        (if sample.amounts.all Binary64.isFinite then .ok sample else .error .malformed) ∧
      Event.ofJson? Event.sampleCall.toJson = some Event.sampleCall := by
  have hcounts : ∀ n ∈ sample.counts, n < 2 ^ 64 := by decide
  have hreals : ∀ x ∈ Event.sampleCall.sample :: sample.amounts, x.isFinite = true →
      Json.readNumber (Decimal.ofReal x) = some (.real x, []) := by
    have hamounts : Event.sampleCall.sample :: sample.amounts =
      [.ofFloat 0.1, .ofFloat 1.5, .negativeZero, .ofFloat 2e16, .ofFloat 1.5, .zero,
        .ofFloat (-1e-7), .zero, .zero, .zero] := rfl
    rw [hamounts]
    simp only [List.forall_mem_cons]
    exact ⟨fun _ => rfl, fun _ => rfl, fun _ => rfl, fun _ => rfl, fun _ => rfl, fun _ => rfl,
      fun _ => rfl, fun _ => rfl, fun _ => rfl, fun _ => rfl, nofun⟩
  have hsample : Event.sampleCall.sample.isFinite = true := by decide +kernel
  have hback := texts_come_back sample Event.sampleCall hcounts hreals hsample
  exact ⟨hcounts, hreals, hsample, hback.1, hback.2.1⟩

end CallLedger
