import CallLedger.Proofs.Reprobing

/-!
# A registry is a directory

A registry is only ever asked for methods, and it answers with an id: for a method that an
event names, for a whole record, or for a record that another registry holds. Whatever it
is asked for, a request for a method that is known changes nothing, and any other one adds
one record at the end (`Registry.answer_cases`).

So after any requests the records stand in the order in which their methods were first
asked for, each under a key of its own, and every answer was the place of the method in that
order (`Registry.Serves`). Nothing is said about keys here but that they differ. They may
collide as they like, and that a method is found again behind the methods that took its
candidates is known from `Registry.Sound`.
-/

namespace CallLedger.Registry

variable {α : Type}

/-- What a registry can be asked for. -/
inductive Request (α : Type) where
  /-- A method as an event names it. -/
  | create (entity : Entity) (member : String) (native : Bool) (source : Option SourceLocation)
      (exclusions : Exclusions)
  /-- A record with all that it holds. -/
  | insert (record : MethodRecord α)
  /-- A record of another registry, without what was measured there. -/
  | adopt (record : MethodRecord α)

/-- The method that is asked for: its resolved owner and member. -/
def Request.method : Request α → Method
  | .create entity member _ _ _ => .of entity member
  | .insert record => record.method
  | .adopt record => record.method

/-! ## Searching -/

theorem mem_identities {methods : Registry α} {method : Method} :
    method ∈ methods.identities ↔ ∃ id record, methods.record? id = some record ∧
      record.method = method := by
  rw [List.mem_iff_getElem?]
  refine exists_congr fun id => ?_
  rw [identities_getElem?, Option.map_eq_some_iff]

/-- The place of a method is the id of its record. -/
theorem Sound.idxOf_identities {methods : Registry α} (hs : methods.Sound) {id : Nat}
    {record : MethodRecord α} (hid : methods.record? id = some record) :
    methods.identities.idxOf record.method = id := by
  have hmem : record.method ∈ methods.identities := mem_identities.mpr ⟨id, record, hid, rfl⟩
  have hplace := List.getElem?_idxOf hmem
  rw [identities_getElem?] at hplace
  obtain ⟨other, hother, hmethod⟩ := Option.map_eq_some_iff.mp hplace
  exact hs.method_inj hother hid hmethod

theorem Sound.lookupFrom_eq_some_iff {methods : Registry α} (hs : methods.Sound)
    {others : Registry α} {theirs id : Nat} : methods.lookupFrom others theirs = some id ↔
      ∃ record mine, others.record? theirs = some record ∧ methods.record? id = some mine ∧
        mine.method = record.method := by
  unfold lookupFrom
  cases others.record? theirs with
  | none => exact iff_of_false nofun (by simp)
  | some record => simp [hs.lookup_eq_some_iff]

/-- The search for a method ends, at its record or at a key that is free for it. -/
def Ends (methods : Registry α) (method : Method) : Prop := methods.search method ≠ none

/-- The key of a method whose search ended is one of its candidates. -/
theorem Ends.free_eq {methods : Registry α} {method : Method} (h : methods.Ends method)
    {key : Key} (hlocate : methods.locate method = .free key) :
    ∃ n, key = .hash (Key.candidate method n) := by
  unfold locate at hlocate
  split at hlocate
  · next located hprobe =>
      rw [hlocate] at hprobe
      obtain ⟨m, -, hkey, -, -⟩ := probe_free (n := 0) hprobe
      exact ⟨m, hkey⟩
  · next hnone => exact absurd hnone h

/-! ## Answering -/

variable [Amount α]

def answer (methods : Registry α) : Request α → Registry α × MethodId
  | .create entity member native source exclusions =>
    methods.lookupOrCreate (.of entity member) native source exclusions
  | .insert record => methods.insert record
  | .adopt record => methods.adopt record

/-- An empty registry after some requests, with its answers. -/
def served (requests : List (Request α)) : Registry α × List MethodId :=
  requests.foldl
    (fun (methods, ids) request =>
      let (methods, id) := methods.answer request
      (methods, ids ++ [id]))
    (.empty, [])

/-- A request for a known method changes nothing; any other adds a record of the method. -/
theorem answer_cases (methods : Registry α) (request : Request α) :
    (∃ id, methods.locate request.method = .found id ∧
      methods.answer request = (methods, id)) ∨
    ∃ record, record.method = request.method ∧
      methods.locate request.method = .free record.key ∧
      methods.answer request = (methods.push record, methods.size) := by
  have hinsert : ∀ record : MethodRecord α,
      (∃ id, methods.locate record.method = .found id ∧
        methods.insert record = (methods, id)) ∨
      ∃ added, added.method = record.method ∧ methods.locate record.method = .free added.key ∧
        methods.insert record = (methods.push added, methods.size) := by
    intro record
    unfold Registry.insert
    cases hlocate : methods.locate record.method with
    | found id => exact Or.inl ⟨id, rfl, rfl⟩
    | free key => exact Or.inr ⟨{ record with key := key }, rfl, rfl, rfl⟩
  cases request with
  | create entity member native source exclusions =>
      simp only [Request.method, answer, lookupOrCreate]
      cases hlocate : methods.locate (Method.of entity member) with
      | found id => exact Or.inl ⟨id, rfl, rfl⟩
      | free key => exact Or.inr ⟨_, rfl, rfl, rfl⟩
  | insert record => exact hinsert record
  | adopt record => exact hinsert record.detached

theorem served_concat (requests : List (Request α)) (request : Request α) :
    served (requests ++ [request]) =
      (((served requests).1.answer request).1,
        (served requests).2 ++ [((served requests).1.answer request).2]) := by
  unfold served
  rw [List.foldl_append]
  rfl

/-- The registry and its answers after some requests. -/
structure Serves (requests : List (Request α)) (methods : Registry α) (ids : List MethodId) :
    Prop where
  sound : methods.Sound
  /-- The records stand in the order in which their methods were first asked for. -/
  order : methods.identities = (requests.map (·.method)).eraseDups
  /-- Every answer is the place of the method in that order. -/
  places : ids = requests.map fun request => methods.identities.idxOf request.method

/-- One more request. -/
theorem Serves.answer {requests : List (Request α)} {methods : Registry α} {ids : List MethodId}
    (h : Serves requests methods ids) (request : Request α) :
    Serves (requests ++ [request]) (methods.answer request).1
      (ids ++ [(methods.answer request).2]) := by
  have hasked : ∀ earlier ∈ requests, earlier.method ∈ methods.identities := by
    intro earlier hearlier
    rw [h.order, List.mem_eraseDups]
    exact List.mem_map_of_mem hearlier
  rcases methods.answer_cases request with
    ⟨id, hlocate, hanswer⟩ | ⟨record, hmethod, hlocate, hanswer⟩
  · obtain ⟨record, hid, hmethod⟩ := locate_found hlocate
    have hknown : request.method ∈ requests.map (·.method) := by
      rw [← List.mem_eraseDups, ← h.order, mem_identities]
      exact ⟨id, record, hid, hmethod⟩
    rw [hanswer]
    refine ⟨h.sound, ?_, ?_⟩
    · rw [List.map_append, List.map_singleton, eraseDups_concat_of_mem hknown, h.order]
    · rw [List.map_append, List.map_singleton, ← h.places, ← hmethod,
        h.sound.idxOf_identities hid]
  · have hunknown : request.method ∉ methods.identities := by
      rw [mem_identities]
      rintro ⟨id, known, hid, hsame⟩
      exact ((h.sound.locate_free hlocate).1 hid).2 hsame
    have hsound : (methods.push record).Sound := h.sound.push (by rw [hmethod, hlocate])
    rw [hanswer]
    refine ⟨hsound, ?_, ?_⟩
    · rw [identities_push, hmethod, List.map_append, List.map_singleton, eraseDups_concat, h.order]
      rwa [← List.mem_eraseDups, ← h.order]
    · have hplace : (methods.push record).identities.idxOf record.method = methods.size :=
        hsound.idxOf_identities (by rw [record?_push, if_pos rfl])
      rw [List.map_append, List.map_singleton, ← hmethod, hplace, h.places]
      congr 1
      refine List.map_congr_left fun earlier hearlier => ?_
      rw [identities_push, List.idxOf_append_of_mem (hasked earlier hearlier)]

theorem serves_served (requests : List (Request α)) :
    Serves requests (served requests).1 (served requests).2 := by
  induction requests using List.reverseRecOn with
  | nil => exact ⟨sound_empty, identities_eq _, rfl⟩
  | append_singleton requests request ih =>
      rw [served_concat]
      exact ih.answer request

/-! ## What is kept -/

/-- Requests never touch a record that is there. -/
theorem prefix_served (requests more : List (Request α)) :
    (served requests).1.records.toList <+: (served (requests ++ more)).1.records.toList := by
  induction more using List.reverseRecOn with
  | nil => rw [List.append_nil]
  | append_singleton more request ih =>
      refine ih.trans ?_
      rw [← List.append_assoc, served_concat]
      rcases (served (requests ++ more)).1.answer_cases request with
        ⟨id, -, hanswer⟩ | ⟨record, -, -, hanswer⟩
      · rw [hanswer]
      · rw [hanswer]
        show _ <+: ((served (requests ++ more)).1.records.push record).toList
        rw [Array.toList_push]
        exact List.prefix_append _ _

theorem record?_served {requests : List (Request α)} (more : List (Request α)) {id : Nat}
    {record : MethodRecord α} (hid : (served requests).1.record? id = some record) :
    (served (requests ++ more)).1.record? id = some record := by
  obtain ⟨later, heq⟩ := prefix_served requests more
  have hlisted : (served requests).1.records.toList[id]? = some record :=
    Array.getElem?_toList.trans hid
  have hlt := (List.getElem?_eq_some_iff.mp hlisted).1
  have hkept : (served (requests ++ more)).1.records.toList[id]? =
      (served (requests ++ more)).1.record? id := Array.getElem?_toList
  rw [← heq, List.getElem?_append_left hlt, hlisted] at hkept
  exact hkept.symm

/-! ## The directory -/

/-- What is known of a registry that was asked for methods only, and of its answers. -/
structure Directory (requests : List (Request α)) : Prop where
  answered : (served requests).2.length = requests.length
  /-- Two requests get the same id exactly when they ask for the same method. -/
  same_id : ∀ {i j : Nat} {a b : Request α}, requests[i]? = some a → requests[j]? = some b →
    ((served requests).2[i]? = (served requests).2[j]? ↔ a.method = b.method)
  /-- Ids are given out in the order in which methods are first asked for. -/
  order : (served requests).1.identities = (requests.map (·.method)).eraseDups ∧
    (served requests).2 = requests.map fun request =>
      (requests.map (·.method)).eraseDups.idxOf request.method
  /-- Whatever is asked for later, the records stay as they are. -/
  kept : ∀ more : List (Request α),
    (served requests).1.records.toList <+: (served (requests ++ more)).1.records.toList
  keys : (served requests).1.records.toList.Pairwise fun a b => a.key ≠ b.key
  /-- As long as the searches end, keys are candidates of their methods. -/
  candidates : (∀ before request after, requests = before ++ request :: after →
      (served before).1.Ends request.method) →
    ∀ record ∈ (served requests).1.records, ∃ n, record.key = .hash (Key.candidate record.method n)
  lookup : ∀ (method : Method) (id : MethodId), (served requests).1.lookup method = some id ↔
    ∃ record, (served requests).1.record? id = some record ∧ record.method = method
  lookupFrom : ∀ (others : List (Request α)) (theirs id : MethodId),
    (served requests).1.lookupFrom (served others).1 theirs = some id ↔
      ∃ record mine, (served others).1.record? theirs = some record ∧
        (served requests).1.record? id = some mine ∧ mine.method = record.method
  /-- A method that an event names first is excluded if it is among the exclusions itself. -/
  excluded : ∀ {before after : List (Request α)} {entity : Entity} {member : String}
    {native : Bool} {source : Option SourceLocation} {exclusions : Exclusions},
    requests = before ++ .create entity member native source exclusions :: after →
    .of entity member ∉ before.map (·.method) →
    ∃ id record, (served requests).2[before.length]? = some id ∧
      (served requests).1.record? id = some record ∧ record.method = .of entity member ∧
      (record.excluded = true ↔ Method.of entity member ∈ exclusions.methods)

theorem keys_served (requests : List (Request α)) :
    (served requests).1.records.toList.Pairwise fun a b => a.key ≠ b.key := by
  refine List.pairwise_iff_getElem.mpr fun i j hi hj hij heq => Nat.ne_of_lt hij ?_
  exact (serves_served requests).sound.key_inj
    ((served requests).1.records.getElem?_eq_getElem hi)
    ((served requests).1.records.getElem?_eq_getElem hj) heq

theorem candidates_served (requests : List (Request α))
    (hends : ∀ before request after, requests = before ++ request :: after →
      (served before).1.Ends request.method) :
    ∀ record ∈ (served requests).1.records,
      ∃ n, record.key = .hash (Key.candidate record.method n) := by
  induction requests using List.reverseRecOn with
  | nil => exact fun _ hrecord => absurd hrecord (Array.not_mem_empty _)
  | append_singleton requests request ih =>
      have hbefore := ih fun before earlier after heq =>
        hends before earlier (after ++ [request]) (by rw [heq, List.append_assoc]; rfl)
      intro record hrecord
      rw [served_concat] at hrecord
      rcases (served requests).1.answer_cases request with
        ⟨id, -, hanswer⟩ | ⟨added, hmethod, hlocate, hanswer⟩
      · rw [hanswer] at hrecord
        exact hbefore record hrecord
      · rw [hanswer] at hrecord
        rcases Array.mem_push.mp hrecord with hold | rfl
        · exact hbefore record hold
        · rw [hmethod]
          exact (hends requests request [] rfl).free_eq hlocate

/-- The record that a request for an unknown method makes. -/
theorem excluded_served {before : List (Request α)} (after : List (Request α)) {entity : Entity}
    {member : String} {native : Bool} {source : Option SourceLocation} {exclusions : Exclusions}
    (hnew : .of entity member ∉ before.map (·.method)) :
    ∃ record, (served (before ++ .create entity member native source exclusions :: after)).1.record?
        (served before).1.size = some record ∧ record.method = .of entity member ∧
      (record.excluded = true ↔ Method.of entity member ∈ exclusions.methods) := by
  have hserves := serves_served before
  obtain ⟨key, hlocate⟩ : ∃ key, (served before).1.locate (.of entity member) = .free key := by
    cases hlocate : (served before).1.locate (.of entity member) with
    | free key => exact ⟨key, rfl⟩
    | found id =>
        refine absurd ?_ hnew
        rw [← List.mem_eraseDups, ← hserves.order, mem_identities]
        obtain ⟨record, hid, hmethod⟩ := locate_found hlocate
        exact ⟨id, record, hid, hmethod⟩
  have hmade : (served (before ++ [.create entity member native source exclusions])).1.record?
      (served before).1.size = some
        { MethodRecord.fresh key (.of entity member) with
          source := if exclusions.contains (.of entity member) || native then none else source
          excluded := exclusions.contains (.of entity member) } := by
    rw [served_concat]
    show ((served before).1.lookupOrCreate _ _ _ _).1.record? _ = _
    unfold lookupOrCreate
    rw [hlocate]
    exact record?_push.trans (if_pos rfl)
  rw [List.append_cons]
  exact ⟨_, record?_served after hmade, rfl, List.contains_iff_mem⟩

theorem directory_served (requests : List (Request α)) : Directory requests where
  answered := by
    rw [(serves_served requests).places, List.length_map]
  same_id {i j a b} hi hj := by
    have hserves := serves_served requests
    have hmem : ∀ {k : Nat} {request : Request α}, requests[k]? = some request →
        request.method ∈ (served requests).1.identities := by
      intro k request hk
      rw [hserves.order, List.mem_eraseDups]
      exact List.mem_map_of_mem (List.mem_of_getElem? hk)
    rw [hserves.places, List.getElem?_map, List.getElem?_map, hi, hj, Option.map_some,
      Option.map_some, Option.some.injEq]
    exact List.idxOf_inj (hmem hi)
  order := by
    have hserves := serves_served requests
    exact ⟨hserves.order, hserves.order ▸ hserves.places⟩
  kept := prefix_served requests
  keys := keys_served requests
  candidates := candidates_served requests
  lookup _ _ := (serves_served requests).sound.lookup_eq_some_iff
  lookupFrom _ _ _ := (serves_served requests).sound.lookupFrom_eq_some_iff
  excluded {before after entity member native source exclusions} heq hnew := by
    subst heq
    obtain ⟨record, hid, hmethod, hexcluded⟩ := excluded_served after hnew
    have hserves := serves_served
      (before ++ .create entity member native source exclusions :: after)
    refine ⟨_, record, ?_, hid, hmethod, hexcluded⟩
    rw [hserves.places, List.getElem?_map, List.getElem?_append_right (Nat.le_refl _),
      Nat.sub_self]
    show some (List.idxOf (Method.of entity member) _) = _
    rw [← hmethod, hserves.sound.idxOf_identities hid]

/-- Two methods that hash alike are kept apart, however often they are asked for. -/
example : Key.first ⟨⟨.plain, "A"⟩, "chg_wXvR9SJ"⟩ = Key.first ⟨⟨.plain, "A"⟩, "b_Bhq90kU8C"⟩ ∧
    (served (α := Int)
      [.create ⟨.owner .plain, "A"⟩ "chg_wXvR9SJ" false none .empty,
        .create ⟨.moduleInclusion, "A"⟩ "b_Bhq90kU8C" false none .empty,
        .adopt (.fresh (.spare 0) ⟨⟨.plain, "A"⟩, "b_Bhq90kU8C"⟩),
        .create ⟨.moduleInclusion, "A"⟩ "chg_wXvR9SJ" true none .empty]).2 = [0, 1, 1, 0] := by
  decide +kernel

end CallLedger.Registry
