import CallLedger.Proofs.Merging
import CallLedger.Proofs.Reprobing

/-!
# Loading a dump gives the accounts back

A dump lists the records by position and the nodes parents first. Loading
enters the records, and each gets the position that it had (`Restores`). Then
the nodes are attached one by one, and attaching a listed node is copying it,
so what is known of copying says that the new profile takes in every node at
its path.

What was open when the dump was made is closed in the new profile: nothing is
on the stack, and the counters start from zero. The accounts do not depend on
either.
-/

namespace CallLedger

variable {α : Type}

namespace Profile

section Loading

variable [Amount α] {exclusions : Exclusions} {profile : Profile α}
  {calls : List (OpenCall α)} {methods : Registry α} {ids : Array MethodId}

theorem sound_restored (hrestores : methods.Restores profile.methods.records.toList ids) :
    Sound ⟨methods, .empty⟩ := by
  refine sound_unlinked hrestores.sound fun hid => ?_
  obtain ⟨record, -, key, rfl⟩ := hrestores.of_restored hid
  rfl

theorem Ordered.restored (h : Ordered exclusions profile calls)
    (hrestores : methods.Restores profile.methods.records.toList ids) :
    Ordered exclusions ⟨methods, .empty⟩ [] := by
  have hnode : ∀ {id : Nat} {node : Node α}, (CallTree.empty : CallTree α).node? id ≠ some node :=
    fun hid => Nat.not_lt_zero _ (CallTree.node?_lt hid)
  refine ⟨sound_restored hrestores, trivial, fun hid => (hnode hid).elim, ?_, ?_,
    fun hid => (hnode hid).elim⟩
  · intro id found hid
    obtain ⟨record, -, key, rfl⟩ := hrestores.of_restored hid
    rfl
  · intro id found hid
    obtain ⟨record, hrecord, key, rfl⟩ := hrestores.of_restored hid
    show record.excluded = exclusions.contains record.method
    exact h.excluded hrecord

/-- Attaching a listed node is copying it. -/
theorem loadNode_eq (hrestores : methods.Restores profile.methods.records.toList ids)
    {current : Profile α} (hcurrent : current.Sound)
    (hgrows : Grows ⟨methods, .empty⟩ current) (order : List NodeId) {node : Node α}
    {record : MethodRecord α} (hrecord : profile.methods.record? node.method = some record)
    (hparent : current.HasParent (node.parent.bind fun parent => order.idxOf? parent)) :
    loadNode ids current (.ofNode order node) =
      .ok (current.copyNode profile (node.parent.bind fun parent => order.idxOf? parent)
        node) := by
  have hlt := Registry.record?_lt hrecord
  have hid : ids[node.method]? = some node.method := by
    refine hrestores.ids ?_
    rw [Array.length_toList]
    exact hlt
  obtain ⟨key, hrestored⟩ := hrestores.restored hrecord
  obtain ⟨found, hfound, -, hmethod⟩ := hgrows.record? hrestored
  have hadopt := adopt_eq hcurrent.methods hfound (show found.method = record.method from hmethod)
  rw [copyNode, hrecord]
  simp only [hadopt]
  unfold loadNode
  simp only [DumpedNode.ofNode, hid]
  cases hp : node.parent.bind fun parent => order.idxOf? parent with
  | none => rfl
  | some parent =>
      simp only [if_pos (hparent parent hp)]

/-- What stands in the first part of an order without repetitions has its position there. -/
theorem idxOf?_of_mem_left {order done rest : List NodeId} (horder : order = done ++ rest)
    (hnodup : order.Nodup) {id : NodeId} (hdone : id ∈ done) :
    ∃ j : Nat, order.idxOf? id = some j ∧ done[j]? = some id := by
  have hmem : id ∈ order := by
    rw [horder]
    exact List.mem_append_left rest hdone
  have hplace : order.idxOf id = done.idxOf id := by
    rw [horder, List.idxOf_append_of_mem hdone]
  refine ⟨done.idxOf id, ?_, List.getElem?_idxOf hdone⟩
  rw [CallTree.idxOf?_of_mem hnodup hmem, hplace]

/-- Nothing that was dumped has to be learned. -/
theorem knows_of_restores (hrestores : methods.Restores profile.methods.records.toList ids) :
    Knows ⟨methods, .empty⟩ profile := by
  intro id record hid
  obtain ⟨key, hrestored⟩ := hrestores.restored hid
  exact ⟨id, _, hrestored, rfl⟩

theorem Sound.load_nodes (hs : profile.Sound)
    (hrestores : methods.Restores profile.methods.records.toList ids) {order : List NodeId}
    (hnodup : order.Nodup) (hsize : ∀ id ∈ order, id < profile.tree.size) :
    ∀ {rest : List NodeId} (done : List NodeId) {current : Profile α}, order = done ++ rest →
      profile.tree.ParentsFirst done rest →
      Steps profile.path profile ⟨methods, .empty⟩ current done →
      current.tree.size = done.length →
      (∀ {j id : Nat}, done[j]? = some id → current.path j = profile.path id) →
      ∃ after, (rest.filterMap fun id => (profile.tree.node? id).map (.ofNode order)).foldlM
          (loadNode ids) current = .ok after ∧
        Steps profile.path profile ⟨methods, .empty⟩ after order := by
  intro rest
  induction rest with
  | nil =>
      intro done current horder _ hsteps _ _
      rw [List.append_nil] at horder
      rw [horder]
      exact ⟨current, rfl, hsteps⟩
  | cons id rest ih =>
      intro done current horder hfirst hsteps hcount hpaths
      have hgains := hsteps.gains
      have hmem : id ∈ order := horder ▸ List.mem_append_right _ List.mem_cons_self
      have hlt := hsize id hmem
      obtain ⟨node, record, hnode, hrecord, -, hpath⟩ := hs.exists_path_eq hlt
      have hnew : id ∉ done := by
        rw [horder] at hnodup
        exact fun hdone => (List.nodup_append.mp hnodup).2.2 id hdone id List.mem_cons_self rfl
      have hposition : ∀ {parent : Nat}, node.parent = some parent →
          ∃ j : Nat, order.idxOf? parent = some j ∧ done[j]? = some parent := fun hparent =>
        idxOf?_of_mem_left horder hnodup
          (hfirst.1 _ (by rw [CallTree.parent?_eq hnode, hparent]))
      have hplace : current.HasParent (node.parent.bind fun parent => order.idxOf? parent) ∧
          profile.path id = record.method ::
            current.pathTo (node.parent.bind fun parent => order.idxOf? parent) := by
        rw [hpath]
        cases hp : node.parent with
        | none => exact ⟨hasParent_none, rfl⟩
        | some parent =>
            obtain ⟨j, hindex, hj⟩ := hposition hp
            rw [Option.bind_some, hindex, pathTo, pathTo, hpaths hj]
            refine ⟨fun p hp => ?_, rfl⟩
            cases hp
            rw [hcount]
            exact (List.getElem?_eq_some_iff.mp hj).1
      obtain ⟨hparent, hleads⟩ := hplace
      have hfree : ¬ current.HasPath (profile.path id) := by
        rw [hgains.paths]
        rintro (⟨x, hx, -⟩ | ⟨x, hx, hsame⟩)
        · exact Nat.not_lt_zero _ hx
        · have heq := hs.path_inj (hsize x (horder ▸ List.mem_append_left _ hx)) hlt hsame
          exact hnew (heq ▸ hx)
      have hload := loadNode_eq hrestores hgains.sound hgains.grows order hrecord hparent
      have hroom : Room profile.path profile current
          (node.parent.bind fun parent => order.idxOf? parent) id node record :=
        ⟨⟨hparent, hnode, hrecord, hleads⟩, hfree⟩
      obtain ⟨learned, mine, found, hcopying⟩ := hroom.copying hgains.sound
      rw [List.filterMap_cons, hnode]
      simp only [Option.map_some, List.foldlM_cons]
      rw [hload]
      refine ih (done ++ [id]) (by rw [horder, List.append_cons]) hfirst.2
        (hsteps.followed (.copied hgains.sound hroom)) ?_ ?_
      · rw [hcopying.size, hcount, List.length_append, List.length_singleton]
      · intro j x hj
        rcases Nat.lt_or_ge j done.length with hold | hlast
        · rw [List.getElem?_append_left hold] at hj
          rw [hcopying.grows_copy.path_eq hgains.sound hcopying.sound_copy (hcount ▸ hold),
            hpaths hj]
        · have hlength := (List.getElem?_eq_some_iff.mp hj).1
          rw [List.length_append, List.length_singleton] at hlength
          have heq : j = done.length := by omega
          rw [heq, List.getElem?_concat_length, Option.some.injEq] at hj
          rw [heq, ← hcount, hcopying.path_copy, hj]

/-- Loading what was dumped succeeds, and takes in every node. -/
theorem Sound.reloaded (hs : profile.Sound) :
    ∃ after, ofDump (profile.methods.records.toList.map DumpedMethod.ofRecord)
        profile.dumpNodes = .ok after ∧
      Intake profile.path profile
        ⟨(Registry.ofDump (profile.methods.records.toList.map DumpedMethod.ofRecord)).1, .empty⟩
        after profile.tree.walkAll := by
  have hrestores := hs.methods.restores
  have hperm := hs.tree.walkAll_perm
  obtain ⟨after, hload, hsteps⟩ := hs.load_nodes hrestores (hperm.nodup_iff.mpr List.nodup_range)
    (fun id hid => List.mem_range.mp (hperm.mem_iff.mp hid)) [] (List.nil_append _).symm
    hs.tree.branching.parentsFirst_walkAll (.nothing (sound_restored hrestores)) rfl (by simp)
  exact ⟨after, hload, hsteps.intake⟩

/-- What was dumped comes back in order. -/
theorem Ordered.of_reloaded (h : Ordered exclusions profile calls) {after : Profile α}
    (hintake : Intake profile.path profile
      ⟨(Registry.ofDump (profile.methods.records.toList.map DumpedMethod.ofRecord)).1, .empty⟩
      after profile.tree.walkAll) : Ordered exclusions after [] :=
  hintake.ordered h (h.restored h.sound.methods.restores)

/-- What was dumped comes back with the call paths that it had. -/
theorem Intake.hasPath_iff {after : Profile α}
    (h : Intake profile.path profile ⟨methods, .empty⟩ after profile.tree.walkAll)
    (hs : profile.Sound) (path : List Method) : after.HasPath path ↔ profile.HasPath path := by
  rw [h.gains.hasPath_walkAll hs]
  exact or_iff_right fun ⟨_, hnone, _⟩ => Nat.not_lt_zero _ hnone

end Loading

section Accounts

variable [ExactAmount α] {exclusions : Exclusions} {profile : Profile α}
  {calls : List (OpenCall α)} {methods : Registry α} {ids : Array MethodId}

theorem Sound.spent_restored (hs : profile.Sound)
    (hrestores : methods.Restores profile.methods.records.toList ids) (method : Method) :
    methods.spent method = profile.methods.spent method := by
  by_cases hknown : ∃ id record, profile.methods.record? id = some record ∧
      record.method = method
  · obtain ⟨id, record, hid, rfl⟩ := hknown
    obtain ⟨key, hfound⟩ := hrestores.restored hid
    have hspent := hrestores.sound.spent_record hfound
    rw [hs.methods.spent_record hid]
    exact hspent
  · rw [Registry.spent_unknown fun hid heq => hknown ⟨_, _, hid, heq⟩, Registry.spent_unknown]
    intro id found hid hmethod
    obtain ⟨record, hrecord, key, rfl⟩ := hrestores.of_restored hid
    exact hknown ⟨id, record, hrecord, hmethod⟩

theorem hasRoot_restored (hrestores : methods.Restores profile.methods.records.toList ids)
    (method : Method) : methods.HasRoot method ↔ profile.methods.HasRoot method := by
  constructor
  · rintro ⟨id, found, hid, hmethod, hroot⟩
    obtain ⟨record, hrecord, key, rfl⟩ := hrestores.of_restored hid
    exact ⟨id, record, hrecord, hmethod, hroot⟩
  · rintro ⟨id, record, hid, hmethod, hroot⟩
    obtain ⟨key, hfound⟩ := hrestores.restored hid
    exact ⟨id, _, hfound, hmethod, hroot⟩

/-- A profile as it comes back from its dump. -/
structure Reloaded (exclusions : Exclusions) (profile after : Profile α) : Prop where
  accounted : Accounted exclusions after []
  ledger : after.ledger = profile.ledger
  roots : ∀ method, after.methods.HasRoot method ↔ profile.methods.HasRoot method
  paths : ∀ path, after.HasPath path ↔ profile.HasPath path

/-- Loading what was dumped succeeds and keeps the account. -/
theorem Accounted.reloaded_ofDump (h : Accounted exclusions profile calls) :
    ∃ after, ofDump (profile.methods.records.toList.map DumpedMethod.ofRecord)
      profile.dumpNodes = .ok after ∧ Reloaded exclusions profile after := by
  have hrestores := h.sound.methods.restores
  have hordered := h.toOrdered.restored hrestores
  have hknows : Knows _ profile := knows_of_restores hrestores
  obtain ⟨after, hload, hintake⟩ := h.sound.reloaded
  have hledger : after.ledger = profile.ledger := by
    rw [hintake.ledger, h.sound.costsOf_walkAll]
    exact zero_add _
  refine ⟨after, hload, ⟨h.toOrdered.of_reloaded hintake, fun method => ?_⟩, hledger,
    fun method => ?_, hintake.hasPath_iff h.sound⟩
  · rw [hintake.gains.spent_eq hordered.sound hknows, hledger, ← h.balanced]
    exact h.sound.spent_restored hrestores method
  · rw [hintake.gains.hasRoot_iff hordered.sound hknows]
    exact hasRoot_restored hrestores method

end Accounts

end Profile

end CallLedger
