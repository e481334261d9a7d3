import CallLedger.Proofs.Conservation
import CallLedger.Proofs.Descent
import CallLedger.Proofs.Gathering

/-!
# Merging adds ledgers

Each step of a merge takes in one node of the other profile (`Steps`), and with it the cost of
that node, where the node belongs (`Steps.ledger`). A merge takes in all nodes, so it adds the
ledgers. What the records say is added by identity (`Sound.gathered_foldl`), before the trees are.
-/

namespace CallLedger.Profile

variable {α : Type} [ExactAmount α]

/-- What some nodes cost, each at its place. -/
noncomputable def costsOf (profile : Profile α) (place : NodeId → List Method)
    (ids : List NodeId) : PathLedger α :=
  (ids.map fun id => Finsupp.single (place id) (profile.tree.cost id)).sum

theorem costsOf_append (profile : Profile α) (place : NodeId → List Method)
    (ids more : List NodeId) :
    profile.costsOf place (ids ++ more) =
      profile.costsOf place ids + profile.costsOf place more := by
  rw [costsOf, List.map_append, List.sum_append]
  rfl

theorem Sound.costsOf_walkAll {profile : Profile α} (hs : profile.Sound) :
    profile.costsOf profile.path profile.tree.walkAll = profile.ledger := by
  rw [costsOf, (hs.tree.walkAll_perm.map _).sum_eq]
  rfl

variable {exclusions : Exclusions} {other profile after : Profile α}
  {place : NodeId → List Method} {ids : List NodeId}

theorem costsOf_singleton {source : Nat} {node : Node α}
    (hnode : other.tree.node? source = some node) :
    other.costsOf place [source] = Finsupp.single (place source) node.measurement := by
  rw [costsOf, List.map_singleton, List.sum_singleton, CallTree.cost_eq hnode]

/-- A copy costs what the node costs, since nothing is on a new node. -/
theorem Copying.ledger {parent : Option NodeId} {source : Nat} {node : Node α}
    {record found : MethodRecord α} {learned : Profile α} {mine : Nat}
    (h : Copying place other profile parent source node record learned mine found)
    (hs : profile.Sound) (hnode : other.tree.node? source = some node) :
    (profile.copyNode other parent node).ledger =
      profile.ledger + other.costsOf place [source] := by
  have hlast : learned.tree.size < (learned.attach parent mine node.site).tree.size := by
    rw [size_attach parent node.site h.record]
    exact Nat.lt_succ_self _
  have hzero : ∀ fresh, (learned.attach parent mine node.site).tree.node? learned.tree.size =
      some fresh → node.measurement = fresh.measurement + node.measurement := by
    intro fresh hfresh
    rw [node?_attach node.site h.record h.hasParent, Option.some.injEq] at hfresh
    rw [← hfresh]
    exact (zero_add node.measurement).symm
  rw [h.copy, h.sound_attach.ledger_modifyNode hlast
    ({ · with measurement := node.measurement }) (fun _ => rfl) (fun _ => rfl) hzero,
    h.sound.ledger_attach node.site h.record h.hasParent h.free,
    hs.ledger_of_tree h.sound h.grows h.tree,
    h.sound.path_attach node.site h.record h.hasParent h.free, h.place, costsOf_singleton hnode]

theorem Steps.ledger (h : Steps place other profile after ids) :
    after.ledger = profile.ledger + other.costsOf place ids := by
  induction h with
  | nothing _ => exact (add_zero _).symm
  | copied hs hroom =>
      obtain ⟨learned, mine, found, hcopying⟩ := hroom.copying hs
      exact hcopying.ledger hs hroom.listed
  | @added profile target source node hs hnode htarget hpath =>
      rw [hs.ledger_modifyNode htarget (fun mine =>
          { mine with measurement := mine.measurement.merge node.measurement })
        (fun _ => rfl) (fun _ => rfl) fun _ _ => Measurement.merge_eq_add _ node.measurement,
        hpath, costsOf_singleton hnode]
  | followed _ _ ih ihmore => rw [ihmore, ih, costsOf_append, add_assoc]

theorem Intake.ledger (h : Intake place other profile after ids) :
    after.ledger = profile.ledger + other.costsOf place ids := by
  obtain ⟨order, hperm, hsteps⟩ := h
  rw [hsteps.ledger, costsOf, (hperm.map _).sum_eq]
  rfl

theorem Gains.map_recordsOf (h : Gains place other profile after ids) (hs : profile.Sound)
    (hknows : profile.Knows other) {β : Type} (part : MethodRecord α → β)
    (hpart : ∀ record : MethodRecord α, part record.unlisted = part record) (method : Method) :
    (after.methods.recordsOf method).map part = (profile.methods.recordsOf method).map part := by
  have hsame := congrArg (List.map part) (h.map_unlisted_recordsOf hs hknows method)
  rw [List.map_map, List.map_map, show part ∘ MethodRecord.unlisted = part from funext hpart]
    at hsame
  exact hsame

/-- Merging trees adds nothing to what the records say. -/
theorem Gains.spent_eq (h : Gains place other profile after ids) (hs : profile.Sound)
    (hknows : profile.Knows other) (method : Method) :
    after.methods.spent method = profile.methods.spent method := by
  rw [h.sound.methods.spent_eq, hs.methods.spent_eq, h.map_recordsOf hs hknows _ fun _ => rfl]

theorem Gains.hasRoot_iff (h : Gains place other profile after ids) (hs : profile.Sound)
    (hknows : profile.Knows other) (method : Method) :
    after.methods.HasRoot method ↔ profile.methods.HasRoot method := by
  have hany := congrArg (List.any · id)
    (h.map_recordsOf hs hknows (·.root) (fun _ => rfl) method)
  rw [List.any_map, List.any_map] at hany
  rw [Registry.hasRoot_iff, Registry.hasRoot_iff]
  exact Eq.congr_left hany

/-! ## Merging -/

/-- What adds up on records adds up in a merge. -/
theorem Accounted.collected_merge (h : Accounted exclusions profile [])
    (ho : Accounted exclusions other []) {M : Type} [AddMonoid M] {law : MethodRecord α → Prop}
    {value : MethodRecord α → M} (hadd : Registry.Additive law value)
    (hunlisted : ∀ record : MethodRecord α, value record.unlisted = value record)
    (hlaw : ∀ {id : Nat} {record : MethodRecord α},
      profile.methods.record? id = some record → law record) (method : Method) :
    Collected value MethodRecord.method
      (profile.methods.recordsOf method ++ other.methods.recordsOf method)
      ((profile.merge other).methods.recordsOf method) := by
  obtain ⟨hadopts, hknows, hintake⟩ := h.sound.merge_halves ho.sound
  have hgathered : Registry.Gathered profile.methods
      (other.methods.records.toList.foldl Registry.mergeRecord profile.methods) law value
        other.methods.records.toList := h.sound.methods.gathered_foldl hadd hlaw
  refine ((hgathered.collected method).congr MethodRecord.unlisted ?_ hunlisted fun _ => rfl)
  rw [hintake.gains.map_unlisted_recordsOf hadopts.sound hknows, Registry.foldl_mergeMethod]

/-- The sum of two profiles. -/
structure Merged (exclusions : Exclusions) (profile other after : Profile α) : Prop where
  accounted : Accounted exclusions after []
  grows : Grows profile after
  ledger : after.ledger = profile.ledger + other.ledger
  notes : ∀ method, Collected MethodRecord.notes MethodRecord.method
    (profile.methods.recordsOf method ++ other.methods.recordsOf method)
    (after.methods.recordsOf method)
  paths : ∀ path, after.HasPath path ↔ profile.HasPath path ∨ other.HasPath path
  copies : ∀ {id : Nat} {node : Node α}, profile.tree.size ≤ id →
    after.tree.node? id = some node →
    ∃ source theirs, other.tree.node? source = some theirs ∧
      other.path source = after.path id ∧ theirs.site = node.site

theorem Accounted.merged_merge (h : Accounted exclusions profile [])
    (ho : Accounted exclusions other []) :
    Merged exclusions profile other (profile.merge other) := by
  obtain ⟨hadopts, -, hintake⟩ := h.sound.merge_halves ho.sound
  have hordered := h.toOrdered.merge ho.toOrdered
  have hsame := h.sound.ledger_of_tree hadopts.sound hadopts.grows hadopts.tree
  have hledger : (profile.merge other).ledger = profile.ledger + other.ledger := by
    rw [hintake.ledger, hsame, ho.sound.costsOf_walkAll]
  have hnotes := h.collected_merge ho Registry.additive_notes (fun _ => rfl) fun _ => trivial
  refine ⟨⟨hordered, fun method => ?_⟩, h.sound.grows_merge ho.sound, hledger, hnotes,
    h.sound.hasPath_merge ho.sound, fun hnew hid => ?_⟩
  · have hsum := congrArg Notes.measurement (hnotes method).sum_eq
    rw [Notes.measurement_sum, Notes.measurement_sum, List.map_map, List.map_map,
      List.map_append, List.sum_append] at hsum
    rw [hordered.sound.methods.spent_eq, hledger, map_add, ← h.balanced, ← ho.balanced,
      h.sound.methods.spent_eq, ho.sound.methods.spent_eq]
    exact hsum
  · obtain ⟨source, -, hcopy⟩ := hintake.gains.copies (hadopts.tree ▸ hnew) hid
    exact ⟨source, hcopy⟩

theorem Merged.hasRoot_iff {after : Profile α} (h : Merged exclusions profile other after)
    (method : Method) : after.methods.HasRoot method ↔
      profile.methods.HasRoot method ∨ other.methods.HasRoot method := by
  have hsum := congrArg Notes.root (h.notes method).sum_eq
  rw [Notes.root_sum, Notes.root_sum, List.any_map, List.any_map, List.any_append] at hsum
  rw [Registry.hasRoot_iff, Registry.hasRoot_iff, Registry.hasRoot_iff, ← Bool.or_eq_true]
  exact Eq.congr_left hsum

theorem Merged.rooted {after : Profile α} (h : Merged exclusions profile other after)
    (hroots : profile.Rooted) (hother : other.Rooted) : after.Rooted := by
  intro method
  rw [h.hasRoot_iff, h.paths, hroots method, hother method]

theorem Merged.conserved {after : Profile α} (h : Merged exclusions profile other after)
    (hconserved : profile.Conserved []) (hother : other.Conserved []) : after.Conserved [] := by
  intro path hpath
  rw [h.ledger, map_add, hconserved path hpath, hother path hpath]
  exact add_zero _

end CallLedger.Profile
