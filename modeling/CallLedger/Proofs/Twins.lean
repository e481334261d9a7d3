import CallLedger.Proofs.Paths
import CallLedger.Proofs.Records

/-!
# Profiles that differ in hidden methods

An excluded method has a record of its own, and the record may stand in the way of
others: they get other ids, and other keys if one that hashes to theirs is taken. So
two profiles of one program, one of which has never heard of some excluded methods,
cannot be equal. They show the same nevertheless (`Profile.Twins`): the same call
paths at the same nodes, the same at every node but for the method id and the keys,
and the same in every record of a method that is not excluded but for its key.

What is recorded on twins alike leaves twins, as nodes are looked up by path and
records by identity.
-/

namespace CallLedger

variable {α : Type}

/-- A node, whatever id its method goes by. -/
def Node.anonymous (node : Node α) : Node α :=
  { node with method := 0, key := .spare 0, links := .empty }

/-- A record, whatever key its method goes by. -/
def MethodRecord.unkeyed (record : MethodRecord α) : MethodRecord α :=
  { record with key := .spare 0 }

theorem CallTree.map_anonymous_link {tree : CallTree α} {node : Node α}
    (hparent : ∀ p : Nat, node.parent = some p → p < tree.size) (id : Nat) :
    ((tree.link node).node? id).map Node.anonymous =
      if id = tree.size then some node.anonymous else (tree.node? id).map Node.anonymous := by
  rw [CallTree.node?_link hparent]
  split
  · rfl
  · split
    · rw [Option.map_map]
      rfl
    · rfl

namespace Profile

/-- Two profiles that show the same of every path and of every method that is not excluded. -/
structure Twins (exclusions : Exclusions) (profile other : Profile α) : Prop where
  paths : ∀ id < profile.tree.size, other.path id = profile.path id
  nodes : ∀ id : Nat, (other.tree.node? id).map Node.anonymous =
    (profile.tree.node? id).map Node.anonymous
  records : ∀ method, exclusions.contains method = false →
    (other.methods.recordsOf method).map MethodRecord.unkeyed =
      (profile.methods.recordsOf method).map MethodRecord.unkeyed

variable {exclusions : Exclusions} {profile other : Profile α}

theorem Twins.refl (profile : Profile α) : Twins exclusions profile profile :=
  ⟨fun _ _ => rfl, fun _ => rfl, fun _ _ => rfl⟩

/-! ## What twins have in common -/

theorem Twins.size_eq (h : Twins exclusions profile other) :
    other.tree.size = profile.tree.size := by
  have hsome : ∀ {tree after : CallTree α}, (∀ id : Nat, (after.node? id).map Node.anonymous =
      (tree.node? id).map Node.anonymous) → tree.size ≤ after.size := by
    intro tree after hnodes
    by_contra hlt
    obtain ⟨node, hnode⟩ := CallTree.exists_node? (Nat.lt_of_not_le hlt)
    have hsame := hnodes after.size
    rw [hnode, CallTree.node?_eq_none (Nat.le_refl _)] at hsame
    cases hsame
  exact Nat.le_antisymm (hsome fun id => (h.nodes id).symm) (hsome h.nodes)

theorem Twins.hasParent (h : Twins exclusions profile other) {parent : Option NodeId}
    (hparent : profile.HasParent parent) : other.HasParent parent := by
  intro p hp
  rw [h.size_eq]
  exact hparent p hp

theorem Twins.pathTo_eq (h : Twins exclusions profile other) {parent : Option NodeId}
    (hparent : profile.HasParent parent) : other.pathTo parent = profile.pathTo parent := by
  cases parent with
  | none => rfl
  | some p => exact h.paths p (hparent p rfl)

/-- Of a method that is not excluded both know the same. -/
theorem Twins.unkeyed_eq (h : Twins exclusions profile other) (hs : profile.Sound)
    (ho : other.Sound) {id otherId : Nat} {record found : MethodRecord α}
    (hrecord : profile.methods.record? id = some record)
    (hfound : other.methods.record? otherId = some found) (hname : found.method = record.method)
    (hexcluded : exclusions.contains record.method = false) : found.unkeyed = record.unkeyed := by
  have hsame := h.records record.method hexcluded
  rw [hs.methods.recordsOf_record hrecord, ← hname, ho.methods.recordsOf_record hfound,
    List.map_singleton, List.map_singleton] at hsame
  exact (List.cons.inj hsame).1

/-- A node is bound to one method, by identity. -/
theorem Twins.method_eq (h : Twins exclusions profile other) (hs : profile.Sound)
    (ho : other.Sound) {id : Nat} {node found : Node α} {record otherRecord : MethodRecord α}
    (hnode : profile.tree.node? id = some node) (hfound : other.tree.node? id = some found)
    (hrecord : profile.methods.record? node.method = some record)
    (hother : other.methods.record? found.method = some otherRecord) :
    otherRecord.method = record.method := by
  have hpath := h.paths id (CallTree.node?_lt hnode)
  rw [hs.path_eq hnode hrecord, ho.path_eq hfound hother] at hpath
  exact (List.cons.inj hpath).1

/-- Both file a child under the key that its method has with them. -/
theorem Twins.childOf?_eq (h : Twins exclusions profile other) (hs : profile.Sound)
    (ho : other.Sound) {parent : Option NodeId} (hparent : profile.HasParent parent)
    {id otherId : Nat} {record found : MethodRecord α}
    (hrecord : profile.methods.record? id = some record)
    (hfound : other.methods.record? otherId = some found)
    (hname : found.method = record.method) :
    other.tree.childOf? parent found.key = profile.tree.childOf? parent record.key := by
  refine Option.ext fun child => ?_
  rw [hs.childOf?_path hparent hrecord, ho.childOf?_path (h.hasParent hparent) hfound,
    h.size_eq, h.pathTo_eq hparent, hname]
  exact and_congr_right fun hchild => by rw [h.paths child hchild]

/-! ## What leaves twins -/

/-- Both may get to know methods. -/
theorem Twins.knowing (h : Twins exclusions profile other) {methods others : Registry α}
    (hs : profile.Sound) (ho : other.Sound)
    (hafter : Sound { profile with methods := methods })
    (hother : Sound { other with methods := others })
    (hgrows : Grows profile { profile with methods := methods })
    (hothers : Grows other { other with methods := others })
    (hrecords : ∀ method, exclusions.contains method = false →
      (others.recordsOf method).map MethodRecord.unkeyed =
        (methods.recordsOf method).map MethodRecord.unkeyed) :
    Twins exclusions { profile with methods := methods } { other with methods := others } where
  paths id hid := by
    rw [hothers.path_eq ho hother (h.size_eq ▸ hid), hgrows.path_eq hs hafter hid]
    exact h.paths id hid
  nodes := h.nodes
  records := hrecords

/-- Both may change a record of one method alike. -/
theorem Twins.modifyMethod (h : Twins exclusions profile other) (hs : profile.Sound)
    (ho : other.Sound) {id otherId : Nat} {record found : MethodRecord α}
    (hrecord : profile.methods.record? id = some record)
    (hfound : other.methods.record? otherId = some found) (hname : found.method = record.method)
    {change : MethodRecord α → MethodRecord α}
    (hkey : ∀ record, (change record).key = record.key)
    (hmethod : ∀ record, (change record).method = record.method)
    (hnodes : ∀ record, (change record).nodes = record.nodes)
    (hchange : ∀ record, (change record).unkeyed = change record.unkeyed) :
    Twins exclusions (profile.modifyMethod id change) (other.modifyMethod otherId change) := by
  have hshape : SameShape profile (profile.modifyMethod id change) :=
    sameShape_modifyMethod hkey hmethod hnodes
  have hother : SameShape other (other.modifyMethod otherId change) :=
    sameShape_modifyMethod hkey hmethod hnodes
  refine ⟨fun i hi => ?_, h.nodes, fun method hexcluded => ?_⟩
  · rw [hother.grows.path_eq ho (ho.of_shape hother) (h.size_eq ▸ hi),
      hshape.grows.path_eq hs (hs.of_shape hshape) hi]
    exact h.paths i hi
  · show ((other.methods.modify otherId change).recordsOf method).map _ =
      ((profile.methods.modify id change).recordsOf method).map _
    rw [hs.methods.recordsOf_modify hrecord change hkey hmethod,
      ho.methods.recordsOf_modify hfound change hkey hmethod, hname]
    split
    · next heq =>
        rw [List.map_singleton, List.map_singleton, hchange, hchange,
          h.unkeyed_eq hs ho hrecord hfound hname (heq ▸ hexcluded)]
    · exact h.records method hexcluded

/-- Both may change a node alike. -/
theorem Twins.modifyNode (h : Twins exclusions profile other) (hs : profile.Sound)
    (ho : other.Sound) (id : NodeId) {note : Node α → Node α}
    (horigin : ∀ node, (note node).origin = node.origin)
    (hlinks : ∀ node, (note node).links = node.links)
    (hnote : ∀ node, (note node).anonymous = note node.anonymous) :
    Twins exclusions (profile.modifyNode id note) (other.modifyNode id note) := by
  have hshape : SameShape profile (profile.modifyNode id note) :=
    sameShape_modifyNode horigin hlinks
  have hother : SameShape other (other.modifyNode id note) := sameShape_modifyNode horigin hlinks
  refine ⟨fun i hi => ?_, fun i => ?_, h.records⟩
  · rw [hshape.size] at hi
    rw [hother.grows.path_eq ho (ho.of_shape hother) (h.size_eq ▸ hi),
      hshape.grows.path_eq hs (hs.of_shape hshape) hi]
    exact h.paths i hi
  · show ((other.tree.modify id note).node? i).map _ = ((profile.tree.modify id note).node? i).map _
    have hnoted : ∀ tree : CallTree α, ((tree.node? i).map note).map Node.anonymous =
        ((tree.node? i).map Node.anonymous).map note := by
      intro tree
      rw [Option.map_map, Option.map_map]
      exact congrArg (Option.map · _) (funext hnote)
    rw [CallTree.node?_modify, CallTree.node?_modify]
    split
    · rw [hnoted, hnoted, h.nodes i]
    · exact h.nodes i

variable [Amount α]

/-- Both may attach a node. -/
theorem Twins.attach (h : Twins exclusions profile other) (hs : profile.Sound)
    (ho : other.Sound) {parent : Option NodeId} (hparent : profile.HasParent parent)
    {id otherId : Nat} {record found : MethodRecord α}
    (hrecord : profile.methods.record? id = some record)
    (hfound : other.methods.record? otherId = some found) (hname : found.method = record.method)
    (hnew : profile.tree.childOf? parent record.key = none) (site : CallSite) :
    Twins exclusions (profile.attach parent id site) (other.attach parent otherId site) := by
  have hotherParent := h.hasParent hparent
  have hotherNew : other.tree.childOf? parent found.key = none :=
    (h.childOf?_eq hs ho hparent hrecord hfound hname).trans hnew
  have hattached := hs.attach site hrecord hparent hnew
  have hotherAttached := ho.attach site hfound hotherParent hotherNew
  refine ⟨fun i hi => ?_, fun i => ?_, fun method hexcluded => ?_⟩
  · rw [size_attach parent site hrecord] at hi
    rcases Nat.lt_succ_iff_lt_or_eq.mp hi with hlt | rfl
    · rw [(grows_attach site hfound hotherParent).path_eq ho hotherAttached (h.size_eq ▸ hlt),
        (grows_attach site hrecord hparent).path_eq hs hattached hlt]
      exact h.paths i hlt
    · have hpath := ho.path_attach site hfound hotherParent hotherNew
      rw [h.size_eq] at hpath
      rw [hs.path_attach site hrecord hparent hnew, hpath, hname, h.pathTo_eq hparent]
  · rw [attach_of_record hrecord, attach_of_record hfound]
    show ((other.tree.link _).node? i).map _ = ((profile.tree.link _).node? i).map _
    rw [CallTree.map_anonymous_link (hparent.fresh id record.key site),
      CallTree.map_anonymous_link (hotherParent.fresh otherId found.key site), h.size_eq,
      h.nodes i]
    rfl
  · rw [attach_of_record hrecord, attach_of_record hfound]
    show ((other.methods.modify otherId _).recordsOf method).map _ =
      ((profile.methods.modify id _).recordsOf method).map _
    rw [hs.methods.recordsOf_modify hrecord (fun r => { r with nodes := r.nodes.push _ })
        (fun _ => rfl) fun _ => rfl,
      ho.methods.recordsOf_modify hfound (fun r => { r with nodes := r.nodes.push _ })
        (fun _ => rfl) fun _ => rfl, h.size_eq]
    by_cases heq : method = record.method
    · have hsame := h.unkeyed_eq hs ho hrecord hfound hname (heq ▸ hexcluded)
      rw [if_pos heq, if_pos (heq.trans hname.symm)]
      exact congrArg (fun r : MethodRecord α =>
        [{ r with nodes := r.nodes.push profile.tree.size }]) hsame
    · rw [if_neg heq, if_neg fun hfoundMethod => heq (hfoundMethod.trans hname)]
      exact h.records method hexcluded

/-- Both lead a call to one node. -/
theorem Twins.child (h : Twins exclusions profile other) (hs : profile.Sound) (ho : other.Sound)
    {parent : Option NodeId} (hparent : profile.HasParent parent)
    {id otherId : Nat} {record found : MethodRecord α}
    (hrecord : profile.methods.record? id = some record)
    (hfound : other.methods.record? otherId = some found) (hname : found.method = record.method)
    (site : CallSite) :
    (other.child parent otherId site).2 = (profile.child parent id site).2 ∧
      Twins exclusions (profile.child parent id site).1 (other.child parent otherId site).1 := by
  rw [child_of_record hrecord, child_of_record hfound,
    h.childOf?_eq hs ho hparent hrecord hfound hname]
  cases hchild : profile.tree.childOf? parent record.key with
  | some _ => exact ⟨rfl, h⟩
  | none => exact ⟨h.size_eq, h.attach hs ho hparent hrecord hfound hname hchild site⟩

section Booking

variable {id method otherMethod : Nat} {record found : MethodRecord α}

omit [Amount α] in
/-- Both may count a call. -/
theorem Twins.enter (h : Twins exclusions profile other) (hs : profile.Sound) (ho : other.Sound)
    (id : NodeId) (hrecord : profile.methods.record? method = some record)
    (hfound : other.methods.record? otherMethod = some found)
    (hname : found.method = record.method) :
    Twins exclusions (profile.enter id method) (other.enter id otherMethod) := by
  have hnoted : Twins exclusions (profile.modifyNode id Node.entered)
      (other.modifyNode id Node.entered) :=
    h.modifyNode hs ho id (fun _ => rfl) (fun _ => rfl) fun _ => rfl
  have hshape : ∀ profile : Profile α, SameShape profile (profile.modifyNode id Node.entered) :=
    fun _ => sameShape_modifyNode (fun _ => rfl) fun _ => rfl
  exact hnoted.modifyMethod (hs.of_shape (hshape _)) (ho.of_shape (hshape _)) hrecord hfound
    hname (fun _ => rfl) (fun _ => rfl) (fun _ => rfl) fun _ => rfl

/-- Both may settle a call. -/
theorem Twins.settle (h : Twins exclusions profile other) (hs : profile.Sound) (ho : other.Sound)
    (id : NodeId) (hrecord : profile.methods.record? method = some record)
    (hfound : other.methods.record? otherMethod = some found)
    (hname : found.method = record.method) (selfTime waitTime totalTime : α) :
    Twins exclusions (profile.settle id method selfTime waitTime totalTime)
      (other.settle id otherMethod selfTime waitTime totalTime) := by
  have hcharged : Twins exclusions
      (profile.modifyMethod method (·.settled selfTime waitTime totalTime))
      (other.modifyMethod otherMethod (·.settled selfTime waitTime totalTime)) :=
    h.modifyMethod hs ho hrecord hfound hname (fun _ => rfl) (fun _ => rfl) (fun _ => rfl)
      fun _ => rfl
  have hshape : ∀ (profile : Profile α) (method : Nat), SameShape profile
      (profile.modifyMethod method (·.settled selfTime waitTime totalTime)) :=
    fun _ _ => sameShape_modifyMethod (fun _ => rfl) (fun _ => rfl) fun _ => rfl
  exact hcharged.modifyNode (hs.of_shape (hshape _ _)) (ho.of_shape (hshape _ _)) id
    (fun _ => rfl) (fun _ => rfl) fun _ => rfl

end Booking

end Profile

end CallLedger
