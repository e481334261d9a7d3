import CallLedger.Proofs.Counterparts
import CallLedger.Proofs.Ordered
import CallLedger.Proofs.Records

/-!
# What a merge takes in

Merging goes down two trees at once, copies what is missing and adds what is there, in an order
that shows in the positions of the copies. Whatever the order, it comes down to two steps, each of
which takes in one node of the other profile: a copy of it is put where it belongs, or its
measurement is added to the node that is there. `Steps` lists the nodes that a sequence of such
steps has taken in as they were come to, and `Intake` in whatever order.

What the steps keep is seen step by step. They keep the profile sound, add the places of the nodes
taken in to its paths, and no others, and take over a method when a copy needs it (`Gains`). They
also keep the accounts in order when both profiles mark the same methods as excluded
(`Steps.ordered`). Nothing is asked of amounts.
-/

namespace CallLedger.Profile

variable {α : Type} [Amount α] {other profile after : Profile α} {place : NodeId → List Method}
  {ids : List NodeId} {parent : Option NodeId} {source : Nat} {node : Node α}
  {record : MethodRecord α}

/-! ## A copy -/

/-- A method is looked up, or taken over on first sight. -/
theorem Sound.knowing (hs : profile.Sound) {method : Method} {excluded : Bool}
    {methods : Registry α} {mine : Nat}
    (hentered : profile.methods.Entered method excluded methods mine) :
    Sound { profile with methods := methods } ∧
      Grows profile { profile with methods := methods } := by
  cases hentered with
  | known _ => exact ⟨hs, Grows.refl _⟩
  | new _ hlocate hunseen _ => exact ⟨hs.learn hlocate hunseen.nodes, grows_learn⟩

/-- A node of the other profile belongs where there is no node yet. -/
structure Room (place : NodeId → List Method) (other profile : Profile α) (parent : Option NodeId)
    (source : NodeId) (node : Node α) (record : MethodRecord α) : Prop
    extends Fits place other profile parent source node record where
  free : ¬ profile.HasPath (place source)

/-- A copy is a new node of the same method, on which the measurement is put then. -/
structure Copying (place : NodeId → List Method) (other profile : Profile α)
    (parent : Option NodeId) (source : NodeId) (node : Node α) (record : MethodRecord α)
    (learned : Profile α) (mine : MethodId) (found : MethodRecord α) : Prop where
  entered : profile.methods.Entered record.method record.excluded learned.methods mine
  tree : learned.tree = profile.tree
  sound : learned.Sound
  grows : Grows profile learned
  hasParent : learned.HasParent parent
  record : learned.methods.record? mine = some found
  free : learned.tree.childOf? parent found.key = none
  place : found.method :: learned.pathTo parent = place source
  copy : profile.copyNode other parent node = (learned.attach parent mine node.site).modifyNode
    learned.tree.size ({ · with measurement := node.measurement })

theorem Room.copying (h : Room place other profile parent source node record)
    (hs : profile.Sound) :
    ∃ learned mine found, Copying place other profile parent source node record learned mine
      found := by
  have hentered := profile.methods.adopt_entered record
  obtain ⟨hsound, hgrows⟩ := hs.knowing hentered
  obtain ⟨found, hfound, hmethod⟩ := hentered.exists_record
  have hparent := hgrows.hasParent h.hasParent
  have hplace : found.method :: pathTo { profile with methods := (profile.methods.adopt record).1 }
      parent = place source := by
    rw [hmethod, hgrows.pathTo_eq hs hsound h.hasParent, h.leads]
  refine ⟨{ profile with methods := (profile.methods.adopt record).1 }, _, found, hentered, rfl,
    hsound, hgrows, hparent, hfound, ?_, hplace, ?_⟩
  · rw [hsound.childOf?_eq_none hparent hfound, hplace,
      hgrows.hasPath_iff_of_tree hs hsound rfl]
    exact h.free
  · rw [copyNode, h.bound]

omit [Amount α] in
/-- Where there is no node, there is none below. -/
theorem Room.free_below (h : Room place other profile parent source node record)
    (hs : profile.Sound) (method : Method) : ¬ profile.HasPath (method :: place source) := by
  rw [h.leads]
  exact fun hpath => h.free (h.leads ▸ hs.hasPath_tail hpath)

section Copying

variable {learned : Profile α} {mine : Nat} {found : MethodRecord α}

theorem Copying.shape
    (h : Copying place other profile parent source node record learned mine found) :
    SameShape (learned.attach parent mine node.site) (profile.copyNode other parent node) := by
  rw [h.copy]
  exact sameShape_modifyNode (fun _ => rfl) fun _ => rfl

theorem Copying.size
    (h : Copying place other profile parent source node record learned mine found) :
    (profile.copyNode other parent node).tree.size = profile.tree.size + 1 := by
  rw [h.shape.size, size_attach parent node.site h.record, h.tree]

theorem Copying.sound_attach
    (h : Copying place other profile parent source node record learned mine found) :
    (learned.attach parent mine node.site).Sound :=
  h.sound.attach node.site h.record h.hasParent h.free

theorem Copying.sound_copy
    (h : Copying place other profile parent source node record learned mine found) :
    (profile.copyNode other parent node).Sound :=
  h.sound_attach.of_shape h.shape

theorem Copying.grows_copy
    (h : Copying place other profile parent source node record learned mine found) :
    Grows profile (profile.copyNode other parent node) :=
  (h.grows.trans (grows_attach node.site h.record h.hasParent)).trans h.shape.grows

/-- The copy, in the last place. -/
theorem Copying.node_copy
    (h : Copying place other profile parent source node record learned mine found) :
    ∃ copy, (profile.copyNode other parent node).tree.node? profile.tree.size = some copy ∧
      copy.method = mine ∧ copy.parent = parent ∧ copy.site = node.site := by
  have hfresh := node?_attach node.site h.record h.hasParent
  refine ⟨{ Node.fresh mine found.key parent node.site with measurement := node.measurement }, ?_,
    rfl, rfl, rfl⟩
  rw [h.copy, ← h.tree]
  show ((learned.attach parent mine node.site).tree.modify _ _).node? _ = _
  rw [CallTree.node?_modify, if_pos rfl, hfresh]
  rfl

theorem Copying.path_copy
    (h : Copying place other profile parent source node record learned mine found) :
    (profile.copyNode other parent node).path profile.tree.size = place source := by
  have hlast : learned.tree.size < (learned.attach parent mine node.site).tree.size := by
    rw [size_attach parent node.site h.record]
    exact Nat.lt_succ_self _
  rw [← h.tree, h.shape.grows.path_eq h.sound_attach h.sound_copy hlast,
    h.sound.path_attach node.site h.record h.hasParent h.free, h.place]

theorem Copying.hasPath_copy
    (h : Copying place other profile parent source node record learned mine found)
    (hs : profile.Sound) (path : List Method) :
    (profile.copyNode other parent node).HasPath path ↔
      profile.HasPath path ∨ place source = path := by
  rw [h.shape.hasPath_iff h.sound_attach,
    h.sound.hasPath_attach node.site h.record h.hasParent h.free, h.place,
    h.grows.hasPath_iff_of_tree hs h.sound h.tree, eq_comm (a := path)]

/-- A record after a copy is one as it was but for its nodes, or that of the method taken over. -/
theorem Copying.record_copy
    (h : Copying place other profile parent source node record learned mine found) (id : Nat) :
    ((profile.copyNode other parent node).methods.record? id).map MethodRecord.unlisted =
      (learned.methods.record? id).map MethodRecord.unlisted := by
  rw [h.copy, attach_of_record h.record]
  show ((learned.methods.modify mine _).record? id).map _ = _
  rw [Registry.record?_modify]
  split
  · rw [Option.map_map]
    rfl
  · rfl

/-- A record that is new after a copy is that of the method taken over. -/
theorem Copying.unseen_copy
    (h : Copying place other profile parent source node record learned mine found) {id : Nat}
    {later : MethodRecord α} (hnew : profile.methods.size ≤ id)
    (hid : (profile.copyNode other parent node).methods.record? id = some later) :
    id = mine ∧ Registry.Unseen later.unlisted ∧ later.method = record.method := by
  have hsame := h.record_copy id
  rw [hid, Option.map_some, eq_comm] at hsame
  obtain ⟨fresh, hfresh, heq⟩ := Option.map_eq_some_iff.mp hsame
  obtain ⟨hmine, hunseen, hmethod⟩ := h.entered.unseen hnew hfresh
  have hlater : fresh.method = later.method := (MethodRecord.mk.inj heq).2.1
  rw [← heq]
  exact ⟨hmine, { hunseen with nodes := rfl }, hlater.symm.trans hmethod⟩

end Copying

/-! ## Steps -/

/-- What taking in some nodes of another profile comes to. Where there are new nodes, these are
copies, and where there are new records, the copies were in need of them. -/
structure Gains (place : NodeId → List Method) (other profile after : Profile α)
    (ids : List NodeId) : Prop where
  sound : after.Sound
  grows : Grows profile after
  paths : ∀ path, after.HasPath path ↔ profile.HasPath path ∨ ∃ id ∈ ids, place id = path
  copies : ∀ {id : Nat} {node : Node α}, profile.tree.size ≤ id →
    after.tree.node? id = some node →
    ∃ source ∈ ids, ∃ theirs, other.tree.node? source = some theirs ∧
      place source = after.path id ∧ theirs.site = node.site
  kept : ∀ {id : Nat} {record : MethodRecord α}, profile.methods.record? id = some record →
    ∃ later, after.methods.record? id = some later ∧ later.unlisted = record.unlisted
  unseen : ∀ {id : Nat} {record : MethodRecord α}, profile.methods.size ≤ id →
    after.methods.record? id = some record → Registry.Unseen record.unlisted
  needed : ∀ {id : Nat} {record : MethodRecord α}, profile.methods.size ≤ id →
    after.methods.record? id = some record →
    (∃ node, profile.tree.size ≤ node ∧ after.methodOf? node = some id) ∧
      ∃ source ∈ ids, other.identity? source = some record.method

theorem Sound.gains_nothing (hs : profile.Sound) : Gains place other profile profile [] where
  sound := hs
  grows := Grows.refl _
  paths path := (or_iff_left (by simp)).symm
  copies hnew hid := absurd (CallTree.node?_lt hid) (Nat.not_lt_of_le hnew)
  kept hid := ⟨_, hid, rfl⟩
  unseen hnew hid := absurd (Registry.record?_lt hid) (Nat.not_lt_of_le hnew)
  needed hnew hid := absurd (Registry.record?_lt hid) (Nat.not_lt_of_le hnew)

theorem Gains.method_of_kept (h : Gains place other profile after ids) {id : Nat}
    {record later : MethodRecord α} (hid : profile.methods.record? id = some record)
    (hlater : after.methods.record? id = some later) : later.method = record.method := by
  obtain ⟨found, hfound, hsame⟩ := h.kept hid
  rw [hlater, Option.some.injEq] at hfound
  subst hfound
  exact (MethodRecord.mk.inj hsame).2.1

theorem Gains.trans {middle : Profile α} {more : List NodeId}
    (h : Gains place other profile middle ids) (hmore : Gains place other middle after more) :
    Gains place other profile after (ids ++ more) where
  sound := hmore.sound
  grows := h.grows.trans hmore.grows
  paths path := by
    rw [hmore.paths, h.paths]
    simp only [List.mem_append, or_and_right, exists_or, or_assoc]
  copies {id node} hnew hid := by
    rcases Nat.lt_or_ge id middle.tree.size with hlt | hge
    · obtain ⟨before, hbefore⟩ := CallTree.exists_node? hlt
      obtain ⟨source, hsource, theirs, htheirs, hpath, hsite⟩ := h.copies hnew hbefore
      obtain ⟨found, hfound, horigin⟩ := hmore.grows.node? hbefore
      rw [hid] at hfound
      cases hfound
      refine ⟨source, List.mem_append_left _ hsource, theirs, htheirs, ?_,
        hsite.trans (Node.of_origin horigin).2.2.2.symm⟩
      rw [hmore.grows.path_eq h.sound hmore.sound hlt, hpath]
    · obtain ⟨source, hsource, hcopy⟩ := hmore.copies hge hid
      exact ⟨source, List.mem_append_right _ hsource, hcopy⟩
  kept hid := by
    obtain ⟨found, hfound, hsame⟩ := h.kept hid
    obtain ⟨later, hlater, hagain⟩ := hmore.kept hfound
    exact ⟨later, hlater, hagain.trans hsame⟩
  unseen {id record} hnew hid := by
    rcases Nat.lt_or_ge id middle.methods.size with hlt | hge
    · obtain ⟨before, hbefore⟩ := Registry.exists_record? hlt
      obtain ⟨later, hlater, hsame⟩ := hmore.kept hbefore
      rw [hid, Option.some.injEq] at hlater
      rw [hlater, hsame]
      exact h.unseen hnew hbefore
    · exact hmore.unseen hge hid
  needed {id record} hnew hid := by
    rcases Nat.lt_or_ge id middle.methods.size with hlt | hge
    · obtain ⟨before, hbefore⟩ := Registry.exists_record? hlt
      obtain ⟨⟨node, hnode, hmethod⟩, source, hsource, htheirs⟩ := h.needed hnew hbefore
      refine ⟨⟨node, hnode, hmore.grows.methodOf? hmethod⟩, source,
        List.mem_append_left _ hsource, ?_⟩
      rw [htheirs, hmore.method_of_kept hbefore hid]
    · obtain ⟨⟨node, hnode, hmethod⟩, source, hsource, htheirs⟩ := hmore.needed hge hid
      exact ⟨⟨node, Nat.le_trans h.grows.size_le hnode, hmethod⟩, source,
        List.mem_append_right _ hsource, htheirs⟩

theorem Gains.perm {same : List NodeId} (h : Gains place other profile after ids)
    (hperm : ids.Perm same) : Gains place other profile after same where
  sound := h.sound
  grows := h.grows
  paths path := by
    rw [h.paths]
    simp only [hperm.mem_iff]
  copies hnew hid := by
    obtain ⟨source, hsource, hcopy⟩ := h.copies hnew hid
    exact ⟨source, hperm.mem_iff.mp hsource, hcopy⟩
  kept := h.kept
  unseen := h.unseen
  needed hnew hid := by
    obtain ⟨hnode, source, hsource, htheirs⟩ := h.needed hnew hid
    exact ⟨hnode, source, hperm.mem_iff.mp hsource, htheirs⟩

theorem Gains.hasPath_walkAll (h : Gains other.path other profile after other.tree.walkAll)
    (ho : other.Sound) (path : List Method) :
    after.HasPath path ↔ profile.HasPath path ∨ other.HasPath path := by
  rw [h.paths]
  refine or_congr_right ⟨fun ⟨id, hid, hpath⟩ => ?_, fun ⟨id, hid, hpath⟩ => ?_⟩
  · exact ⟨id, List.mem_range.mp (ho.tree.walkAll_perm.mem_iff.mp hid), hpath⟩
  · exact ⟨id, ho.tree.walkAll_perm.mem_iff.mpr (List.mem_range.mpr hid), hpath⟩

/-- No method has to be taken over that is known, and on records that were there only the lists of
nodes change. -/
theorem Gains.map_unlisted_recordsOf (h : Gains place other profile after ids) (hs : profile.Sound)
    (hknows : profile.Knows other) (method : Method) :
    (after.methods.recordsOf method).map MethodRecord.unlisted =
      (profile.methods.recordsOf method).map MethodRecord.unlisted := by
  rcases hs.methods.recordsOf_cases method with ⟨id, record, hid, rfl, hrecords⟩ | hrecords
  · obtain ⟨later, hlater, hsame⟩ := h.kept hid
    rw [hrecords, ← h.method_of_kept hid hlater, h.sound.methods.recordsOf_record hlater,
      List.map_singleton, hsame, List.map_singleton]
  · rw [hrecords, Registry.recordsOf_unknown]
    rintro id later hlater rfl
    have hunknown : ∀ {i : Nat} {record : MethodRecord α},
        profile.methods.record? i = some record → record.method ≠ later.method := by
      intro i record hi hmethod
      have hmem := Registry.mem_recordsOf.mpr ⟨⟨i, hi⟩, hmethod⟩
      rw [hrecords] at hmem
      cases hmem
    rcases Nat.lt_or_ge id profile.methods.size with hlt | hge
    · obtain ⟨record, hid⟩ := Registry.exists_record? hlt
      exact hunknown hid (h.method_of_kept hid hlater).symm
    · obtain ⟨-, source, -, htheirs⟩ := h.needed hge hlater
      obtain ⟨theirs, -, hmap⟩ := Option.bind_eq_some_iff.mp htheirs
      obtain ⟨record, hrecord, hmethod⟩ := Option.map_eq_some_iff.mp hmap
      obtain ⟨mine, found, hfound, hsame⟩ := hknows hrecord
      exact hunknown hfound (hsame.trans hmethod)

theorem Copying.gains {learned : Profile α} {mine : Nat} {found : MethodRecord α}
    (h : Copying place other profile parent source node record learned mine found)
    (hfits : Fits place other profile parent source node record) (hs : profile.Sound) :
    Gains place other profile (profile.copyNode other parent node) [source] where
  sound := h.sound_copy
  grows := h.grows_copy
  paths path := by
    rw [h.hasPath_copy hs]
    simp
  copies {id copy} hnew hid := by
    have hlt := CallTree.node?_lt hid
    rw [h.size] at hlt
    obtain rfl : id = profile.tree.size := Nat.le_antisymm (Nat.le_of_lt_succ hlt) hnew
    obtain ⟨found, hfound, -, -, hsite⟩ := h.node_copy
    rw [hid, Option.some.injEq] at hfound
    subst hfound
    exact ⟨source, List.mem_singleton_self _, node, hfits.listed, h.path_copy.symm, hsite.symm⟩
  kept {id before} hid := by
    have hsame := h.record_copy id
    rw [h.entered.record?_eq (Registry.record?_lt hid), hid, Option.map_some] at hsame
    obtain ⟨later, hlater, heq⟩ := Option.map_eq_some_iff.mp hsame
    exact ⟨later, hlater, heq⟩
  unseen hnew hid := (h.unseen_copy hnew hid).2.1
  needed hnew hid := by
    obtain ⟨hmine, -, hmethod⟩ := h.unseen_copy hnew hid
    obtain ⟨copy, hcopy, hbound, -, -⟩ := h.node_copy
    refine ⟨⟨profile.tree.size, Nat.le_refl _, ?_⟩, source, List.mem_singleton_self _, ?_⟩
    · rw [methodOf?_eq hcopy, hbound, hmine]
    · rw [identity?_eq hfits.listed hfits.bound, hmethod]

/-- A measurement that is added where a node belongs. -/
theorem Sound.gains_add (hs : profile.Sound) {target : Nat} (htarget : target < profile.tree.size)
    (hpath : profile.path target = place source) (cost : Measurement α) :
    Gains place other profile (profile.modifyNode target fun mine =>
      { mine with measurement := mine.measurement.merge cost }) [source] := by
  have hshape : SameShape profile (profile.modifyNode target fun mine =>
      { mine with measurement := mine.measurement.merge cost }) :=
    sameShape_modifyNode (fun _ => rfl) fun _ => rfl
  refine ⟨hs.of_shape hshape, hshape.grows, fun path => ?_, fun hnew hid => ?_,
    fun hid => ⟨_, hid, rfl⟩, fun hnew hid => ?_, fun hnew hid => ?_⟩
  · rw [hshape.hasPath_iff hs]
    refine (or_iff_left_of_imp ?_).symm
    rintro ⟨id, hid, rfl⟩
    rw [List.mem_singleton.mp hid]
    exact ⟨target, htarget, hpath⟩
  · have hlt := CallTree.node?_lt hid
    rw [hshape.size] at hlt
    exact absurd hlt (Nat.not_lt_of_le hnew)
  · exact absurd (Registry.record?_lt hid) (Nat.not_lt_of_le hnew)
  · exact absurd (Registry.record?_lt hid) (Nat.not_lt_of_le hnew)

/-- A profile that has taken in some nodes of another one, one after another, each by a copy of it
or by adding its measurement to the node that is where it belongs. -/
inductive Steps (place : NodeId → List Method) (other : Profile α) :
    Profile α → Profile α → List NodeId → Prop
  | nothing {profile : Profile α} (hs : profile.Sound) : Steps place other profile profile []
  | copied {profile : Profile α} {parent : Option NodeId} {source : Nat} {node : Node α}
      {record : MethodRecord α} (hs : profile.Sound)
      (hroom : Room place other profile parent source node record) :
      Steps place other profile (profile.copyNode other parent node) [source]
  | added {profile : Profile α} {target source : Nat} {node : Node α} (hs : profile.Sound)
      (hnode : other.tree.node? source = some node) (htarget : target < profile.tree.size)
      (hpath : profile.path target = place source) :
      Steps place other profile (profile.modifyNode target fun mine =>
        { mine with measurement := mine.measurement.merge node.measurement }) [source]
  | followed {profile middle after : Profile α} {ids more : List NodeId}
      (h : Steps place other profile middle ids) (hmore : Steps place other middle after more) :
      Steps place other profile after (ids ++ more)

/-- A profile that has taken in some nodes of another one, in whatever order. -/
def Intake (place : NodeId → List Method) (other profile after : Profile α)
    (ids : List NodeId) : Prop :=
  ∃ order : List NodeId, order.Perm ids ∧ Steps place other profile after order

theorem Steps.intake (h : Steps place other profile after ids) :
    Intake place other profile after ids :=
  ⟨ids, List.Perm.refl ids, h⟩

theorem Steps.gains (h : Steps place other profile after ids) :
    Gains place other profile after ids := by
  induction h with
  | nothing hs => exact hs.gains_nothing
  | copied hs hroom =>
      obtain ⟨learned, mine, found, hcopying⟩ := hroom.copying hs
      exact hcopying.gains hroom.toFits hs
  | added hs _ htarget hpath => exact hs.gains_add htarget hpath _
  | followed _ _ ih ihmore => exact ih.trans ihmore

theorem Intake.gains (h : Intake place other profile after ids) :
    Gains place other profile after ids := by
  obtain ⟨order, hperm, hsteps⟩ := h
  exact hsteps.gains.perm hperm

/-- Steps keep the order of the accounts, for a method is excluded on both sides or on none. -/
theorem Steps.ordered (h : Steps place other profile after ids) {exclusions : Exclusions}
    {theirs : List (OpenCall α)} (ho : Ordered exclusions other theirs)
    {calls : List (OpenCall α)} :
    Ordered exclusions profile calls → Ordered exclusions after calls := by
  induction h with
  | nothing _ => exact id
  | copied hs hroom =>
      intro hordered
      obtain ⟨learned, mine, found, hcopying⟩ := hroom.copying hs
      have hentered := hcopying.entered
      rw [ho.excluded hroom.bound] at hentered
      have hmine : Ordered exclusions learned calls := by
        have hlearned := (hordered.knowing hentered).1
        rw [← hcopying.tree] at hlearned
        exact hlearned
      have hexcluded : found.excluded = false := by
        obtain ⟨same, hsame, hmethod⟩ := hentered.exists_record
        rw [hcopying.record, Option.some.injEq] at hsame
        rw [hmine.excluded hcopying.record, hsame, hmethod, ← ho.excluded hroom.bound,
          ho.unbound hroom.listed hroom.bound]
      rw [hcopying.copy]
      exact (hmine.attach _ hcopying.record hcopying.hasParent hcopying.free hexcluded).modifyNode
        _ _ (fun _ => rfl) (fun _ => rfl) fun _ => rfl
  | added _ _ _ _ =>
      intro hordered
      exact hordered.modifyNode _ _ (fun _ => rfl) (fun _ => rfl) fun _ => rfl
  | followed _ _ ih ihmore => exact fun hordered => ihmore (ih hordered)

theorem Intake.ordered (h : Intake place other profile after ids) {exclusions : Exclusions}
    {theirs calls : List (OpenCall α)} (ho : Ordered exclusions other theirs)
    (hordered : Ordered exclusions profile calls) : Ordered exclusions after calls := by
  obtain ⟨order, -, hsteps⟩ := h
  exact hsteps.ordered ho hordered

/-- Steps that each take in their own nodes take them all in, when none of them
spoils another. -/
theorem Steps.foldl {β : Type} (step : Profile α → β → Profile α)
    (ready : β → Profile α → Prop) (ids : β → List NodeId)
    (hstep : ∀ {item : β} {current : Profile α}, current.Sound → ready item current →
      Steps place other current (step current item) (ids item)) :
    ∀ {items : List β} {profile : Profile α}, profile.Sound →
      (∀ item ∈ items, ready item profile) →
      items.Pairwise (fun a b => ∀ {current after : Profile α}, current.Sound →
        Gains place other current after (ids a) → ready b current → ready b after) →
      Steps place other profile (items.foldl step profile) (items.flatMap ids) := by
  intro items
  induction items with
  | nil => intro profile hs _ _; exact .nothing hs
  | cons item items ih =>
      intro profile hs hready hkeep
      have hfirst := hstep hs (hready item List.mem_cons_self)
      obtain ⟨hothers, hrest⟩ := List.pairwise_cons.mp hkeep
      refine hfirst.followed (ih hfirst.gains.sound (fun later hlater => ?_) hrest)
      exact hothers later hlater hs hfirst.gains (hready later (List.mem_cons_of_mem _ hlater))

end CallLedger.Profile
