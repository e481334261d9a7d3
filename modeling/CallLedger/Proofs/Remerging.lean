import CallLedger.Proofs.Renumbering

/-!
# Renumbered profiles merge alike

A merge finds its way by methods and goes along siblings in their order. So when both
of the profiles that are merged are renumbered, it does the same on either side, one
step after the other, and what comes out is renumbered (`Renumbered.merge`). There is a
lemma for each of the functions that a merge is made of.

The cut-off at as many levels as the other profile has nodes may be different on the
two sides, for a tree may have nodes that are filed nowhere. It is felt on neither,
since children stand after their parents.
-/

namespace CallLedger.Profile

variable {α : Type} {profile peer other copy : Profile α}
  {same theirs below : NodeId → NodeId → Prop}

/-! ## Finding the way -/

theorem Renumbered.keyFrom (h : Renumbered same profile peer) (ho : Renumbered theirs other copy)
    {x y : NodeId} (hxy : theirs x y) : profile.keyFrom other x = peer.keyFrom copy y := by
  have hkey : ∀ (profile other : Profile α) (x : NodeId), profile.keyFrom other x =
      (other.methodOf? x).bind fun method =>
        (profile.methods.lookupFrom other.methods method).bind fun mine =>
          (profile.methods.record? mine).map (·.key) := by
    intro profile other x
    simp [Profile.keyFrom, Option.map_eq_bind]
  have hfound : ∀ mine, (profile.methods.record? mine).map (·.key) =
      (peer.methods.record? mine).map (·.key) :=
    Registry.map_of_lasting h.methods fun _ => rfl
  rw [hkey profile, hkey peer, ho.methodOf? hxy]
  simp only [Registry.lookupFrom_of_lasting h.methods ho.methods, hfound]

/-- The node of this profile that a node of the other one is added to. -/
theorem Renumbered.counterpart (h : Renumbered same profile peer)
    (ho : Renumbered theirs other copy) {parent place : Option NodeId}
    (hparent : Option.Rel same parent place) {x y : NodeId} (hxy : theirs x y) :
    Option.Rel same ((profile.keyFrom other x).bind (profile.tree.childOf? parent))
      ((peer.keyFrom copy y).bind (peer.tree.childOf? place)) := by
  rw [h.keyFrom ho hxy]
  cases peer.keyFrom copy y with
  | none => exact .none
  | some key => exact h.childOf? hparent key

theorem Renumbered.corresponds_eq (h : Renumbered same profile peer)
    (ho : Renumbered theirs other copy) {target place : NodeId} (htarget : same target place)
    {x y : NodeId} (hxy : theirs x y) :
    profile.corresponds other target x = peer.corresponds copy place y := by
  obtain ⟨mine, found, hmine, hfound, hown⟩ := h.nodes htarget
  obtain ⟨node, listed, hnode, hlisted, hother⟩ := ho.nodes hxy
  have hup := hown.parent
  have hotherUp := hother.parent
  unfold corresponds
  rw [hmine, hfound, hnode, hlisted]
  simp only []
  rw [Registry.lookupFrom_of_lasting h.methods ho.methods, hown.method, hother.method]
  congr 1
  generalize mine.parent = a at hup
  generalize found.parent = b at hup
  generalize node.parent = c at hotherUp
  generalize listed.parent = d at hotherUp
  cases hup with
  | none =>
      cases hotherUp with
      | none => rfl
      | some _ => rfl
  | some hcaller =>
      cases hotherUp with
      | none => rfl
      | some htheirs =>
          simp only []
          rw [h.methodOf? hcaller, ho.methodOf? htheirs]
          cases peer.methodOf? _ with
          | none => rfl
          | some mine =>
              cases copy.methodOf? _ with
              | none => rfl
              | some theirs =>
                  simp only [Registry.lookupFrom_of_lasting h.methods ho.methods]

/-- The children of nodes that stand for each other, which stand behind them. -/
theorem children_of_renumbered (hp : profile.tree.Branching) (hq : peer.tree.Branching)
    {x y : Nat} {a b : Node α} (ha : profile.tree.node? x = some a)
    (hb : peer.tree.node? y = some b) (hab : a.Renumbered same b) :
    List.Forall₂ (fun child place : Nat => same child place ∧ x < child ∧ y < place)
      a.children b.children := by
  refine (forall₂_mem hab.links.targets).imp fun child place hchild => ?_
  obtain ⟨hmem, hplace, hsame⟩ := hchild
  refine ⟨hsame, (hp.child_lt ?_).1, (hq.child_lt ?_).1⟩
  · rw [CallTree.children, ha]
    exact hmem
  · rw [CallTree.children, hb]
    exact hplace

/-! ## Copying -/

variable [Amount α]

theorem Renumbered.copyNode (h : Renumbered same profile peer) (ho : Renumbered theirs other copy)
    {parent place : Option NodeId} (hparent : Option.Rel same parent place) {a b : Node α}
    (hab : a.Renumbered theirs b) {record : MethodRecord α}
    (hrecord : other.methods.record? a.method = some record) :
    Renumbered (joined same profile.tree.size peer.tree.size) (profile.copyNode other parent a)
      (peer.copyNode copy place b) := by
  obtain ⟨found, hfound, hlasting⟩ := Registry.record?_of_lasting ho.methods hrecord
  obtain ⟨hmethods, hid⟩ := Registry.adopt_of_lasting h.methods hlasting.symm
  obtain ⟨adopted, hadopted, -⟩ := (profile.methods.adopt_entered record).exists_record
  unfold Profile.copyNode
  rw [← hab.method, hrecord, hfound]
  simp only []
  rw [← hid, ← hab.site, ← hab.measurement]
  refine Renumbered.modifyNode ?_ (Or.inr ⟨rfl, rfl⟩) fun hfresh => ?_
  · exact (h.with_methods hmethods).attach hparent hadopted a.site
  · exact { hfresh with measurement := rfl }

/-- Subtrees of nodes that stand for each other are copied alike. -/
theorem Renumbered.copyWithin (ho : Renumbered theirs other copy) (hother : other.Filed)
    (hcopy : copy.Filed) :
    ∀ {levels more : Nat} {same : NodeId → NodeId → Prop} {profile peer : Profile α}
      {parent place : Option NodeId} {x y : Nat}, Renumbered same profile peer →
      Option.Rel same parent place → theirs x y → other.tree.size ≤ levels + x →
      copy.tree.size ≤ more + y →
      RenumberedWith same (copyWithin other levels profile parent x)
        (copyWithin copy more peer place y) := by
  intro levels
  induction levels with
  | zero =>
      intro more same profile peer parent place x y _ _ hxy hlevels _
      have hlt := (ho.lt hxy).1
      omega
  | succ levels ih =>
      intro more same profile peer parent place x y h hparent hxy hlevels hmore
      have hlt := (ho.lt hxy).2
      obtain ⟨a, b, ha, hb, hab⟩ := ho.nodes hxy
      obtain ⟨record, hrecord, -⟩ := hother.bound ha
      cases more with
      | zero => omega
      | succ more =>
          rw [Profile.copyWithin, Profile.copyWithin, ha, hb]
          simp only []
          -- the children go under the two copies, which stand for each other from now on
          have hcopied := h.copyNode ho hparent hab hrecord
          have hchildren :=
            children_of_renumbered hother.tree.branching hcopy.tree.branching ha hb hab
          refine RenumberedWith.mono (Renumbered.foldl
            (fun same (child peerChild : Nat) => same profile.tree.size peer.tree.size ∧
              theirs child peerChild ∧ x < child ∧ y < peerChild)
            (fun hlater hready => ⟨hlater hready.1, hready.2⟩) (fun h hready => ?_)
            (List.rel_reverse (hchildren.imp fun _ _ hchild => ⟨Or.inr ⟨rfl, rfl⟩, hchild⟩))
            hcopied) Or.inl
          obtain ⟨hplace, hchild, hbehind, hbelow⟩ := hready
          exact ih h (.some hplace) hchild (by omega) (by omega)

theorem Renumbered.copySubtree (h : Renumbered same profile peer)
    (ho : Renumbered theirs other copy) (hother : other.Filed) (hcopy : copy.Filed)
    {parent place : Option NodeId} (hparent : Option.Rel same parent place) {x y : NodeId}
    (hxy : theirs x y) :
    RenumberedWith same (profile.copySubtree other parent x) (peer.copySubtree copy place y) :=
  ho.copyWithin hother hcopy h hparent hxy (Nat.le_add_right _ _) (Nat.le_add_right _ _)

/-- Of children that stand for each other the same ones are missing, and the others make pairs
that stand for each other. -/
theorem Renumbered.copyMissing (ho : Renumbered theirs other copy) (hother : other.Filed)
    (hcopy : copy.Filed) (hbelow : ∀ {x y : NodeId}, below x y → theirs x y) :
    ∀ {sources sites : List NodeId} {same : NodeId → NodeId → Prop} {profile peer : Profile α}
      {target place : NodeId} {pairs matched : List (NodeId × NodeId)},
      Renumbered same profile peer → same target place → List.Forall₂ below sources sites →
      List.Forall₂ (fun a b => same a.1 b.1 ∧ below a.2 b.2) pairs matched →
      ∃ later : NodeId → NodeId → Prop, (∀ {x y : NodeId}, same x y → later x y) ∧
        Renumbered later (copyMissing other target sources profile pairs).1
          (copyMissing copy place sites peer matched).1 ∧
        List.Forall₂ (fun a b => later a.1 b.1 ∧ below a.2 b.2)
          (copyMissing other target sources profile pairs).2
          (copyMissing copy place sites peer matched).2 := by
  intro sources
  induction sources with
  | nil =>
      intro sites same profile peer target place pairs matched h _ hsources hpairs
      cases hsources
      exact ⟨same, fun hxy => hxy, h, hpairs⟩
  | cons source sources ih =>
      intro sites same profile peer target place pairs matched h htarget hsources hpairs
      cases hsources with
      | @cons _ site _ sites hfirst hrest =>
          have hfound := h.counterpart ho (.some htarget) (hbelow hfirst)
          rw [Profile.copyMissing, Profile.copyMissing]
          generalize (profile.keyFrom other source).bind _ = child at hfound
          generalize (peer.keyFrom copy site).bind _ = counterpart at hfound
          cases hfound with
          | some hchild => exact ih h htarget hrest (.cons ⟨hchild, hfirst⟩ hpairs)
          | none =>
              obtain ⟨middle, hmiddle, hcopied⟩ :=
                h.copySubtree ho hother hcopy (.some htarget) (hbelow hfirst)
              obtain ⟨later, hlater, hafter, hmatched⟩ := ih hcopied (hmiddle htarget) hrest
                (hpairs.imp fun _ _ hpair => ⟨hmiddle hpair.1, hpair.2⟩)
              exact ⟨later, fun hxy => hlater (hmiddle hxy), hafter, hmatched⟩

/-! ## Adding -/

theorem Renumbered.addWithin (ho : Renumbered theirs other copy) (hother : other.Filed)
    (hcopy : copy.Filed) :
    ∀ {levels more : Nat} {same : NodeId → NodeId → Prop} {profile peer : Profile α}
      {target place : NodeId} {x y : Nat}, Renumbered same profile peer → same target place →
      theirs x y → other.tree.size ≤ levels + x → copy.tree.size ≤ more + y →
      RenumberedWith same (addWithin other levels profile target x)
        (addWithin copy more peer place y) := by
  intro levels
  induction levels with
  | zero =>
      intro more same profile peer target place x y _ _ hxy hlevels _
      have hlt := (ho.lt hxy).1
      omega
  | succ levels ih =>
      intro more same profile peer target place x y h htarget hxy hlevels hmore
      have hlt := (ho.lt hxy).2
      obtain ⟨a, b, ha, hb, hab⟩ := ho.nodes hxy
      cases more with
      | zero => omega
      | succ more =>
          rw [Profile.addWithin, Profile.addWithin, ha, hb]
          simp only []
          have hadded : Renumbered same
              (profile.modifyNode target fun mine =>
                { mine with measurement := mine.measurement.merge a.measurement })
              (peer.modifyNode place fun mine =>
                { mine with measurement := mine.measurement.merge b.measurement }) :=
            h.modifyNode htarget fun hmine =>
              { hmine with measurement := by rw [hmine.measurement, hab.measurement] }
          obtain ⟨later, hlater, hcopied, hpairs⟩ := ho.copyMissing hother hcopy
            (fun hchild => hchild.1) hadded htarget
            (children_of_renumbered hother.tree.branching hcopy.tree.branching ha hb hab) .nil
          refine RenumberedWith.mono (Renumbered.foldl
            (fun same (a b : Nat × Nat) => same a.1 b.1 ∧ theirs a.2 b.2 ∧ x < a.2 ∧ y < b.2)
            (fun hmore hready => ⟨hmore hready.1, hready.2⟩) (fun h hready => ?_)
            hpairs hcopied) hlater
          obtain ⟨hmine, hchild, hbehind, hbelow⟩ := hready
          exact ih h hmine hchild (by omega) (by omega)

/-! ## Whole profiles -/

theorem Renumbered.mergeRoot (h : Renumbered same profile peer)
    (ho : Renumbered theirs other copy) (hother : other.Filed) (hcopy : copy.Filed)
    {x y : NodeId} (hxy : theirs x y) :
    RenumberedWith same (profile.mergeRoot other x) (peer.mergeRoot copy y) := by
  have hfound := h.counterpart ho .none hxy
  unfold Profile.mergeRoot
  change Option.Rel same ((profile.keyFrom other x).bind profile.tree.root?)
    ((peer.keyFrom copy y).bind peer.tree.root?) at hfound
  generalize (profile.keyFrom other x).bind profile.tree.root? = root at hfound
  generalize (peer.keyFrom copy y).bind peer.tree.root? = counterpart at hfound
  cases hfound with
  | none => exact h.copySubtree ho hother hcopy .none hxy
  | some hroot =>
      simp only [mergeNode, h.corresponds_eq ho hroot hxy]
      split
      · exact ho.addWithin hother hcopy h hroot hxy (Nat.le_add_right _ _) (Nat.le_add_right _ _)
      · exact h.renumberedWith

theorem Renumbered.mergeTree (h : Renumbered same profile peer)
    (ho : Renumbered theirs other copy) (hother : other.Filed) (hcopy : copy.Filed) :
    RenumberedWith same (profile.mergeTree other) (peer.mergeTree copy) :=
  Renumbered.foldl (fun _ => theirs) (fun _ hroot => hroot)
    (fun h hroot => h.mergeRoot ho hother hcopy hroot) ho.roots.targets h

/-- What is merged of renumbered profiles is renumbered. -/
theorem Renumbered.merge (h : Renumbered same profile peer) (ho : Renumbered theirs other copy)
    (hother : other.Filed) (hcopy : copy.Filed) :
    RenumberedWith same (profile.merge other) (peer.merge copy) := by
  have hrecords : (other.methods.records.toList.foldl Registry.mergeRecord
      profile.methods).lasting =
        (copy.methods.records.toList.foldl Registry.mergeRecord peer.methods).lasting := by
    rw [← Registry.foldl_mergeRecord_lasting, ← Registry.foldl_mergeRecord_lasting, h.methods,
      ← Registry.toList_lasting, ← Registry.toList_lasting, ho.methods]
  unfold Profile.merge
  rw [← Array.foldl_toList, ← Array.foldl_toList, Registry.foldl_mergeMethod,
    Registry.foldl_mergeMethod]
  exact (h.with_methods hrecords).mergeTree ho hother hcopy

/-! ## Profiles that do the same -/

/-- Two profiles in good order that differ in the positions of their nodes only. -/
structure Interchangeable (profile peer : Profile α) : Prop where
  filed : profile.Filed
  peerFiled : peer.Filed
  renumbered : ∃ same, Renumbered same profile peer

theorem Interchangeable.merge (h : Interchangeable profile peer)
    (ho : Interchangeable other copy) :
    Interchangeable (profile.merge other) (peer.merge copy) := by
  obtain ⟨same, hsame⟩ := h.renumbered
  obtain ⟨theirs, htheirs⟩ := ho.renumbered
  obtain ⟨later, -, hlater⟩ := hsame.merge htheirs ho.filed ho.peerFiled
  exact ⟨(continues_merge ho.filed h.filed).filed h.filed,
    (continues_merge ho.peerFiled h.peerFiled).filed h.peerFiled, later, hlater⟩

theorem Interchangeable.dumpNodes_eq (h : Interchangeable profile peer) :
    profile.dumpNodes = peer.dumpNodes := by
  obtain ⟨same, hsame⟩ := h.renumbered
  exact hsame.dumpNodes_eq h.filed.tree.branching h.peerFiled.tree.branching

theorem Interchangeable.listed_eq (h : Interchangeable profile peer) :
    profile.methods.records.toList.map DumpedMethod.ofRecord =
      peer.methods.records.toList.map DumpedMethod.ofRecord := by
  obtain ⟨same, hsame⟩ := h.renumbered
  exact Registry.listed_of_lasting hsame.methods

end CallLedger.Profile
