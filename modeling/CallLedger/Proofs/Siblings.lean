import CallLedger.Proofs.Folding
import CallLedger.Proofs.Grafting

/-!
# The order of copied siblings

Positions are handed out as nodes are made, and siblings are shown by position, which in a recorded
tree is the order of their first calls. A copy takes the next position, so of two siblings that a
merge copies the one that it comes to first is shown first (`Steps.copied_in_turn`).

Roots and missing children of a node that was there are copied in their order, and stay in it. Below
a node that is itself copied the last child is copied first, so there all siblings are turned around
(`CopiesOrdered`). This is the same when a node is given to a node, when trees or profiles are
merged, and when fibers are folded (`copies_ordered`). What is merged later does not change the
order of what is there, for positions stay.
-/

namespace CallLedger

namespace CallTree

variable {α : Type} {tree : CallTree α}

/-- One node stands before a sibling of it wherever the tree shows both. -/
structure InOrder (tree : CallTree α) (a b : NodeId) : Prop where
  lt : a < b
  listed : b < tree.size
  siblings : tree.parent? a = tree.parent? b
  roots : tree.parent? a = none → [a, b].Sublist tree.roots
  children : ∀ parent : Nat, tree.parent? a = some parent → [a, b].Sublist (tree.children parent)
  walk : ∀ id : Nat, id < tree.size → a ∈ tree.walk id → b ∈ tree.walk id →
    [a, b].Sublist (tree.walk id)
  walkAll : [a, b].Sublist tree.walkAll

theorem sublist_targets_filed {parent : Option NodeId} {a b : Nat} (hlt : a < b)
    (ha : a ∈ (tree.filed parent).targets) (hb : b ∈ (tree.filed parent).targets) :
    [a, b].Sublist (tree.filed parent).targets := by
  have hascending : (tree.filed parent).targets.Pairwise (· < ·) := by
    rw [targets_filed]
    exact List.pairwise_lt_range.filter _
  refine List.sublist_of_subperm_of_pairwise (List.subperm_of_subset ?_ ?_)
    (List.pairwise_pair.mpr hlt) hascending
  · simp [Nat.ne_of_lt hlt]
  · simp [ha, hb]

/-- Siblings stand in the order of their positions. -/
theorem Linked.inOrder (hl : tree.Linked) {a b : Nat} (hlt : a < b) (hb : b < tree.size)
    (hsiblings : tree.parent? a = tree.parent? b) : tree.InOrder a b := by
  have ha := Nat.lt_trans hlt hb
  have hparent : ∀ p : Nat, tree.parent? a = some p → p < tree.size := by
    intro p hp
    exact Nat.lt_trans (hl.parent?_lt hp) ha
  have hshown : [a, b].Sublist (tree.linksOf (tree.parent? a)).targets := by
    obtain ⟨mine, hmine⟩ := exists_node? ha
    obtain ⟨theirs, htheirs⟩ := exists_node? hb
    rw [hl.linksOf_eq hparent]
    refine sublist_targets_filed hlt (mem_targets_filed.mpr ⟨mine, hmine, ?_⟩)
      (mem_targets_filed.mpr ⟨theirs, htheirs, ?_⟩)
    · rw [parent?_eq hmine]
    · rw [hsiblings, parent?_eq htheirs]
  have hchildren : ∀ parent : Nat, tree.parent? a = some parent →
      [a, b].Sublist (tree.children parent) := by
    intro parent hp
    rw [children_eq_targets, ← hp]
    exact hshown
  refine ⟨hlt, hb, hsiblings, fun hnone => ?_, hchildren, fun id hid hwalk hother => ?_, ?_⟩
  · rw [hnone] at hshown
    exact hshown
  · rcases hl.branching.mem_walk_cases hid hwalk with rfl | ⟨parent, hmem, hchild⟩
    · -- the start of a walk has no sibling on it
      obtain ⟨hsize, hway⟩ := hl.branching.way_of_mem_walk hid hother
      have hsame := hl.lineage_apart hsize hway List.mem_cons_self hsiblings
      exact absurd hsame (Nat.ne_of_lt hlt)
    · have hsize := (hl.branching.way_of_mem_walk hid hmem).1
      exact ((hchildren parent (hl.branching.parent?_child hchild)).trans
        (hl.branching.children_sublist_walk hsize)).trans
        (hl.branching.walk_infix hid hmem).sublist
  · refine hshown.trans (hl.branching.targets_sublist fun p hp => ?_)
    exact hl.walkAll_perm.mem_iff.mpr (List.mem_range.mpr (hparent p hp))

end CallTree

namespace Profile

variable {α : Type} {other profile middle after : Profile α} {place : NodeId → List Method}
  {held : NodeId → Bool} {ids order : List NodeId}

/-! ## Siblings and their paths -/

/-- Nodes are siblings when their paths differ in the callee at most. -/
theorem Sound.parent?_eq_iff (hs : profile.Sound) {x y : Nat} (hx : x < profile.tree.size)
    (hy : y < profile.tree.size) : profile.tree.parent? x = profile.tree.parent? y ↔
      (profile.path x).tail = (profile.path y).tail := by
  obtain ⟨a, ra, ha, -, -, hpathx⟩ := hs.exists_path_eq hx
  obtain ⟨b, rb, hb, -, -, hpathy⟩ := hs.exists_path_eq hy
  rw [CallTree.parent?_eq ha, CallTree.parent?_eq hb, hpathx, hpathy, List.tail_cons,
    List.tail_cons]
  refine ⟨congrArg profile.pathTo, fun hpath => ?_⟩
  have hup : ∀ {id parent : Nat} {node : Node α}, profile.tree.node? id = some node →
      node.parent = some parent → parent < profile.tree.size := fun hnode hparent =>
    Nat.lt_trans (hs.tree.parent_lt hnode hparent) (CallTree.node?_lt hnode)
  cases hpa : a.parent with
  | none =>
      cases hpb : b.parent with
      | none => rfl
      | some q =>
          rw [hpa, hpb] at hpath
          exact absurd hpath.symm (hs.path_ne_nil (hup hb hpb))
  | some p =>
      cases hpb : b.parent with
      | none =>
          rw [hpa, hpb] at hpath
          exact absurd hpath (hs.path_ne_nil (hup ha hpa))
      | some q =>
          rw [hpa, hpb] at hpath
          rw [hs.path_inj (hup ha hpa) (hup hb hpb) hpath]

/-- Siblings stay in their order when a profile grows. -/
theorem Grows.inOrder (h : Grows profile after) (hs : profile.Sound) (ha : after.Sound) {x y : Nat}
    (hxy : profile.tree.InOrder x y) : after.tree.InOrder x y := by
  have hy := hxy.listed
  have hx := Nat.lt_trans hxy.lt hy
  have hy' := Nat.lt_of_lt_of_le hy h.size_le
  refine ha.tree.inOrder hxy.lt hy' ?_
  rw [ha.parent?_eq_iff (Nat.lt_trans hxy.lt hy') hy', h.path_eq hs ha hx, h.path_eq hs ha hy]
  exact (hs.parent?_eq_iff hx hy).mp hxy.siblings

/-! ## One step after another -/

variable [Amount α]

/-- Steps can be stopped anywhere. -/
theorem Steps.split (h : Steps place other profile after order) : ∀ {front back : List NodeId},
    order = front ++ back →
      ∃ middle, Steps place other profile middle front ∧ Steps place other middle after back := by
  induction h with
  | nothing hs =>
      intro front back heq
      obtain ⟨rfl, rfl⟩ := List.append_eq_nil_iff.mp heq.symm
      exact ⟨_, .nothing hs, .nothing hs⟩
  | copied hs hroom =>
      intro front back heq
      have hstep := Steps.copied hs hroom
      rcases List.singleton_eq_append_iff.mp heq with ⟨rfl, rfl⟩ | ⟨rfl, rfl⟩
      · exact ⟨_, .nothing hs, hstep⟩
      · exact ⟨_, hstep, .nothing hstep.gains.sound⟩
  | added hs hnode htarget hpath =>
      intro front back heq
      have hstep := Steps.added hs hnode htarget hpath
      rcases List.singleton_eq_append_iff.mp heq with ⟨rfl, rfl⟩ | ⟨rfl, rfl⟩
      · exact ⟨_, .nothing hs, hstep⟩
      · exact ⟨_, hstep, .nothing hstep.gains.sound⟩
  | followed h hmore ih ihmore =>
      intro front back heq
      rcases List.append_eq_append_iff.mp heq with ⟨rest, rfl, hrest⟩ | ⟨rest, hrest, rfl⟩
      · obtain ⟨middle, hfront, hback⟩ := ihmore hrest
        exact ⟨middle, h.followed hfront, hback⟩
      · obtain ⟨middle, hfront, hback⟩ := ih hrest
        exact ⟨middle, hfront, hback.followed hmore⟩

/-- Of two nodes that are missing, the one that is come to first is copied to the lower position. -/
theorem Steps.copied_in_turn (h : Steps place other profile after order) (hs : profile.Sound)
    (hplaces : (order.map place).Nodup) {a b : NodeId} (hab : [a, b].Sublist order)
    (ha : ¬ profile.HasPath (place a)) (hb : ¬ profile.HasPath (place b)) :
    ∃ x y : Nat, profile.tree.size ≤ x ∧ x < y ∧ y < after.tree.size ∧
      after.path x = place a ∧ after.path y = place b := by
  obtain ⟨front, back, rfl, hfront, hback⟩ := List.cons_sublist_iff.mp hab
  rw [List.singleton_sublist] at hback
  obtain ⟨middle, hfirst, hlast⟩ := h.split rfl
  have hgains := hfirst.gains
  have hlater := hlast.gains
  obtain ⟨x, hx, hpathx⟩ := (hgains.paths (place a)).mpr (Or.inr ⟨a, hfront, rfl⟩)
  obtain ⟨y, hy, hpathy⟩ := (hlater.paths (place b)).mpr (Or.inr ⟨b, hback, rfl⟩)
  have hfree : ¬ middle.HasPath (place b) := by
    rw [hgains.paths]
    rintro (hold | ⟨c, hc, hsame⟩)
    · exact hb hold
    · -- nothing that was taken in before belongs where the second node does
      rw [List.map_append] at hplaces
      exact List.disjoint_of_nodup_append hplaces (List.mem_map_of_mem hc)
        (hsame ▸ List.mem_map_of_mem hback)
  refine ⟨x, y, Nat.le_of_not_lt fun hold => ha ⟨x, hold, ?_⟩, ?_, hy, ?_, hpathy⟩
  · rw [← hpathx, hgains.grows.path_eq hs hgains.sound hold]
  · refine Nat.lt_of_lt_of_le hx (Nat.le_of_not_lt fun hold => hfree ⟨y, hold, ?_⟩)
    rw [← hpathy, hlater.grows.path_eq hgains.sound hlater.sound hold]
  · rw [hlater.grows.path_eq hgains.sound hlater.sound hx, hpathx]

/-! ## What a merge makes of siblings -/

/-- Two siblings have been copied, and the copy of the one stands before that of the other. -/
def CopiedBefore (place : NodeId → List Method) (profile after : Profile α) (a b : NodeId) : Prop :=
  ∃ x y : Nat, profile.tree.size ≤ x ∧ after.path x = place a ∧ after.path y = place b ∧
    after.tree.InOrder x y

/-- How the children of some nodes are ordered when they have been copied. -/
structure ChildrenOrdered (place : NodeId → List Method) (other profile after : Profile α)
    (ids : List NodeId) : Prop where
  /-- Under a node that was there missing children are copied in their order. -/
  kept : ∀ parent a b : NodeId, parent ∈ ids → profile.HasPath (place parent) →
    [a, b].Sublist (other.tree.children parent) → ¬ profile.HasPath (place a) →
      ¬ profile.HasPath (place b) → CopiedBefore place profile after a b
  /-- Under a node that was missing all children are, and their copies are turned around. -/
  turned : ∀ parent a b : NodeId, parent ∈ ids → ¬ profile.HasPath (place parent) →
    [a, b].Sublist (other.tree.children parent) → CopiedBefore place profile after b a

/-- How siblings are ordered when a whole tree has been merged. -/
structure CopiesOrdered (other profile after : Profile α) : Prop
    extends ChildrenOrdered other.path other profile after other.tree.walkAll where
  /-- Missing roots are copied in their order. -/
  roots : ∀ a b : NodeId, [a, b].Sublist other.tree.roots → ¬ profile.HasPath (other.path a) →
    ¬ profile.HasPath (other.path b) → CopiedBefore other.path profile after a b

theorem Steps.copiedBefore (h : Steps place other profile after order) (hs : profile.Sound)
    (hplaces : (order.map place).Nodup) {a b : NodeId} (hab : [a, b].Sublist order)
    (hsiblings : (place a).tail = (place b).tail) (ha : ¬ profile.HasPath (place a))
    (hb : ¬ profile.HasPath (place b)) : CopiedBefore place profile after a b := by
  obtain ⟨x, y, hnew, hlt, hy, hpathx, hpathy⟩ := h.copied_in_turn hs hplaces hab ha hb
  have hsound := h.gains.sound
  refine ⟨x, y, hnew, hpathx, hpathy, hsound.tree.inOrder hlt hy ?_⟩
  rw [hsound.parent?_eq_iff (Nat.lt_trans hlt hy) hy, hpathx, hpathy, hsiblings]

omit [Amount α] in
theorem Sound.hasPath_of_tail (hs : profile.Sound) {path : List Method} (h : profile.HasPath path)
    (hne : path.tail ≠ []) : profile.HasPath path.tail := by
  cases path with
  | nil => exact absurd rfl hne
  | cons method path => exact @Sound.hasPath_of_append _ _ hs _ hne [method] h

/-- Steps that come to children as a merge does order them as a merge does. -/
theorem Steps.childrenOrdered (h : Steps place other profile after order) (hs : profile.Sound)
    (hperm : order.Perm ids) (hplaces : (ids.map place).Nodup)
    (htells : Tells place profile held ids)
    (horder : ∀ parent ∈ ids, (other.tree.childOrder held parent).Sublist order)
    (htails : ∀ parent ∈ ids, ∀ child ∈ other.tree.children parent,
      (place child).tail = place parent) : ChildrenOrdered place other profile after ids := by
  have hdistinct := (hperm.map place).nodup_iff.mpr hplaces
  have hlisted : ∀ parent ∈ ids, ∀ child ∈ other.tree.children parent, child ∈ ids := by
    intro parent hparent child hchild
    refine hperm.mem_iff.mp ((horder parent hparent).subset ?_)
    exact (other.tree.childOrder_perm held parent).mem_iff.mpr hchild
  refine ⟨fun parent a b hparent hheld hab ha hb => ?_, fun parent a b hparent hfree hab => ?_⟩
  · have hmema := hab.subset (show a ∈ [a, b] by simp)
    have hmemb := hab.subset (show b ∈ [a, b] by simp)
    have hmissing := fun child hchild =>
      (htells.missing_iff (hlisted parent hparent child hchild)).mpr
    refine h.copiedBefore hs hdistinct ((CallTree.sublist_childOrder_held
      ((htells parent hparent).mpr hheld) hab (hmissing a hmema ha) (hmissing b hmemb hb)).trans
      (horder parent hparent)) ?_ ha hb
    rw [htails parent hparent a hmema, htails parent hparent b hmemb]
  · have hchildren : ∀ child ∈ [a, b], (place child).tail = place parent :=
      fun child hchild => htails parent hparent child (hab.subset hchild)
    have hne : place parent ≠ [] := by
      obtain ⟨x, hx, hpath⟩ :=
        (h.gains.paths (place parent)).mpr (Or.inr ⟨parent, hperm.mem_iff.mpr hparent, rfl⟩)
      rw [← hpath]
      exact h.gains.sound.path_ne_nil hx
    have hbelow : ∀ child ∈ [a, b], ¬ profile.HasPath (place child) := by
      intro child hchild hpath
      rw [← hchildren child hchild] at hfree hne
      exact hfree (hs.hasPath_of_tail hpath hne)
    refine h.copiedBefore hs hdistinct ((CallTree.sublist_childOrder_missing
      ((htells.missing_iff hparent).mpr hfree) hab).trans (horder parent hparent)) ?_
      (hbelow b (by simp)) (hbelow a (by simp))
    rw [hchildren a (by simp), hchildren b (by simp)]

/-! ## Nodes and trees -/

omit [Amount α] in
theorem Sound.tail_grafted_child (ho : other.Sound) {stem base : List Method} {parent child : Nat}
    (hstem : stem <:+ other.path parent) (hchild : child ∈ other.tree.children parent) :
    (other.grafted stem base child).tail = other.grafted stem base parent := by
  have hunder := ho.tree.branching.parent?_child hchild
  obtain ⟨node, record, -, -, -, hcons⟩ :=
    ho.exists_path_eq (ho.tree.branching.child_lt hchild).2
  have htail := ho.tail_path_child hunder
  obtain ⟨way, hway⟩ := hstem
  rw [hcons, List.tail_cons] at htail
  have hpath : other.path child = (record.method :: way) ++ stem := by
    rw [hcons, htail, ← hway, List.cons_append]
  rw [grafted_eq hpath, grafted_eq hway.symm, List.cons_append, List.tail_cons]

theorem Sound.childrenOrdered_mergeNode (hs : profile.Sound) (ho : other.Sound)
    {target source : Nat} (h : profile.corresponds other target source = true) :
    ChildrenOrdered (other.grafted (other.path source) (profile.path target)) other profile
      (profile.mergeNode other target source).1 (other.tree.walk source) := by
  obtain ⟨-, hsource, -⟩ := (hs.corresponds_iff ho).mp h
  obtain ⟨held, htells⟩ := exists_tells (other.grafted (other.path source) (profile.path target))
    profile (other.tree.walk source)
  have hsize : ∀ x ∈ other.tree.walk source, x < other.tree.size :=
    fun x hx => ((ho.tree.mem_walk hsource).mp hx).1
  have hbelow : ∀ x ∈ other.tree.walk source, other.path source <:+ other.path x :=
    fun x hx => (ho.mem_walk_iff_suffix hsource (hsize x hx)).mp hx
  refine (hs.steps_mergeNode ho h htells).childrenOrdered hs
    (ho.tree.branching.mergeOrder_perm held hsource) ?_ htells
    (fun parent hparent => ho.tree.branching.childOrder_sublist held hsource hparent)
    (fun parent hparent child => ho.tail_grafted_child (hbelow parent hparent))
  refine List.Nodup.map_on (fun x hx y hy hsame => ?_) (ho.tree.branching.nodup_walk hsource)
  exact ho.path_inj (hsize x hx) (hsize y hy) (grafted_inj (hbelow x hx) (hbelow y hy) hsame)

theorem Sound.copiesOrdered_mergeTree (hs : profile.Sound) (ho : other.Sound) :
    CopiesOrdered other profile (profile.mergeTree other) := by
  have hb := ho.tree.branching
  obtain ⟨held, htells⟩ := exists_tells other.path profile other.tree.walkAll
  have hsteps := ho.steps_mergeTree hs htells
  have hperm : (other.tree.roots.flatMap (other.tree.mergeOrder held)).Perm other.tree.walkAll :=
    List.Perm.flatMap_left _ fun root hroot => hb.mergeOrder_perm held (hb.root_lt hroot).1
  have hplaces : (other.tree.walkAll.map other.path).Nodup :=
    List.Nodup.map_on (fun x hx y hy =>
      ho.path_inj (hb.lt_of_mem_walkAll hx) (hb.lt_of_mem_walkAll hy)) hb.nodup_walkAll
  have hchildren := hsteps.childrenOrdered hs hperm hplaces htells
    (fun parent hparent => by
      obtain ⟨root, hroot, hwalk⟩ := List.mem_flatMap.mp hparent
      rw [List.flatMap_def]
      exact (hb.childOrder_sublist held (hb.root_lt hroot).1 hwalk).trans
        (List.infix_of_mem_flatten (List.mem_map_of_mem hroot)).sublist)
    (fun parent _ child hchild => ho.tail_path_child (hb.parent?_child hchild))
  refine ⟨hchildren, fun a b hab ha hb' => ?_⟩
  obtain ⟨hasize, hatop⟩ := hb.root_lt (hab.subset (show a ∈ [a, b] by simp))
  obtain ⟨hbsize, hbtop⟩ := hb.root_lt (hab.subset (show b ∈ [a, b] by simp))
  refine hsteps.copiedBefore hs ((hperm.map other.path).nodup_iff.mpr hplaces)
    (hab.trans (CallTree.sublist_flatMap_heads fun root hroot => ?_))
    ((ho.parent?_eq_iff hasize hbsize).mp (hatop.trans hbtop.symm)) ha hb'
  have hsize := (hb.root_lt hroot).1
  exact (hb.mergeOrder_perm held hsize).mem_iff.mpr (hb.mem_walk_self hsize)

/-! ## Profiles -/

omit [Amount α] in
/-- What is known of copies in one pair of profiles is known in another one that has the same paths
to begin with. -/
theorem CopiesOrdered.imp {former later : Profile α} (h : CopiesOrdered other profile after)
    (hpaths : ∀ path, profile.HasPath path ↔ former.HasPath path)
    (hcopied : ∀ {a b : NodeId}, CopiedBefore other.path profile after a b →
      CopiedBefore other.path former later a b) : CopiesOrdered other former later := by
  refine ⟨⟨?_, ?_⟩, ?_⟩
  · intro parent a b hparent hheld hab ha hb
    rw [← hpaths] at hheld ha hb
    exact hcopied (h.kept parent a b hparent hheld hab ha hb)
  · intro parent a b hparent hfree hab
    rw [← hpaths] at hfree
    exact hcopied (h.turned parent a b hparent hfree hab)
  · intro a b hab ha hb
    rw [← hpaths] at ha hb
    exact hcopied (h.roots a b hab ha hb)

theorem Sound.copiesOrdered_merge (hs : profile.Sound) (ho : other.Sound) :
    CopiesOrdered other profile (profile.merge other) := by
  have hadopts := (hs.merge_halves ho).1
  have hmerged := hadopts.sound.copiesOrdered_mergeTree ho
  rw [Array.foldl_toList] at hadopts hmerged
  refine hmerged.imp (fun path => hadopts.grows.hasPath_iff_of_tree hs hadopts.sound hadopts.tree)
    fun {a b} ⟨x, y, hnew, hcopies⟩ => ⟨x, y, ?_, hcopies⟩
  rw [← hadopts.tree]
  exact hnew

omit [Amount α] in
/-- The order stays when the profile grows. -/
theorem CopiesOrdered.grows (h : CopiesOrdered other profile middle) (hm : middle.Sound)
    (ha : after.Sound) (hgrows : Grows middle after) : CopiesOrdered other profile after := by
  refine h.imp (fun _ => Iff.rfl) fun {a b} ⟨x, y, hnew, hpathx, hpathy, horder⟩ => ?_
  have hy := horder.listed
  have hx := Nat.lt_trans horder.lt hy
  refine ⟨x, y, hnew, ?_, ?_, hgrows.inOrder hm ha horder⟩
  · rw [hgrows.path_eq hm ha hx, hpathx]
  · rw [hgrows.path_eq hm ha hy, hpathy]

theorem Sound.grows_foldl : ∀ {others : List (Profile α)} {profile : Profile α}, profile.Sound →
    (∀ other ∈ others, other.Sound) →
      (others.foldl Profile.merge profile).Sound ∧
        Grows profile (others.foldl Profile.merge profile) := by
  intro others
  induction others with
  | nil => intro profile hs _; exact ⟨hs, Grows.refl _⟩
  | cons other others ih =>
      intro profile hs hothers
      have ho := hothers other List.mem_cons_self
      obtain ⟨hsound, hgrows⟩ :=
        ih (hs.merge ho) fun later hlater => hothers later (List.mem_cons_of_mem _ hlater)
      exact ⟨hsound, (hs.grows_merge ho).trans hgrows⟩

/-- Whatever is merged before and after, a merge orders its copies in the same way. -/
theorem Sound.copiesOrdered_foldl {before later : List (Profile α)} (hs : profile.Sound)
    (ho : other.Sound) (hbefore : ∀ part ∈ before, part.Sound)
    (hlater : ∀ part ∈ later, part.Sound) :
    CopiesOrdered other (before.foldl Profile.merge profile)
      ((before ++ other :: later).foldl Profile.merge profile) := by
  obtain ⟨hmiddle, -⟩ := hs.grows_foldl hbefore
  obtain ⟨hafter, hgrows⟩ := (hmiddle.merge ho).grows_foldl hlater
  rw [List.foldl_append, List.foldl_cons]
  exact (hmiddle.copiesOrdered_merge ho).grows (hmiddle.merge ho) hafter hgrows

end Profile

/-! ## Fibers -/

namespace ContextTable

variable {α : Type} [Amount α] {table : ContextTable α} {thread : UInt64}

theorem get?_foldFibers {first : Nat} {lowest : Context α} {others : List (Handle × Context α)}
    (h : table.fibers thread = (first, lowest) :: others) :
    table.foldFibers.get? first =
      some (others.foldl (fun context other => context.merge other.2) lowest) := by
  refine (within_eq_some.mp ((within_foldFibers thread first _).mpr ?_)).1
  rw [h]
  exact List.mem_cons_self

omit [Amount α] in
/-- Contexts that came in the order of their fibers are folded in the order in which they came. -/
theorem fibers_of_ascending
    (h : table.live.Pairwise fun a b => a.2.key.fiber ≤ b.2.key.fiber) :
    table.fibers thread = table.live.filter fun entry => entry.2.key.thread = thread :=
  List.mergeSort_of_pairwise ((h.filter _).imp fun hle => decide_eq_true hle)

omit [Amount α] in
/-- Two contexts of one thread that came in the order of their fibers. -/
theorem exists_fibers_pair {first second : Handle} {a b : ContextKey}
    (h : table.live.map (fun entry => (entry.1, entry.2.key)) = [(first, a), (second, b)])
    (ha : a.thread = thread) (hb : b.thread = thread) (hle : a.fiber ≤ b.fiber) :
    ∃ lowest fiber, table.get? first = some lowest ∧ table.get? second = some fiber ∧
      table.fibers thread = [(first, lowest), (second, fiber)] := by
  obtain ⟨⟨handle, lowest⟩, rest, hlive, hlow, hrest⟩ := List.map_eq_cons_iff.mp h
  obtain ⟨⟨other, fiber⟩, rest, rfl, hhigh, hnil⟩ := List.map_eq_cons_iff.mp hrest
  obtain ⟨rfl, rfl⟩ := Prod.mk.inj hlow
  obtain ⟨rfl, rfl⟩ := Prod.mk.inj hhigh
  rw [List.map_eq_nil_iff.mp hnil] at hlive
  refine ⟨lowest, fiber, mem_live.mp (by simp [hlive]), mem_live.mp (by simp [hlive]), ?_⟩
  rw [fibers_of_ascending (by simpa [hlive] using hle), hlive]
  simpa using ⟨ha, hb⟩

end ContextTable

namespace Session

variable {α : Type} [Amount α] {session : Session α}

open ContextTable

/-- Every fiber but the lowest of its thread has been merged into what the lower ones came to, and
its copies have been ordered as in any merge. -/
def FibersOrdered (session folded : Session α) : Prop :=
  ∀ (thread : UInt64) (first : Handle) (lowest : Context α) (before : List (Handle × Context α))
    (handle : Handle) (fiber : Context α) (later : List (Handle × Context α)),
    session.contexts.fibers thread = (first, lowest) :: (before ++ (handle, fiber) :: later) →
      ∃ merged, folded.thread first = .ok merged ∧
        Profile.CopiesOrdered fiber.profile
          (before.foldl (fun context other => context.merge other.2) lowest).profile merged.profile

theorem Reachable.fibersOrdered {dumps : Phase → Prop} (h : Reachable dumps session) :
    FibersOrdered session { session with contexts := session.contexts.foldFibers } := by
  intro thread first lowest before handle fiber later hfibers
  obtain ⟨excluded, hlawful⟩ := h.nested
  have hsound : ∀ entry ∈ session.contexts.fibers thread, entry.2.profile.Sound := by
    rintro ⟨handle, context⟩ hentry
    exact (hlawful.contexts _ _ (within_eq_some.mp (mem_fibers.mp hentry)).1).orderly.sound
  rw [hfibers] at hsound
  have hparts : ∀ part ⊆ (first, lowest) :: (before ++ (handle, fiber) :: later),
      ∀ profile ∈ part.map (·.2.profile), profile.Sound := by
    intro part hpart profile hprofile
    obtain ⟨entry, hentry, rfl⟩ := List.mem_map.mp hprofile
    exact hsound entry (hpart hentry)
  refine ⟨_, by rw [Session.thread, get?_foldFibers hfibers], ?_⟩
  rw [foldl_merge_eq, foldl_merge_eq, List.map_append, List.map_cons]
  exact (hsound _ List.mem_cons_self).copiesOrdered_foldl (hsound (handle, fiber) (by simp))
    (hparts before fun _ hmem => by simp [hmem]) (hparts later fun _ hmem => by simp [hmem])

/-- Copies of missing siblings are in their order when the siblings are roots or children of a node
that was there, and turned around when the parent was copied as well. -/
theorem copies_ordered :
    (∀ {profile other : Profile α}, profile.Built → other.Built →
      (∀ target source : NodeId, (profile.mergeNode other target source).2 = true →
        Profile.ChildrenOrdered (other.grafted (other.path source) (profile.path target)) other
          profile (profile.mergeNode other target source).1 (other.tree.walk source)) ∧
      Profile.CopiesOrdered other profile (profile.mergeTree other) ∧
      Profile.CopiesOrdered other profile (profile.merge other)) ∧
    ∀ {dumps : Phase → Prop} {session : Session α}, Reachable dumps session →
      session.phase.isActive = false →
        ∃ folded, session.mergeFibers = .ok folded ∧ FibersOrdered session folded := by
  refine ⟨fun {profile other} h ho => ⟨fun target source hmerged => ?_,
    h.sound.copiesOrdered_mergeTree ho.sound, h.sound.copiesOrdered_merge ho.sound⟩,
    fun hreachable hphase => ⟨_, ?_, hreachable.fibersOrdered⟩⟩
  · refine h.sound.childrenOrdered_mergeNode ho.sound ?_
    rw [Profile.mergeNode] at hmerged
    split at hmerged
    · assumption
    · cases hmerged
  · simp [Session.mergeFibers, hphase]

/-- A caller that both fibers have, and two missing callees of it, of which one calls two more. -/
theorem copies_ordered_two_fibers :
    ∃ (session folded : Session Int) (lowest fiber merged : Context Int),
      (unconfigured : Session Int).run
        [.start 0,
          .event (((Event.call ⟨.owner .plain, "A"⟩ "f").on 1 1).sampled 10),
          .event (((Event.call ⟨.owner .plain, "A"⟩ "a").on 1 1).sampled 20),
          .event (((Event.call ⟨.owner .plain, "A"⟩ "f").on 1 2).sampled 30),
          .event (((Event.call ⟨.owner .plain, "A"⟩ "b").on 1 2).sampled 40),
          .event (((Event.call ⟨.owner .plain, "A"⟩ "c").on 1 2).sampled 50),
          .event ((Event.returned.on 1 2).sampled 60),
          .event (((Event.call ⟨.owner .plain, "A"⟩ "d").on 1 2).sampled 70),
          .event ((Event.returned.on 1 2).sampled 80),
          .event ((Event.returned.on 1 2).sampled 90),
          .event (((Event.call ⟨.owner .plain, "A"⟩ "e").on 1 2).sampled 95),
          .stop 100] = session ∧
      session.phase.isActive = false ∧
      session.contexts.fibers 1 = [(0, lowest), (1, fiber)] ∧
      fiber.profile.tree.children 0 = [1, 4] ∧ fiber.profile.tree.children 1 = [2, 3] ∧
      session.mergeFibers = .ok folded ∧ folded.thread 0 = .ok merged ∧
      (lowest.profile.mergeNode fiber.profile 0 0).2 = true ∧
      Profile.ChildrenOrdered (fiber.profile.grafted (fiber.profile.path 0) (lowest.profile.path 0))
        fiber.profile lowest.profile (lowest.profile.mergeNode fiber.profile 0 0).1
        (fiber.profile.tree.walk 0) ∧
      Profile.CopiedBefore fiber.profile.path lowest.profile merged.profile 1 4 ∧
      Profile.CopiedBefore fiber.profile.path lowest.profile merged.profile 3 2 := by
  generalize hrun : Session.run (α := Int) _ _ = session
  have hphase : session.phase.isActive = false := by
    rw [← hrun]
    decide +kernel
  have hreachable : Reachable (fun _ => True) session :=
    hrun ▸ (reachable_unconfigured _).run _
  have hkeys : session.contexts.live.map (fun entry => (entry.1, entry.2.key)) =
      [(0, ⟨1, 1⟩), (1, ⟨1, 2⟩)] := by
    rw [← hrun]
    decide +kernel
  obtain ⟨lowest, fiber, hlowest, hfiber, hfibers⟩ :=
    exists_fibers_pair hkeys rfl rfl (by decide)
  have hshown : ((session.contexts.get? 0).bind fun lowest =>
      (session.contexts.get? 1).map fun fiber =>
      decide (fiber.profile.tree.children 0 = [1, 4] ∧ fiber.profile.tree.children 1 = [2, 3] ∧
        fiber.profile.tree.walkAll = [0, 1, 2, 3, 4] ∧
        (lowest.profile.mergeNode fiber.profile 0 0).2 = true ∧
        lowest.profile.HasPath (fiber.profile.path 0) ∧
        ¬ lowest.profile.HasPath (fiber.profile.path 1) ∧
        ¬ lowest.profile.HasPath (fiber.profile.path 4))) = some true := by
    rw [← hrun]
    decide +kernel
  rw [hlowest, hfiber] at hshown
  obtain ⟨hchildren, hbelow, hwalk, hsame, hheld, hfree, hlast⟩ :=
    of_decide_eq_true (Option.some.inj hshown)
  obtain ⟨hmerges, hsessions⟩ := copies_ordered (α := Int)
  obtain ⟨folded, hfolded, hordered⟩ := hsessions hreachable hphase
  obtain ⟨merged, hmerged, hcopies⟩ := hordered 1 0 lowest [] 1 fiber [] hfibers
  refine ⟨session, folded, lowest, fiber, merged, rfl, hphase, hfibers, hchildren, hbelow, hfolded,
    hmerged, hsame, ?_, ?_, ?_⟩
  · exact (hmerges (.recorded hreachable hlowest) (.recorded hreachable hfiber)).1 0 0 hsame
  · exact hcopies.kept 0 1 4 (by simp [hwalk]) hheld (by simp [hchildren]) hfree hlast
  · exact hcopies.turned 1 2 3 (by simp [hwalk]) hfree (by simp [hbelow])

/-- The two children of a copied root come out the other way around. -/
theorem copies_turned_around :
    ∃ (session folded : Session Int) (lowest fiber merged : Context Int),
      (unconfigured : Session Int).run
        [.start 0,
          .event (((Event.call ⟨.owner .plain, "A"⟩ "x").on 1 0).sampled 10),
          .event (((Event.call ⟨.owner .plain, "A"⟩ "f").on 1 1).sampled 20),
          .event (((Event.call ⟨.owner .plain, "A"⟩ "b").on 1 1).sampled 30),
          .event ((Event.returned.on 1 1).sampled 40),
          .event (((Event.call ⟨.owner .plain, "A"⟩ "c").on 1 1).sampled 50),
          .stop 60] = session ∧
      session.contexts.fibers 1 = [(0, lowest), (1, fiber)] ∧
      session.mergeFibers = .ok folded ∧ folded.thread 0 = .ok merged ∧
      fiber.profile.tree.children 0 = [1, 2] ∧
      ¬ lowest.profile.HasPath (fiber.profile.path 1) ∧
      ¬ lowest.profile.HasPath (fiber.profile.path 2) ∧
      merged.profile.path 2 = fiber.profile.path 2 ∧
      merged.profile.path 3 = fiber.profile.path 1 ∧
      merged.profile.tree.children 1 = [2, 3] ∧ merged.profile.tree.walkAll = [0, 1, 2, 3] := by
  generalize hrun : Session.run (α := Int) _ _ = session
  have hkeys : session.contexts.live.map (fun entry => (entry.1, entry.2.key)) =
      [(0, ⟨1, 0⟩), (1, ⟨1, 1⟩)] := by
    rw [← hrun]
    decide +kernel
  obtain ⟨lowest, fiber, hlowest, hfiber, hfibers⟩ :=
    exists_fibers_pair hkeys rfl rfl (by decide)
  have hshown : ((session.contexts.get? 0).bind fun lowest =>
      (session.contexts.get? 1).map fun fiber =>
      decide (fiber.profile.tree.children 0 = [1, 2] ∧
        ¬ lowest.profile.HasPath (fiber.profile.path 1) ∧
        ¬ lowest.profile.HasPath (fiber.profile.path 2) ∧
        (lowest.merge fiber).profile.path 2 = fiber.profile.path 2 ∧
        (lowest.merge fiber).profile.path 3 = fiber.profile.path 1 ∧
        (lowest.merge fiber).profile.tree.children 1 = [2, 3] ∧
        (lowest.merge fiber).profile.tree.walkAll = [0, 1, 2, 3])) = some true := by
    rw [← hrun]
    decide +kernel
  rw [hlowest, hfiber] at hshown
  have hphase : session.phase.isActive = false := by
    rw [← hrun]
    decide +kernel
  refine ⟨session, { session with contexts := session.contexts.foldFibers }, lowest, fiber,
    lowest.merge fiber, rfl, hfibers, by simp [Session.mergeFibers, hphase], ?_,
    of_decide_eq_true (Option.some.inj hshown)⟩
  rw [Session.thread, get?_foldFibers hfibers]
  rfl

end Session

end CallLedger
