import CallLedger.Proofs.Paths

/-!
# A walk meets every node once

A walk goes down the links of a tree. What is filed under a node names the node
as its parent (`Branching`), so the nodes that a walk meets have its start among
their ancestors, and it meets each of them once: the children of a node lead to
different parts of the tree, for no node has two ancestors that are siblings
(`Climbing.lineage_apart`). The cut-off at as many levels as there are nodes is
never felt, because a child stands after its parent (`Branching.walk_eq`), and
parents come before their children (`Branching.parentsFirst_walkAll`).

When the links are all that the arena asks for, no node is left out, and the
walks from the roots list the nodes of the tree, in another order
(`Linked.walkAll_perm`).
-/

namespace CallLedger

namespace CallTree

variable {α : Type} {tree : CallTree α}

theorem parent?_eq_some {id parent : Nat} (h : tree.parent? id = some parent) :
    ∃ node, tree.node? id = some node ∧ node.parent = some parent :=
  Option.bind_eq_some_iff.mp h

theorem Climbing.parent?_lt (hl : tree.Climbing) {id parent : Nat}
    (h : tree.parent? id = some parent) : parent < id := by
  obtain ⟨node, hnode, hparent⟩ := parent?_eq_some h
  exact hl.parent_lt hnode hparent

/-- What is filed under a node, or among the roots, names that as its parent,
and is filed once. -/
structure Branching (tree : CallTree α) : Prop extends Climbing tree where
  below : ∀ {parent : Option NodeId} {id : NodeId}, id ∈ (tree.linksOf parent).targets →
    id < tree.size ∧ tree.parent? id = parent
  nodup : ∀ parent, (tree.linksOf parent).targets.Nodup

theorem Branching.parent?_child (hb : tree.Branching) {id child : Nat}
    (h : child ∈ tree.children id) : tree.parent? child = some id := by
  rw [children_eq_targets] at h
  exact (hb.below h).2

theorem Branching.child_lt (hb : tree.Branching) {id child : Nat}
    (h : child ∈ tree.children id) : id < child ∧ child < tree.size := by
  refine ⟨hb.parent?_lt (hb.parent?_child h), ?_⟩
  rw [children_eq_targets] at h
  exact (hb.below h).1

theorem Branching.root_lt (hb : tree.Branching) {root : Nat} (h : root ∈ tree.roots) :
    root < tree.size ∧ tree.parent? root = none :=
  hb.below (show root ∈ (tree.linksOf none).targets from h)

/-- What holds of a node when it holds of its children holds of every node: children stand
behind their parents, and there is an end of them. -/
theorem Branching.children_induction (hb : tree.Branching)
    {motive : (id : Nat) → id < tree.size → Prop}
    (step : ∀ (id : Nat) (hid : id < tree.size),
      (∀ (child : Nat) (hchild : child ∈ tree.children id), motive child (hb.child_lt hchild).2) →
        motive id hid)
    (id : Nat) (hid : id < tree.size) : motive id hid := by
  induction hn : tree.size - id using Nat.strongRecOn generalizing id with
  | ind n ih =>
      refine step id hid fun child hchild => ?_
      have hlt := (hb.child_lt hchild).1
      exact ih (tree.size - child) (by omega) child _ rfl

/-! ## The cut-off is not felt -/

theorem Branching.walkWithin_eq (hb : tree.Branching) :
    ∀ {a b id : Nat}, id < tree.size → tree.size ≤ a + id → tree.size ≤ b + id →
      tree.walkWithin a id = tree.walkWithin b id := by
  intro a
  induction a with
  | zero => intro b id hid ha _; omega
  | succ a ih =>
      intro b id hid ha hbound
      cases b with
      | zero => omega
      | succ b =>
          rw [walkWithin, walkWithin]
          congr 1
          refine List.flatMap_congr fun child hchild => ?_
          obtain ⟨hlt, hsize⟩ := hb.child_lt hchild
          exact ih hsize
            (Nat.le_trans ha (Nat.succ_add_eq_add_succ a id ▸ Nat.add_le_add_left hlt a))
            (Nat.le_trans hbound (Nat.succ_add_eq_add_succ b id ▸ Nat.add_le_add_left hlt b))

/-- A walk with levels enough is the walk. -/
theorem Branching.walkWithin_eq_walk (hb : tree.Branching) {levels id : Nat}
    (hid : id < tree.size) (hlevels : tree.size ≤ levels + id) :
    tree.walkWithin levels id = tree.walk id :=
  hb.walkWithin_eq hid hlevels (Nat.le_add_right _ _)

theorem Branching.walk_eq (hb : tree.Branching) {id : Nat} (hid : id < tree.size) :
    tree.walk id = id :: (tree.children id).flatMap tree.walk := by
  have hstart : tree.size ≤ (tree.size + 1) + id :=
    Nat.le_trans (Nat.le_succ _) (Nat.le_add_right _ _)
  rw [← hb.walkWithin_eq_walk hid hstart, walkWithin]
  rfl

/-! ## What a walk meets -/

theorem Climbing.ancestors_of_parent (hl : tree.Climbing) {id parent : Nat}
    (h : tree.parent? id = some parent) :
    tree.ancestors id = parent :: tree.ancestors parent := by
  obtain ⟨node, hnode, hparent⟩ := parent?_eq_some h
  rw [hl.ancestors_eq hnode, hparent]

theorem Climbing.ancestors_of_root (hl : tree.Climbing) {id : Nat} (hid : id < tree.size)
    (h : tree.parent? id = none) : tree.ancestors id = [] := by
  obtain ⟨node, hnode⟩ := exists_node? hid
  rw [hl.ancestors_eq hnode, ← parent?_eq hnode, h]

/-- The ancestors of a node are the parents on the way to its root. -/
theorem Climbing.mem_ancestors_iff (hl : tree.Climbing) {id : Nat} :
    ∀ {x : Nat}, x < tree.size → (id ∈ tree.ancestors x ↔
      ∃ c ∈ x :: tree.ancestors x, tree.parent? c = some id) := by
  intro x
  induction x using Nat.strongRecOn with
  | ind x ih =>
      intro hx
      cases hparent : tree.parent? x with
      | none =>
          rw [hl.ancestors_of_root hx hparent]
          simp [hparent]
      | some p =>
          have hlt := hl.parent?_lt hparent
          rw [hl.ancestors_of_parent hparent, List.mem_cons, ih p hlt (Nat.lt_trans hlt hx)]
          simp only [List.mem_cons, exists_eq_or_imp, hparent, Option.some.injEq]
          constructor
          · rintro (rfl | h)
            · exact Or.inl rfl
            · exact Or.inr h
          · rintro (rfl | h)
            · exact Or.inl rfl
            · exact Or.inr h

/-- No two siblings, and no two roots, are on the way from a node to its root. -/
theorem Climbing.lineage_apart (hl : tree.Climbing) {a b : Nat} :
    ∀ {x : Nat}, x < tree.size → a ∈ x :: tree.ancestors x → b ∈ x :: tree.ancestors x →
      tree.parent? a = tree.parent? b → a = b := by
  have hself : ∀ {x c : Nat}, x < tree.size → c ∈ tree.ancestors x →
      tree.parent? x = tree.parent? c → False := by
    intro x c hx hc hparent
    have hlt := hl.lt_of_mem_ancestors hc
    cases hp : tree.parent? c with
    | none =>
        rw [hl.ancestors_of_root hx (hparent.trans hp)] at hc
        cases hc
    | some p =>
        rw [hl.ancestors_of_parent (hparent.trans hp), ← hl.ancestors_of_parent hp] at hc
        exact Nat.lt_irrefl _ (hl.lt_of_mem_ancestors hc)
  intro x
  induction x using Nat.strongRecOn with
  | ind x ih =>
      intro hx ha hb hparent
      rcases List.mem_cons.mp ha with rfl | ha
      · rcases List.mem_cons.mp hb with rfl | hb
        · rfl
        · exact (hself hx hb hparent).elim
      · rcases List.mem_cons.mp hb with rfl | hb
        · exact (hself hx ha hparent.symm).elim
        · cases hp : tree.parent? x with
          | none =>
              rw [hl.ancestors_of_root hx hp] at ha
              cases ha
          | some p =>
              have hlt := hl.parent?_lt hp
              rw [hl.ancestors_of_parent hp] at ha hb
              exact ih p hlt (Nat.lt_trans hlt hx) ha hb hparent

/-- What a walk from a node meets has the node on its way to the root. -/
theorem Branching.way_of_mem_walk (hb : tree.Branching) {x id : Nat} (hid : id < tree.size) :
    x ∈ tree.walk id → x < tree.size ∧ id ∈ x :: tree.ancestors x := by
  induction id, hid using hb.children_induction with
  | step id hid ih =>
      intro hx
      rw [hb.walk_eq hid, List.mem_cons, List.mem_flatMap] at hx
      rcases hx with rfl | ⟨child, hmem, hx⟩
      · exact ⟨hid, List.mem_cons_self⟩
      · obtain ⟨hlt, hway⟩ := ih child hmem hx
        exact ⟨hlt, List.mem_cons_of_mem _
          ((hb.mem_ancestors_iff hlt).mpr ⟨child, hway, hb.parent?_child hmem⟩)⟩

theorem Branching.nodup_children (hb : tree.Branching) (id : NodeId) :
    (tree.children id).Nodup := by
  rw [children_eq_targets]
  exact hb.nodup (some id)

/-- Walks from different siblings, or from different roots, meet different
nodes. -/
theorem Branching.nodup_walks (hb : tree.Branching) (parent : Option NodeId)
    (hwalk : ∀ id ∈ (tree.linksOf parent).targets, (tree.walk id).Nodup) :
    ((tree.linksOf parent).targets.flatMap tree.walk).Nodup := by
  refine List.nodup_flatMap.mpr ⟨hwalk, (hb.nodup parent).imp_of_mem fun {a b} ha hb' hne => ?_⟩
  obtain ⟨halt, hap⟩ := hb.below ha
  obtain ⟨hblt, hbp⟩ := hb.below hb'
  intro x hxa hxb
  obtain ⟨hx, hwaya⟩ := hb.way_of_mem_walk halt hxa
  obtain ⟨-, hwayb⟩ := hb.way_of_mem_walk hblt hxb
  exact hne (hb.lineage_apart hx hwaya hwayb (by rw [hap, hbp]))

theorem Branching.nodup_walk (hb : tree.Branching) {id : Nat} (hid : id < tree.size) :
    (tree.walk id).Nodup := by
  induction id, hid using hb.children_induction with
  | step id hid ih =>
      rw [hb.walk_eq hid, List.nodup_cons]
      constructor
      · intro hmem
        obtain ⟨child, hchild, hid'⟩ := List.mem_flatMap.mp hmem
        obtain ⟨hlt, hsize⟩ := hb.child_lt hchild
        obtain ⟨-, hway⟩ := hb.way_of_mem_walk hsize hid'
        rcases List.mem_cons.mp hway with heq | hway
        · exact Nat.lt_irrefl _ (heq ▸ hlt)
        · exact Nat.lt_irrefl _ (Nat.lt_trans hlt (hb.lt_of_mem_ancestors hway))
      · rw [children_eq_targets]
        refine hb.nodup_walks (some id) fun child hchild => ih child ?_
        rw [children_eq_targets]
        exact hchild

theorem Branching.nodup_walkAll (hb : tree.Branching) : tree.walkAll.Nodup :=
  hb.nodup_walks none fun _ hroot => hb.nodup_walk (hb.root_lt hroot).1

theorem Branching.lt_of_mem_walkAll (hb : tree.Branching) {x : Nat} (h : x ∈ tree.walkAll) :
    x < tree.size := by
  obtain ⟨root, hroot, hx⟩ := List.mem_flatMap.mp h
  exact (hb.way_of_mem_walk (hb.root_lt hroot).1 hx).1

/-! ## What a walk goes on to -/

/-- What stands at the heads of lists comes up in their order when they are joined. -/
theorem sublist_flatMap_heads {f : NodeId → List NodeId} : ∀ {ids : List NodeId},
    (∀ id ∈ ids, id ∈ f id) → ids.Sublist (ids.flatMap f) := by
  intro ids
  induction ids with
  | nil => intro _; exact List.Sublist.refl _
  | cons id ids ih =>
      intro h
      have hhead : [id].Sublist (f id) := List.singleton_sublist.mpr (h id List.mem_cons_self)
      exact hhead.append (ih fun later hlater => h later (List.mem_cons_of_mem _ hlater))

theorem Branching.mem_walk_self (hb : tree.Branching) {id : Nat} (hid : id < tree.size) :
    id ∈ tree.walk id := by
  rw [hb.walk_eq hid]
  exact List.mem_cons_self

theorem Branching.children_sublist_walk (hb : tree.Branching) {id : Nat} (hid : id < tree.size) :
    (tree.children id).Sublist (tree.walk id) := by
  rw [hb.walk_eq hid]
  refine (sublist_flatMap_heads fun child hchild => ?_).cons id
  exact hb.mem_walk_self (hb.child_lt hchild).2

/-- A walk that meets a node goes through the walk from there in one piece. -/
theorem Branching.walk_infix (hb : tree.Branching) {x id : Nat} (hid : id < tree.size) :
    x ∈ tree.walk id → tree.walk x <:+: tree.walk id := by
  induction id, hid using hb.children_induction with
  | step id hid ih =>
      intro hx
      rw [hb.walk_eq hid, List.mem_cons, List.mem_flatMap] at hx
      rcases hx with rfl | ⟨child, hchild, hx⟩
      · exact List.infix_refl _
      · rw [hb.walk_eq hid, List.flatMap_def]
        exact List.infix_cons ((ih child hchild hx).trans
          (List.infix_of_mem_flatten (List.mem_map_of_mem hchild)))

theorem Branching.walk_child_infix (hb : tree.Branching) {id child : Nat} (hid : id < tree.size)
    (hchild : child ∈ tree.children id) : tree.walk child <:+: tree.walk id :=
  hb.walk_infix hid ((hb.children_sublist_walk hid).subset hchild)

theorem Branching.walk_infix_walkAll (hb : tree.Branching) {x : Nat} (hx : x ∈ tree.walkAll) :
    tree.walk x <:+: tree.walkAll := by
  obtain ⟨root, hroot, hwalk⟩ := List.mem_flatMap.mp hx
  rw [walkAll, List.flatMap_def]
  exact (hb.walk_infix (hb.root_lt hroot).1 hwalk).trans
    (List.infix_of_mem_flatten (List.mem_map_of_mem hroot))

/-- What is filed under a node that the walks meet is met in the same order. -/
theorem Branching.targets_sublist (hb : tree.Branching) {parent : Option NodeId}
    (hparent : ∀ p : Nat, parent = some p → p ∈ tree.walkAll) :
    (tree.linksOf parent).targets.Sublist tree.walkAll := by
  cases parent with
  | none => exact sublist_flatMap_heads fun root hroot => hb.mem_walk_self (hb.root_lt hroot).1
  | some p =>
      have hp := hparent p rfl
      rw [← children_eq_targets]
      exact (hb.children_sublist_walk (hb.lt_of_mem_walkAll hp)).trans
        (hb.walk_infix_walkAll hp).sublist

/-- A node that a walk meets is its start, or filed under one that it meets. -/
theorem Branching.mem_walk_cases (hb : tree.Branching) {x id : Nat} (hid : id < tree.size) :
    x ∈ tree.walk id → x = id ∨ ∃ y ∈ tree.walk id, x ∈ tree.children y := by
  induction id, hid using hb.children_induction with
  | step id hid ih =>
      intro hx
      rw [hb.walk_eq hid] at hx ⊢
      rcases List.mem_cons.mp hx with rfl | hx
      · exact Or.inl rfl
      · obtain ⟨child, hchild, hx⟩ := List.mem_flatMap.mp hx
        refine Or.inr ?_
        rcases ih child hchild hx with rfl | ⟨y, hy, hxy⟩
        · exact ⟨id, List.mem_cons_self, hchild⟩
        · exact ⟨y, List.mem_cons_of_mem _ (List.mem_flatMap.mpr ⟨child, hchild, hy⟩), hxy⟩

/-- A node that the walks meet is filed under its parent, which they meet as well. -/
theorem Branching.mem_targets_of_mem_walkAll (hb : tree.Branching) {x : Nat}
    (hx : x ∈ tree.walkAll) :
    x ∈ (tree.linksOf (tree.parent? x)).targets ∧
      ∀ p : Nat, tree.parent? x = some p → p ∈ tree.walkAll := by
  obtain ⟨root, hroot, hwalk⟩ := List.mem_flatMap.mp hx
  rcases hb.mem_walk_cases (hb.root_lt hroot).1 hwalk with rfl | ⟨y, hy, hchild⟩
  · rw [(hb.root_lt hroot).2]
    exact ⟨hroot, fun p hp => absurd hp (Option.some_ne_none p).symm⟩
  · rw [hb.parent?_child hchild, ← children_eq_targets]
    refine ⟨hchild, fun p hp => ?_⟩
    cases hp
    exact List.mem_flatMap.mpr ⟨root, hroot, hy⟩

/-! ## Places in an order -/

theorem idxOf?_of_mem {order : List NodeId} (hnodup : order.Nodup) {id : NodeId}
    (h : id ∈ order) : order.idxOf? id = some (order.idxOf id) := by
  have hlt := List.idxOf_lt_length_of_mem h
  refine List.idxOf?_eq_some_iff.mpr ⟨hlt, List.getElem_idxOf hlt, fun j hj heq => ?_⟩
  have hplace := hnodup.idxOf_getElem j (Nat.lt_trans hj hlt)
  rw [heq] at hplace
  exact Nat.ne_of_gt hj hplace

theorem map_idxOf_self {order : List NodeId} (hnodup : order.Nodup) :
    order.map (order.idxOf ·) = List.range order.length := by
  refine List.ext_getElem (by simp) fun i hi _ => ?_
  rw [List.getElem_map, List.getElem_range, hnodup.idxOf_getElem]

/-! ## All nodes -/

theorem Linked.branching (hl : tree.Linked) : tree.Branching where
  toClimbing := hl.toClimbing
  below {parent id} hid := by
    have hfiled : id ∈ (tree.filed parent).targets := by
      cases parent with
      | none =>
          rw [← hl.roots]
          exact hid
      | some p =>
          rw [← children_eq_targets] at hid
          unfold children at hid
          split at hid
          · next node hnode =>
              rw [← hl.links hnode]
              exact hid
          · cases hid
    obtain ⟨node, hnode, hparent⟩ := mem_targets_filed.mp hfiled
    exact ⟨node?_lt hnode, by rw [parent?_eq hnode, hparent]⟩
  nodup parent := by
    cases parent with
    | none =>
        show tree.rootLinks.targets.Nodup
        rw [hl.roots]
        exact nodup_targets_filed tree none
    | some p =>
        rw [← children_eq_targets]
        unfold children
        split
        · next node hnode =>
            show node.links.targets.Nodup
            rw [hl.links hnode]
            exact nodup_targets_filed tree (some p)
        · exact List.nodup_nil

theorem Linked.mem_children (hl : tree.Linked) {id child : Nat} (hid : id < tree.size) :
    child ∈ tree.children id ↔ tree.parent? child = some id := by
  rw [hl.children_eq hid, mem_targets_filed]
  constructor
  · rintro ⟨node, hnode, hparent⟩
    rw [parent?_eq hnode, hparent]
  · exact parent?_eq_some

theorem Linked.mem_roots (hl : tree.Linked) {id : Nat} :
    id ∈ tree.roots ↔ id < tree.size ∧ tree.parent? id = none := by
  rw [hl.roots_eq, mem_targets_filed]
  constructor
  · rintro ⟨node, hnode, hparent⟩
    exact ⟨node?_lt hnode, by rw [parent?_eq hnode, hparent]⟩
  · rintro ⟨hid, hparent⟩
    obtain ⟨node, hnode⟩ := exists_node? hid
    exact ⟨node, hnode, by rw [← parent?_eq hnode, hparent]⟩

/-- A walk from a node meets what has the node on its way to the root. -/
theorem Linked.mem_walk (hl : tree.Linked) {x id : Nat} (hid : id < tree.size) :
    x ∈ tree.walk id ↔ x < tree.size ∧ id ∈ x :: tree.ancestors x := by
  refine ⟨hl.branching.way_of_mem_walk hid, ?_⟩
  induction id, hid using hl.branching.children_induction with
  | step id hid ih =>
      rintro ⟨hlt, hway⟩
      rw [hl.branching.walk_eq hid, List.mem_cons, List.mem_flatMap]
      rcases List.mem_cons.mp hway with rfl | hway
      · exact Or.inl rfl
      · obtain ⟨child, hmem, hparent⟩ := (hl.mem_ancestors_iff hlt).mp hway
        have hchild := (hl.mem_children hid).mpr hparent
        exact Or.inr ⟨child, hchild, ih child hchild ⟨hlt, hmem⟩⟩

theorem Linked.exists_root (hl : tree.Linked) :
    ∀ {x : Nat}, x < tree.size → ∃ root ∈ tree.roots, root ∈ x :: tree.ancestors x := by
  intro x
  induction x using Nat.strongRecOn with
  | ind x ih =>
      intro hx
      cases hparent : tree.parent? x with
      | none => exact ⟨x, hl.mem_roots.mpr ⟨hx, hparent⟩, List.mem_cons_self⟩
      | some p =>
          have hlt := hl.parent?_lt hparent
          obtain ⟨root, hroot, hway⟩ := ih p hlt (Nat.lt_trans hlt hx)
          rw [hl.ancestors_of_parent hparent]
          exact ⟨root, hroot, List.mem_cons_of_mem _ hway⟩

/-- The walks from the roots list every node once. -/
theorem Linked.walkAll_perm (hl : tree.Linked) :
    tree.walkAll.Perm (List.range tree.size) := by
  refine (List.perm_ext_iff_of_nodup hl.branching.nodup_walkAll List.nodup_range).mpr fun x => ?_
  rw [List.mem_range]
  refine ⟨hl.branching.lt_of_mem_walkAll, fun hx => ?_⟩
  obtain ⟨root, hroot, hway⟩ := hl.exists_root hx
  rw [walkAll, List.mem_flatMap]
  exact ⟨root, hroot, (hl.mem_walk (hl.mem_roots.mp hroot).1).mpr ⟨hx, hway⟩⟩

/-! ## Parents first -/

/-- In a list that goes on after others, every node comes after its parent. -/
def ParentsFirst (tree : CallTree α) : (seen : List NodeId) → List NodeId → Prop
  | _, [] => True
  | seen, id :: rest =>
    (∀ parent, tree.parent? id = some parent → parent ∈ seen) ∧
      tree.ParentsFirst (seen ++ [id]) rest

theorem ParentsFirst.append {ids more : List NodeId} :
    ∀ {seen : List NodeId}, tree.ParentsFirst seen ids →
      tree.ParentsFirst (seen ++ ids) more → tree.ParentsFirst seen (ids ++ more) := by
  induction ids with
  | nil =>
      intro seen _ hmore
      rw [List.append_nil] at hmore
      exact hmore
  | cons id ids ih =>
      intro seen h hmore
      refine ⟨h.1, ih h.2 ?_⟩
      rw [List.append_assoc]
      exact hmore

/-- The parent of a node stands in the part of the list before it. -/
theorem ParentsFirst.mem_take {ids : List NodeId} {id parent : Nat}
    (hparent : tree.parent? id = some parent) : ∀ {seen : List NodeId} {i : Nat},
      tree.ParentsFirst seen ids → ids[i]? = some id → parent ∈ seen ++ ids.take i := by
  induction ids with
  | nil => intro seen i _ hi; cases hi
  | cons first rest ih =>
      intro seen i h hi
      cases i with
      | zero =>
          cases hi
          exact List.mem_append_left _ (h.1 parent hparent)
      | succ i =>
          have hlater := ih h.2 hi
          rwa [List.append_assoc] at hlater

theorem parentsFirst_flatMap {starts : List NodeId} (f : NodeId → List NodeId) :
    ∀ {seen : List NodeId}, (∀ id ∈ starts, ∀ {more : List NodeId}, seen ⊆ more →
      tree.ParentsFirst more (f id)) → tree.ParentsFirst seen (starts.flatMap f) := by
  induction starts with
  | nil => intro seen _; trivial
  | cons id starts ih =>
      intro seen h
      refine (h id List.mem_cons_self (List.Subset.refl _)).append (ih ?_)
      intro later hlater more hmore
      exact h later (List.mem_cons_of_mem _ hlater)
        fun x hx => hmore (List.mem_append_left _ hx)

theorem Branching.parentsFirst_walk (hb : tree.Branching) {id : Nat} (hid : id < tree.size) :
    ∀ {seen : List NodeId}, (∀ parent, tree.parent? id = some parent → parent ∈ seen) →
      tree.ParentsFirst seen (tree.walk id) := by
  induction id, hid using hb.children_induction with
  | step id hid ih =>
      intro seen hseen
      rw [hb.walk_eq hid]
      refine ⟨hseen, parentsFirst_flatMap _ fun child hchild more hmore => ?_⟩
      refine ih child hchild fun parent hparent => ?_
      rw [hb.parent?_child hchild, Option.some.injEq] at hparent
      rw [← hparent]
      exact hmore (List.mem_append_right _ (List.mem_singleton_self _))

theorem Branching.parentsFirst_walkAll (hb : tree.Branching) :
    tree.ParentsFirst [] tree.walkAll := by
  refine parentsFirst_flatMap _ fun root hroot more _ => ?_
  obtain ⟨hsize, hnone⟩ := hb.root_lt hroot
  refine hb.parentsFirst_walk hsize fun parent hparent => ?_
  rw [hnone] at hparent
  cases hparent

end CallTree

/-! ## Walks and paths -/

namespace Profile

variable {α : Type} {profile : Profile α}

/-- A walk from a node meets what has a path that goes on from that of the node. -/
theorem Sound.mem_walk_iff_suffix (hs : profile.Sound) {id : Nat} (hid : id < profile.tree.size) :
    ∀ {x : Nat}, x < profile.tree.size →
      (x ∈ profile.tree.walk id ↔ profile.path id <:+ profile.path x) := by
  intro x
  induction x using Nat.strongRecOn with
  | ind x ih =>
      intro hx
      obtain ⟨node, record, hnode, -, -, hpath⟩ := hs.exists_path_eq hx
      have hsame : profile.path id = profile.path x ↔ id = x :=
        ⟨hs.path_inj hid hx, congrArg profile.path⟩
      rw [hs.tree.mem_walk hid, and_iff_right hx, List.mem_cons, hs.tree.ancestors_eq hnode, hpath,
        List.suffix_cons_iff, ← hpath, hsame]
      refine or_congr_right ?_
      cases hparent : node.parent with
      | none =>
          refine iff_of_false List.not_mem_nil fun hsuffix => ?_
          exact hs.path_ne_nil hid (List.suffix_nil.mp hsuffix)
      | some parent =>
          have hlt := hs.tree.parent_lt hnode hparent
          have hsize := Nat.lt_trans hlt hx
          rw [pathTo, ← ih parent hlt hsize, hs.tree.mem_walk hid, and_iff_right hsize]

end Profile

end CallLedger
