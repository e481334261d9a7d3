import CallLedger.Proofs.Filing

/-!
# A profile lists what was listed

A dump lists the nodes that walks from the roots meet, in the order in which
they are met, and names a parent by its place in that order. Loading the list
gives a tree whose nodes stand in this order (`Loaded`). They have different
methods wherever they are siblings, so the new profile is sound, even if the
old one was not.

The siblings of the new tree stand in the order of their positions, and those of
the old one in the order of its links, which is the order in which a walk meets
them. So place by place, the new tree files what the old one files
(`Relisted.targets_eq`), a walk of the new one is a walk of the old one place by
place (`Relisted.walk_eq`), and the walks from the roots meet the new nodes in the
order of their positions. They are listed as they were.
-/

namespace CallLedger

variable {α : Type}

/-! ## Lists of nodes -/

/-- A node as a dump lists it when every node keeps its position. -/
def Node.listed (node : Node α) : DumpedNode α where
  method := node.method
  parent := node.parent
  measurement := node.measurement
  site := node.site

namespace CallTree

def listed (tree : CallTree α) : List (DumpedNode α) := tree.nodes.toList.map Node.listed

theorem listed_getElem? {tree : CallTree α} {id : Nat} :
    tree.listed[id]? = (tree.node? id).map Node.listed := by
  unfold listed node?
  rw [List.getElem?_map, Array.getElem?_toList]

theorem length_listed {tree : CallTree α} : tree.listed.length = tree.size := by
  unfold listed size
  rw [List.length_map, Array.length_toList]

theorem listed_link {tree : CallTree α} {node : Node α}
    (hparent : ∀ p : Nat, node.parent = some p → p < tree.size) :
    (tree.link node).listed = tree.listed ++ [node.listed] := by
  refine List.ext_getElem? fun i => ?_
  rw [listed_getElem?, node?_link hparent, List.getElem?_append, length_listed, listed_getElem?]
  rcases Nat.lt_trichotomy i tree.size with hlt | rfl | hgt
  · rw [if_neg (Nat.ne_of_lt hlt), if_pos hlt]
    split
    · rw [Option.map_map]
      rfl
    · rfl
  · rw [if_pos rfl, if_neg (Nat.lt_irrefl _), Nat.sub_self]
    rfl
  · have hnone : tree.node? i = none := node?_eq_none (Nat.le_of_lt hgt)
    have hbehind : [node.listed].length ≤ i - tree.size := Nat.sub_pos_of_lt hgt
    rw [if_neg (Nat.ne_of_gt hgt), if_neg (Nat.lt_asymm hgt), hnone, Option.map_none, ite_self,
      List.getElem?_eq_none hbehind]
    rfl

/-- Measuring the last node. -/
theorem listed_modify_last {tree : CallTree α} {nodes : List (DumpedNode α)}
    {last : DumpedNode α} (h : tree.listed = nodes ++ [last]) (measurement : Measurement α) :
    (tree.modify nodes.length ({ · with measurement := measurement })).listed =
      nodes ++ [{ last with measurement := measurement }] := by
  refine List.ext_getElem? fun i => ?_
  have hi : (nodes ++ [last])[i]? = (tree.node? i).map Node.listed := by
    rw [← h, listed_getElem?]
  rw [listed_getElem?, node?_modify]
  split
  · next heq =>
      rw [← heq] at hi ⊢
      rw [List.getElem?_concat_length] at hi ⊢
      obtain ⟨node, hnode, rfl⟩ := Option.map_eq_some_iff.mp hi.symm
      rw [hnode]
      rfl
  · next hne =>
      rw [← hi, List.getElem?_append, List.getElem?_append]
      split
      · rfl
      · have hbehind : 1 ≤ i - nodes.length := by omega
        rw [List.getElem?_eq_none hbehind, List.getElem?_eq_none hbehind]

end CallTree

/-- A list of nodes that can be loaded after so many methods: every node comes after its
parent, and no two siblings have one method. -/
structure Loadable (known : Nat) (nodes : List (DumpedNode α)) : Prop where
  method_lt : ∀ {i : Nat} {node : DumpedNode α}, nodes[i]? = some node → node.method < known
  parent_lt : ∀ {i p : Nat} {node : DumpedNode α}, nodes[i]? = some node →
    node.parent = some p → p < i
  apart : ∀ {i j : Nat} {a b : DumpedNode α}, nodes[i]? = some a → nodes[j]? = some b →
    a.parent = b.parent → a.method = b.method → i = j

theorem Loadable.of_append {known : Nat} {nodes more : List (DumpedNode α)}
    (h : Loadable known (nodes ++ more)) : Loadable known nodes := by
  have hget : ∀ {i : Nat} {node : DumpedNode α}, nodes[i]? = some node →
      (nodes ++ more)[i]? = some node := by
    intro i node hi
    rw [List.getElem?_append_left (List.getElem?_eq_some_iff.mp hi).1, hi]
  exact ⟨fun hi => h.method_lt (hget hi), fun hi => h.parent_lt (hget hi),
    fun hi hj => h.apart (hget hi) (hget hj)⟩

/-! ## Loading nodes -/

theorem Registry.map_listed_modify {methods : Registry α} {id : Nat}
    {change : MethodRecord α → MethodRecord α}
    (h : ∀ record, DumpedMethod.ofRecord (change record) = DumpedMethod.ofRecord record) :
    (methods.modify id change).records.toList.map DumpedMethod.ofRecord =
      methods.records.toList.map DumpedMethod.ofRecord := by
  refine List.ext_getElem? fun i => ?_
  rw [List.getElem?_map, List.getElem?_map, Array.getElem?_toList, Array.getElem?_toList]
  show ((methods.modify id change).record? i).map _ = (methods.record? i).map _
  rw [Registry.record?_modify]
  split
  · rw [Option.map_map]
    congr 1
    funext record
    exact h record
  · rfl

namespace Profile

variable {profile : Profile α}

/-- Every node that is met is listed in its place. -/
theorem map_some_dumpNodes (hb : profile.tree.Branching) :
    profile.dumpNodes.map some = profile.tree.walkAll.map fun id =>
      (profile.tree.node? id).map (.ofNode profile.tree.walkAll) := by
  unfold dumpNodes
  have hall : ∀ id ∈ profile.tree.walkAll, ∃ node, profile.tree.node? id = some node :=
    fun id hid => CallTree.exists_node? (hb.lt_of_mem_walkAll hid)
  simp only []
  generalize DumpedNode.ofNode profile.tree.walkAll = list
  generalize profile.tree.walkAll = order at hall ⊢
  induction order with
  | nil => rfl
  | cons id rest ih =>
      obtain ⟨node, hnode⟩ := hall id List.mem_cons_self
      rw [List.filterMap_cons, List.map_cons, hnode]
      simp only [Option.map_some, List.map_cons]
      rw [ih fun later hlater => hall later (List.mem_cons_of_mem _ hlater)]

theorem length_dumpNodes (hb : profile.tree.Branching) :
    profile.dumpNodes.length = profile.tree.walkAll.length := by
  have hlength := congrArg List.length (map_some_dumpNodes hb)
  rwa [List.length_map, List.length_map] at hlength

theorem dumpNodes_getElem? (hb : profile.tree.Branching) (i : Nat) :
    profile.dumpNodes[i]? = profile.tree.walkAll[i]?.bind fun id =>
      (profile.tree.node? id).map (.ofNode profile.tree.walkAll) := by
  have hget := congrArg (·[i]?) (map_some_dumpNodes hb)
  simp only [List.getElem?_map] at hget
  cases hid : profile.tree.walkAll[i]? with
  | none =>
      rw [hid] at hget
      exact Option.map_eq_none_iff.mp hget
  | some id =>
      rw [hid, Option.map_some] at hget
      obtain ⟨dumped, hdumped, heq⟩ := Option.map_eq_some_iff.mp hget
      rw [hdumped, heq]
      rfl

/-- A registry with a node for every listed one. -/
structure Loaded (methods : Registry α) (nodes : List (DumpedNode α)) (after : Profile α) :
    Prop where
  sound : after.Sound
  names : after.methods.names = methods.names
  records : after.methods.records.toList.map DumpedMethod.ofRecord =
    methods.records.toList.map DumpedMethod.ofRecord
  listed : after.tree.listed = nodes

variable {methods : Registry α} {ids : Array MethodId}

/-- A node that can be listed next has no sibling of its method yet. -/
theorem Loaded.childOf?_eq_none {current : Profile α} {nodes : List (DumpedNode α)}
    {node : DumpedNode α} (h : Loaded methods nodes current)
    (hloadable : Loadable methods.size (nodes ++ [node])) {record : MethodRecord α}
    (hrecord : current.methods.record? node.method = some record)
    (hparent : current.HasParent node.parent) :
    current.tree.childOf? node.parent record.key = none := by
  cases hchild : current.tree.childOf? node.parent record.key with
  | none => rfl
  | some id =>
      obtain ⟨found, hfound, hp, hkey⟩ := (h.sound.childOf?_eq_some_iff hparent).mp hchild
      obtain ⟨other, hother, hotherKey⟩ := h.sound.bound hfound
      have hmethod := h.sound.methods.key_inj hother hrecord (hotherKey.trans hkey)
      have hlt : id < nodes.length := by
        rw [← h.listed, CallTree.length_listed]
        exact CallTree.node?_lt hfound
      have hlisted : (nodes ++ [node])[id]? = some found.listed := by
        rw [List.getElem?_append_left hlt, ← h.listed, CallTree.listed_getElem?, hfound]
        rfl
      have hsame := hloadable.apart hlisted List.getElem?_concat_length hp hmethod
      exact absurd hsame (Nat.ne_of_lt hlt)

variable [Amount α]

/-- The profile with a listed node in the next place. -/
def placed (profile : Profile α) (method : MethodId) (node : DumpedNode α) : Profile α :=
  (profile.attach node.parent method node.site).modifyNode profile.tree.size
    ({ · with measurement := node.measurement })

/-- A node is taken when its method is listed and its parent stands before it. -/
theorem loadNode_eq_ok {after : Profile α} {node : DumpedNode α} :
    loadNode ids profile node = .ok after ↔
      ∃ method, ids[node.method]? = some method ∧ profile.HasParent node.parent ∧
        profile.placed method node = after := by
  unfold loadNode
  cases hmethod : ids[node.method]? with
  | none => exact iff_of_false nofun (by simp)
  | some method =>
      cases hp : node.parent with
      | none =>
          have hplaced : profile.placed method node = (profile.attach none method
              node.site).modifyNode profile.tree.size
                ({ · with measurement := node.measurement }) := by
            rw [placed, hp]
          simp [hplaced, hasParent_none]
      | some p =>
          have hplaced : profile.placed method node = (profile.attach (some p) method
              node.site).modifyNode profile.tree.size
                ({ · with measurement := node.measurement }) := by
            rw [placed, hp]
          have hhas : profile.HasParent (some p) ↔ p < profile.tree.size :=
            ⟨fun h => h p rfl, hasParent_some⟩
          simp only [Option.some.injEq, hhas, hplaced, exists_eq_left']
          split
          · next hlt => simp [hlt]
          · next hge => simp [hge]

/-- What taking a node keeps, taking a list of nodes keeps. -/
theorem ofDump_keeps {listed : List (DumpedMethod α)}
    (law : List (DumpedNode α) → Profile α → Prop)
    (hempty : law [] ⟨(Registry.ofDump listed).1, .empty⟩)
    (hstep : ∀ {nodes : List (DumpedNode α)} {node : DumpedNode α} {current next : Profile α},
      law nodes current → loadNode (Registry.ofDump listed).2 current node = .ok next →
        law (nodes ++ [node]) next)
    {nodes : List (DumpedNode α)} {after : Profile α} (h : ofDump listed nodes = .ok after) :
    law nodes after := by
  have hfold : ∀ {rest done : List (DumpedNode α)} {current : Profile α}, law done current →
      rest.foldlM (loadNode (Registry.ofDump listed).2) current = .ok after →
        law (done ++ rest) after := by
    intro rest
    induction rest with
    | nil =>
        intro done current h hload
        cases hload
        rw [List.append_nil]
        exact h
    | cons node rest ih =>
        intro done current h hload
        rw [List.foldlM_cons] at hload
        cases hnext : loadNode (Registry.ofDump listed).2 current node with
        | error error =>
            rw [hnext] at hload
            cases hload
        | ok next =>
            rw [hnext] at hload
            rw [List.append_cons]
            exact ih (hstep h hnext) hload
  exact hfold hempty h

theorem sameShape_placed (profile : Profile α) (method : MethodId) (node : DumpedNode α) :
    SameShape (profile.attach node.parent method node.site) (profile.placed method node) :=
  sameShape_modifyNode (fun _ => rfl) fun _ => rfl

variable {method : MethodId} {record : MethodRecord α} {node : DumpedNode α}

theorem names_placed (hrecord : profile.methods.record? method = some record) :
    (profile.placed method node).methods.names = profile.methods.names := by
  rw [(sameShape_placed profile method node).names, attach_of_record hrecord]
  exact names_push_node

theorem records_placed (hrecord : profile.methods.record? method = some record) :
    (profile.placed method node).methods.records.toList.map DumpedMethod.ofRecord =
      profile.methods.records.toList.map DumpedMethod.ofRecord := by
  show (profile.attach _ _ _).methods.records.toList.map _ = _
  rw [attach_of_record hrecord]
  exact Registry.map_listed_modify fun _ => rfl

theorem listed_placed (hrecord : profile.methods.record? method = some record)
    (hparent : profile.HasParent node.parent) :
    (profile.placed method node).tree.listed =
      profile.tree.listed ++ [{ node with method := method }] := by
  have hlinked := CallTree.listed_link (hparent.fresh method record.key node.site)
  rw [placed, attach_of_record hrecord, ← CallTree.length_listed]
  exact CallTree.listed_modify_last hlinked node.measurement

omit [Amount α] in
/-- The parent of a node that can be listed next has been loaded. -/
theorem Loaded.hasParent {current : Profile α} {nodes : List (DumpedNode α)}
    (h : Loaded methods nodes current) (hloadable : Loadable methods.size (nodes ++ [node])) :
    current.HasParent node.parent := by
  intro p hp
  rw [← CallTree.length_listed, h.listed]
  exact hloadable.parent_lt List.getElem?_concat_length hp

theorem Loaded.placed {current : Profile α} {nodes : List (DumpedNode α)} {node : DumpedNode α}
    (h : Loaded methods nodes current) (hloadable : Loadable methods.size (nodes ++ [node])) :
    Loaded methods (nodes ++ [node]) (current.placed node.method node) := by
  have hmethod := hloadable.method_lt List.getElem?_concat_length
  have hparent := h.hasParent hloadable
  obtain ⟨record, hrecord⟩ := Registry.exists_record?
    (show node.method < current.methods.size by
      rw [← Registry.size_names, h.names, Registry.size_names]
      exact hmethod)
  have hnew := h.childOf?_eq_none hloadable hrecord hparent
  refine ⟨(h.sound.attach node.site hrecord hparent hnew).of_shape (sameShape_placed _ _ _),
    (names_placed hrecord).trans h.names, (records_placed hrecord).trans h.records, ?_⟩
  rw [listed_placed hrecord hparent, h.listed]

theorem Loaded.loadNode {current : Profile α} {nodes : List (DumpedNode α)}
    {node : DumpedNode α} (h : Loaded methods nodes current)
    (hids : ∀ {i : Nat}, i < methods.size → ids[i]? = some i)
    (hloadable : Loadable methods.size (nodes ++ [node])) :
    ∃ after, loadNode ids current node = .ok after ∧ Loaded methods (nodes ++ [node]) after := by
  have hmethod := hids (hloadable.method_lt List.getElem?_concat_length)
  exact ⟨_, loadNode_eq_ok.mpr ⟨node.method, hmethod, h.hasParent hloadable, rfl⟩,
    h.placed hloadable⟩

theorem Loaded.foldlM_loadNode (hids : ∀ {i : Nat}, i < methods.size → ids[i]? = some i) :
    ∀ {rest nodes : List (DumpedNode α)} {current : Profile α},
      Loaded methods nodes current → Loadable methods.size (nodes ++ rest) →
      ∃ after, rest.foldlM (Profile.loadNode ids) current = .ok after ∧
        Loaded methods (nodes ++ rest) after := by
  intro rest
  induction rest with
  | nil =>
      intro nodes current h _
      rw [List.append_nil]
      exact ⟨current, rfl, h⟩
  | cons node rest ih =>
      intro nodes current h hloadable
      rw [List.append_cons] at hloadable ⊢
      obtain ⟨next, hload, hnext⟩ := h.loadNode hids hloadable.of_append
      rw [List.foldlM_cons, hload]
      exact ih hnext hloadable

/-! ## The list of a profile in good order -/

theorem dumpNodes_eq_some (h : profile.Filed) {i : Nat} {dumped : DumpedNode α}
    (hi : profile.dumpNodes[i]? = some dumped) :
    ∃ id node, profile.tree.walkAll[i]? = some id ∧ profile.tree.node? id = some node ∧
      .ofNode profile.tree.walkAll node = dumped := by
  rw [dumpNodes_getElem? h.tree.branching] at hi
  obtain ⟨id, hid, hmap⟩ := Option.bind_eq_some_iff.mp hi
  obtain ⟨node, hnode, heq⟩ := Option.map_eq_some_iff.mp hmap
  exact ⟨id, node, hid, hnode, heq⟩

/-- A parent is listed before its children. -/
theorem idxOf_parent_lt (h : profile.Filed) {i id p : Nat}
    (hi : profile.tree.walkAll[i]? = some id) (hp : profile.tree.parent? id = some p) :
    profile.tree.walkAll.idxOf p < i := by
  have hmem := h.tree.branching.parentsFirst_walkAll.mem_take hp hi
  rw [List.nil_append] at hmem
  obtain ⟨j, hj, rfl⟩ := List.mem_take_iff_getElem.mp hmem
  rw [h.tree.branching.nodup_walkAll.idxOf_getElem]
  omega

theorem map_idxOf_inj {order : List NodeId} {a b : Option NodeId}
    (ha : ∀ p : Nat, a = some p → p ∈ order)
    (h : a.map (order.idxOf ·) = b.map (order.idxOf ·)) : a = b := by
  cases a with
  | none => exact (Option.map_eq_none_iff.mp h.symm).symm
  | some p =>
      obtain ⟨q, rfl, hq⟩ := Option.map_eq_some_iff.mp h.symm
      rw [(List.idxOf_inj (ha p rfl)).mp hq.symm]

/-- What a dump lists as the parent of a node that is met. -/
theorem ofNode_parent (h : profile.Filed) {id : Nat} {node : Node α}
    (hid : id ∈ profile.tree.walkAll) (hnode : profile.tree.node? id = some node) :
    (DumpedNode.ofNode profile.tree.walkAll node).parent =
      node.parent.map (profile.tree.walkAll.idxOf ·) := by
  show node.parent.bind _ = _
  cases hp : node.parent with
  | none => rfl
  | some p =>
      have hmet := (h.tree.branching.mem_targets_of_mem_walkAll hid).2 p
        (by rw [CallTree.parent?_eq hnode, hp])
      exact CallTree.idxOf?_of_mem h.tree.branching.nodup_walkAll hmet

theorem loadable_dumpNodes (h : profile.Filed) :
    Loadable profile.methods.size profile.dumpNodes where
  method_lt hi := by
    obtain ⟨id, node, -, hnode, rfl⟩ := dumpNodes_eq_some h hi
    obtain ⟨record, hrecord, -⟩ := h.bound hnode
    exact Registry.record?_lt hrecord
  parent_lt {i p dumped} hi hp := by
    obtain ⟨id, node, hid, hnode, rfl⟩ := dumpNodes_eq_some h hi
    rw [ofNode_parent h (List.mem_of_getElem? hid) hnode] at hp
    obtain ⟨parent, hparent, rfl⟩ := Option.map_eq_some_iff.mp hp
    exact idxOf_parent_lt h hid (by rw [CallTree.parent?_eq hnode, hparent])
  apart {i j a b} hi hj hparent hmethod := by
    obtain ⟨x, nodeX, hx, hnodeX, rfl⟩ := dumpNodes_eq_some h hi
    obtain ⟨y, nodeY, hy, hnodeY, rfl⟩ := dumpNodes_eq_some h hj
    have hmetX := List.mem_of_getElem? hx
    have hmetY := List.mem_of_getElem? hy
    rw [ofNode_parent h hmetX hnodeX, ofNode_parent h hmetY hnodeY] at hparent
    obtain ⟨hfiledX, hupX⟩ := h.tree.branching.mem_targets_of_mem_walkAll hmetX
    obtain ⟨hfiledY, hupY⟩ := h.tree.branching.mem_targets_of_mem_walkAll hmetY
    rw [CallTree.parent?_eq hnodeX] at hfiledX hupX
    rw [CallTree.parent?_eq hnodeY] at hfiledY hupY
    have hsame : nodeX.parent = nodeY.parent :=
      map_idxOf_inj hupX hparent
    obtain ⟨record, hrecord, hkeyX⟩ := h.bound hnodeX
    obtain ⟨other, hother, hkeyY⟩ := h.bound hnodeY
    rw [show nodeX.method = nodeY.method from hmethod, hother] at hrecord
    cases hrecord
    rw [← hsame] at hfiledY
    have hid := h.tree.target_inj hfiledX hfiledY hnodeX hnodeY (hkeyX.symm.trans hkeyY)
    rw [← hid] at hy
    exact (List.getElem?_inj (List.getElem?_eq_some_iff.mp hx).1
      h.tree.branching.nodup_walkAll).mp (hx.trans hy.symm)

/-! ## The list of what was loaded -/

variable {after : Profile α}

/-- The node at a place of the list stands for the one that was listed there. -/
theorem Loaded.parent?_idxOf (hl : Loaded methods profile.dumpNodes after) (h : profile.Filed)
    {id : Nat} (hid : id ∈ profile.tree.walkAll) :
    after.tree.parent? (profile.tree.walkAll.idxOf id) =
      (profile.tree.parent? id).map (profile.tree.walkAll.idxOf ·) := by
  obtain ⟨node, hnode⟩ := CallTree.exists_node? (h.tree.branching.lt_of_mem_walkAll hid)
  have hplace : profile.tree.walkAll[profile.tree.walkAll.idxOf id]? = some id :=
    List.getElem?_idxOf hid
  have hlisted : after.tree.listed[profile.tree.walkAll.idxOf id]? =
      some (.ofNode profile.tree.walkAll node) := by
    rw [hl.listed, dumpNodes_getElem? h.tree.branching, hplace, Option.bind_some, hnode]
    rfl
  rw [CallTree.listed_getElem?] at hlisted
  obtain ⟨found, hfound, heq⟩ := Option.map_eq_some_iff.mp hlisted
  rw [CallTree.parent?_eq hfound, CallTree.parent?_eq hnode, ← ofNode_parent h hid hnode, ← heq]
  rfl

theorem Loaded.size_eq (hl : Loaded methods profile.dumpNodes after) (h : profile.Filed) :
    after.tree.size = profile.tree.walkAll.length := by
  rw [← CallTree.length_listed, hl.listed, length_dumpNodes h.tree.branching]

/-- Place by place, the new tree files what the old one files, in the same order. -/
theorem Loaded.targets_eq (hl : Loaded methods profile.dumpNodes after) (h : profile.Filed)
    (parent : Option NodeId) (hparent : ∀ p : Nat, parent = some p → p ∈ profile.tree.walkAll) :
    (after.tree.linksOf (parent.map (profile.tree.walkAll.idxOf ·))).targets =
      (profile.tree.linksOf parent).targets.map (profile.tree.walkAll.idxOf ·) := by
  have hb := h.tree.branching
  have hplaces : ∀ p : Nat, parent.map (profile.tree.walkAll.idxOf ·) = some p →
      p < after.tree.size := by
    intro p hp
    obtain ⟨id, hid, rfl⟩ := Option.map_eq_some_iff.mp hp
    rw [hl.size_eq h]
    exact List.idxOf_lt_length_of_mem (hparent id hid)
  have hold : ((profile.tree.linksOf parent).targets.map
      (profile.tree.walkAll.idxOf ·)).Pairwise (· < ·) := by
    have hsub := (hb.targets_sublist hparent).map (profile.tree.walkAll.idxOf ·)
    rw [CallTree.map_idxOf_self hb.nodup_walkAll] at hsub
    exact List.pairwise_lt_range.sublist hsub
  have hnew : (after.tree.linksOf (parent.map
      (profile.tree.walkAll.idxOf ·))).targets.Pairwise (· < ·) := by
    rw [hl.sound.tree.linksOf_eq hplaces, CallTree.targets_filed]
    exact List.pairwise_lt_range.filter _
  refine List.Perm.eq_of_pairwise (fun a b _ _ hab hba => absurd hba (Nat.lt_asymm hab)) hnew hold
    ((List.perm_ext_iff_of_nodup (hnew.imp Nat.ne_of_lt) (hold.imp Nat.ne_of_lt)).mpr fun i => ?_)
  rw [List.mem_map, hl.sound.tree.linksOf_eq hplaces, CallTree.mem_targets_filed]
  constructor
  · rintro ⟨found, hfound, hp⟩
    have hi := CallTree.node?_lt hfound
    rw [hl.size_eq h] at hi
    have hmet := List.getElem_mem hi
    have hplace := hb.nodup_walkAll.idxOf_getElem i hi
    have hup := hl.parent?_idxOf h hmet
    rw [hplace, CallTree.parent?_eq hfound, hp] at hup
    obtain ⟨hfiled, -⟩ := hb.mem_targets_of_mem_walkAll hmet
    rw [← map_idxOf_inj hparent hup] at hfiled
    exact ⟨_, hfiled, hplace⟩
  · rintro ⟨id, hid, rfl⟩
    have hmet := (hb.targets_sublist hparent).subset hid
    have hlt : profile.tree.walkAll.idxOf id < after.tree.size := by
      rw [hl.size_eq h]
      exact List.idxOf_lt_length_of_mem hmet
    obtain ⟨found, hfound⟩ := CallTree.exists_node? hlt
    refine ⟨found, hfound, ?_⟩
    rw [← CallTree.parent?_eq hfound, hl.parent?_idxOf h hmet, (hb.below hid).2]

theorem Loaded.walk_eq (hl : Loaded methods profile.dumpNodes after) (h : profile.Filed)
    {id : Nat} (hid : id < profile.tree.size) : id ∈ profile.tree.walkAll →
    after.tree.walk (profile.tree.walkAll.idxOf id) =
      (profile.tree.walk id).map (profile.tree.walkAll.idxOf ·) := by
  induction id, hid using h.tree.branching.children_induction with
  | step id hid ih =>
    intro hmet
    have hlt : profile.tree.walkAll.idxOf id < after.tree.size := by
      rw [hl.size_eq h]
      exact List.idxOf_lt_length_of_mem hmet
    have hparent : ∀ p : Nat, some id = some p → p ∈ profile.tree.walkAll := by
      intro p hp
      cases hp
      exact hmet
    have hchildren : after.tree.children (profile.tree.walkAll.idxOf id) =
        (profile.tree.children id).map (profile.tree.walkAll.idxOf ·) := by
      rw [CallTree.children_eq_targets, CallTree.children_eq_targets]
      exact hl.targets_eq h (some id) hparent
    rw [hl.sound.tree.branching.walk_eq hlt, h.tree.branching.walk_eq hid, hchildren,
      List.map_cons, List.flatMap_map, List.map_flatMap]
    congr 1
    refine List.flatMap_congr fun child hchild => ih child hchild ?_
    rw [CallTree.children_eq_targets] at hchild
    exact (h.tree.branching.targets_sublist hparent).subset hchild

/-- The walks of the new tree meet its nodes in the order of their positions. -/
theorem Loaded.walkAll_eq (hl : Loaded methods profile.dumpNodes after) (h : profile.Filed) :
    after.tree.walkAll = List.range after.tree.size := by
  have hroots : after.tree.roots = profile.tree.roots.map (profile.tree.walkAll.idxOf ·) :=
    hl.targets_eq h none fun p hp => absurd hp (Option.some_ne_none p).symm
  rw [hl.size_eq h, ← CallTree.map_idxOf_self h.tree.branching.nodup_walkAll, CallTree.walkAll,
    hroots, List.flatMap_map]
  show _ = (profile.tree.roots.flatMap profile.tree.walk).map _
  rw [List.map_flatMap]
  refine List.flatMap_congr fun root hroot => ?_
  refine hl.walk_eq h (h.tree.branching.root_lt hroot).1 ?_
  exact List.mem_flatMap.mpr
    ⟨root, hroot, h.tree.branching.mem_walk_self (h.tree.branching.root_lt hroot).1⟩

/-- What was loaded is listed as it was. -/
theorem Loaded.dumpNodes_eq (hl : Loaded methods profile.dumpNodes after) (h : profile.Filed) :
    after.dumpNodes = profile.dumpNodes := by
  have hplace : ∀ {p : Nat}, p < after.tree.size →
      (List.range after.tree.size).idxOf? p = some p := by
    intro p hp
    refine List.idxOf?_eq_some_iff.mpr ⟨by simpa using hp, List.getElem_range _, fun j hj heq => ?_⟩
    rw [List.getElem_range] at heq
    exact Nat.ne_of_lt hj heq
  refine List.ext_getElem? fun i => ?_
  rw [dumpNodes_getElem? hl.sound.tree.branching, hl.walkAll_eq h, ← hl.listed,
    CallTree.listed_getElem?]
  rcases Nat.lt_or_ge i after.tree.size with hi | hi
  · obtain ⟨node, hnode⟩ := CallTree.exists_node? hi
    have hparent : (node.parent.bind fun p => (List.range after.tree.size).idxOf? p) =
        node.parent := by
      cases hp : node.parent with
      | none => rfl
      | some p => exact hplace (Nat.lt_trans (hl.sound.tree.parent_lt hnode hp) hi)
    rw [List.getElem?_range hi, Option.bind_some, hnode]
    simp only [Option.map_some, DumpedNode.ofNode, Node.listed, hparent]
  · rw [List.getElem?_eq_none (by simpa using hi), CallTree.node?_eq_none hi]
    rfl

end Profile

end CallLedger
