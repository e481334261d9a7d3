import Mathlib.Data.List.Range
import CallLedger.CallTree.Basic

/-!
# Nodes by position

A call tree is an arena of nodes and, on top of it, links that file nodes under
keys. This file is about the arena alone: which node stands where after a
change, and what the links would have to be for the arena to be right. A node
ought to file exactly the nodes that name it as their parent, in the order of
their positions, and the tree those that name none (`filed`); a method ought to
list the nodes that are bound to it (`boundTo`). Both are read off the origins
of the nodes, the part of a node that never changes.
-/

namespace CallLedger

/-! ## Links -/

namespace Links

variable {κ : Type} [DecidableEq κ]

theorem mem_of_get? {links : Links κ} {key : κ} {target : Nat}
    (h : links.get? key = some target) : (key, target) ∈ links.entries := by
  obtain ⟨entry, hfind, rfl⟩ := Option.map_eq_some_iff.mp h
  have hkey : entry.1 = key := by simpa using List.find?_some hfind
  rw [← hkey]
  exact List.mem_of_find?_eq_some hfind

/-- When no key is filed twice, looking up a key is asking for its entry. -/
theorem get?_eq_some_iff {links : Links κ} {key : κ} {target : Nat}
    (h : ∀ a ∈ links.entries, ∀ b ∈ links.entries, a.1 = b.1 → a = b) :
    links.get? key = some target ↔ (key, target) ∈ links.entries := by
  refine ⟨mem_of_get?, fun hmem => ?_⟩
  · unfold get?
    cases hfind : links.entries.find? fun entry => entry.1 = key with
    | none =>
        have := List.find?_eq_none.mp hfind _ hmem
        simp at this
    | some entry =>
        have hkey : entry.1 = key := by simpa using List.find?_some hfind
        have := h _ (List.mem_of_find?_eq_some hfind) _ hmem hkey
        rw [this]
        rfl

/-- Filing under a new key puts the target at the end. -/
theorem entries_insert {links : Links κ} {key : κ} {target : Nat}
    (h : links.get? key = none) :
    (links.insert key target).entries = links.entries ++ [(key, target)] := by
  have hkeep : links.entries.filter (fun entry => entry.1 ≠ key) = links.entries := by
    rw [List.filter_eq_self]
    intro entry hmem
    have := List.find?_eq_none.mp (Option.map_eq_none_iff.mp h) entry hmem
    simpa using this
  unfold insert erase
  rw [hkeep]

end Links

/-! ## Nodes by position -/

/-- What a node is made with and never loses. -/
structure Origin where
  method : MethodId
  key : Key
  parent : Option NodeId
  site : CallSite

def Node.origin {α : Type} (node : Node α) : Origin :=
  ⟨node.method, node.key, node.parent, node.site⟩

theorem Node.of_origin {α β : Type} {a : Node α} {b : Node β} (h : a.origin = b.origin) :
    a.method = b.method ∧ a.key = b.key ∧ a.parent = b.parent ∧ a.site = b.site :=
  ⟨congrArg Origin.method h, congrArg Origin.key h, congrArg Origin.parent h,
    congrArg Origin.site h⟩

namespace CallTree

variable {α : Type} {tree : CallTree α}

theorem node?_lt {id : Nat} {node : Node α} (h : tree.node? id = some node) :
    id < tree.size := by
  unfold node? at h
  exact (Array.getElem?_eq_some_iff.mp h).1

theorem exists_node? {id : Nat} (h : id < tree.size) :
    ∃ node, tree.node? id = some node :=
  ⟨_, Array.getElem?_eq_getElem h⟩

theorem node?_eq_none_iff {id : Nat} : tree.node? id = none ↔ tree.size ≤ id :=
  Array.getElem?_eq_none_iff

theorem node?_eq_none {id : Nat} (h : tree.size ≤ id) : tree.node? id = none :=
  node?_eq_none_iff.mpr h

theorem node?_modify {id other : Nat} {change : Node α → Node α} :
    (tree.modify id change).node? other =
      if id = other then (tree.node? other).map change else tree.node? other := by
  unfold modify node?
  rw [Array.getElem?_modify]

/-- A node after a change is the changed one, or one of the others as it was. -/
theorem node?_modify_cases {id other : Nat} {change : Node α → Node α} {after : Node α}
    (h : (tree.modify id change).node? other = some after) :
    ∃ before, tree.node? other = some before ∧
      ((other = id ∧ after = change before) ∨ (other ≠ id ∧ after = before)) := by
  rw [node?_modify] at h
  split at h
  · next heq =>
      obtain ⟨before, hbefore, rfl⟩ := Option.map_eq_some_iff.mp h
      exact ⟨before, hbefore, Or.inl ⟨heq.symm, rfl⟩⟩
  · next hne => exact ⟨after, h, Or.inr ⟨fun heq => hne heq.symm, rfl⟩⟩

theorem size_link {node : Node α} : (tree.link node).size = tree.size + 1 := by
  unfold link size
  cases node.parent with
  | none => exact Array.size_push _
  | some parent =>
      show ((tree.nodes.push node).modify parent _).size = _
      rw [Array.size_modify, Array.size_push]

/-- Linking a node adds it at the end and changes the links of its parent. -/
theorem node?_link {node : Node α} (hparent : ∀ p : Nat, node.parent = some p → p < tree.size)
    {id : Nat} :
    (tree.link node).node? id =
      if id = tree.size then some node
      else if node.parent = some id then
        (tree.node? id).map fun p => { p with links := p.links.insert node.key tree.size }
      else tree.node? id := by
  unfold link node?
  cases hp : node.parent with
  | none =>
      show (tree.nodes.push node)[id]? = _
      rw [Array.getElem?_push]
      simp [size]
  | some parent =>
      show ((tree.nodes.push node).modify parent _)[id]? = _
      rw [Array.getElem?_modify, Array.getElem?_push]
      have hlt := hparent parent hp
      by_cases hid : id = tree.nodes.size
      · have hne : parent ≠ id := by
          rw [hid]
          exact Nat.ne_of_lt hlt
        rw [if_neg hne, if_pos hid, if_pos (show id = tree.size from hid)]
      · rw [if_neg hid, if_neg (show ¬id = tree.size from hid)]
        by_cases heq : parent = id
        · rw [if_pos heq, if_pos (by rw [heq])]
        · rw [if_neg heq, if_neg (by simpa using heq)]

theorem rootLinks_link {node : Node α} :
    (tree.link node).rootLinks =
      if node.parent = none then tree.rootLinks.insert node.key tree.size
      else tree.rootLinks := by
  unfold link
  cases node.parent with
  | none => rfl
  | some parent => rfl

/-- What the nodes were made with. -/
def origins (tree : CallTree α) : Array Origin := tree.nodes.map Node.origin

theorem origins_getElem? {id : Nat} :
    tree.origins[id]? = (tree.node? id).map Node.origin := by
  unfold origins node?
  rw [Array.getElem?_map]

theorem size_origins : tree.origins.size = tree.size := by
  unfold origins size
  rw [Array.size_map]

theorem origins_modify {id : Nat} {change : Node α → Node α}
    (h : ∀ node, (change node).origin = node.origin) :
    (tree.modify id change).origins = tree.origins := by
  refine Array.ext_getElem? fun i => ?_
  rw [origins_getElem?, origins_getElem?, node?_modify]
  split
  · rw [Option.map_map]
    congr 1
    funext node
    exact h node
  · rfl

theorem origins_link {node : Node α} (hparent : ∀ p : Nat, node.parent = some p → p < tree.size) :
    (tree.link node).origins = tree.origins.push node.origin := by
  refine Array.ext_getElem? fun i => ?_
  rw [origins_getElem?, node?_link hparent, Array.getElem?_push, size_origins,
    origins_getElem?]
  split
  · rfl
  · split
    · rw [Option.map_map]
      rfl
    · rfl

/-! ## What the arena says about the links -/

/-- The nodes with the given parent, or without one, under their keys. -/
def filed (tree : CallTree α) (parent : Option NodeId) : Links Key :=
  ⟨(List.range tree.size).filterMap fun id =>
    tree.origins[id]?.bind fun origin =>
      if origin.parent = parent then some (origin.key, id) else none⟩

/-- The nodes of a method. -/
def boundTo (tree : CallTree α) (method : MethodId) : List NodeId :=
  (List.range tree.size).filter fun id =>
    tree.origins[id]?.any fun origin => origin.method = method

theorem filed_congr {β : Type} {other : CallTree β} (h : tree.origins = other.origins)
    (parent : Option NodeId) : tree.filed parent = other.filed parent := by
  unfold filed
  rw [← size_origins, ← size_origins, h]

theorem boundTo_congr {β : Type} {other : CallTree β} (h : tree.origins = other.origins)
    (method : MethodId) : tree.boundTo method = other.boundTo method := by
  unfold boundTo
  rw [← size_origins, ← size_origins, h]

theorem mem_filed {parent : Option NodeId} {key : Key} {id : Nat} :
    (key, id) ∈ (tree.filed parent).entries ↔
      ∃ node, tree.node? id = some node ∧ node.parent = parent ∧ node.key = key := by
  unfold filed
  rw [List.mem_filterMap]
  constructor
  · rintro ⟨i, -, hi⟩
    rw [origins_getElem?, Option.bind_map] at hi
    obtain ⟨node, hnode, hentry⟩ := Option.bind_eq_some_iff.mp hi
    change (if node.parent = parent then some (node.key, i) else none) = _ at hentry
    split at hentry
    · next hparent =>
        simp only [Option.some.injEq, Prod.mk.injEq] at hentry
        obtain ⟨hkey, rfl⟩ := hentry
        exact ⟨node, hnode, hparent, hkey⟩
    · cases hentry
  · rintro ⟨node, hnode, hparent, hkey⟩
    refine ⟨id, List.mem_range.mpr (node?_lt hnode), ?_⟩
    rw [origins_getElem?, hnode]
    simp [Node.origin, hparent, hkey]

theorem filed_link {node : Node α} (hparent : ∀ p : Nat, node.parent = some p → p < tree.size)
    (parent : Option NodeId) :
    ((tree.link node).filed parent).entries =
      (tree.filed parent).entries ++
        if node.parent = parent then [(node.key, tree.size)] else [] := by
  unfold filed
  simp only [size_link, origins_link hparent]
  rw [List.range_succ, List.filterMap_append]
  congr 1
  · refine List.filterMap_congr fun id hid => ?_
    have hne : id ≠ tree.origins.size := by
      rw [size_origins]
      exact Nat.ne_of_lt (List.mem_range.mp hid)
    rw [Array.getElem?_push, if_neg hne]
  · rw [← size_origins]
    simp only [List.filterMap_cons, List.filterMap_nil, Array.getElem?_push_size,
      Option.bind_some, Node.origin]
    by_cases h : node.parent = parent
    · simp only [if_pos h]
    · simp only [if_neg h]

theorem boundTo_link {node : Node α} (hparent : ∀ p : Nat, node.parent = some p → p < tree.size)
    (method : MethodId) :
    (tree.link node).boundTo method =
      tree.boundTo method ++ if node.method = method then [tree.size] else [] := by
  unfold boundTo
  rw [size_link, origins_link hparent, List.range_succ, List.filter_append]
  congr 1
  · refine List.filter_congr fun id hid => ?_
    have hne : id ≠ tree.origins.size := by
      rw [size_origins]
      exact Nat.ne_of_lt (List.mem_range.mp hid)
    rw [Array.getElem?_push, if_neg hne]
  · rw [← size_origins]
    simp only [List.filter_cons, List.filter_nil, Array.getElem?_push_size,
      Option.any_some, Node.origin, decide_eq_true_eq]

theorem targets_filed (tree : CallTree α) (parent : Option NodeId) :
    (tree.filed parent).targets =
      (List.range tree.size).filter fun id =>
        tree.origins[id]?.any fun origin => origin.parent = parent := by
  unfold filed Links.targets
  rw [List.map_filterMap]
  induction List.range tree.size with
  | nil => rfl
  | cons id ids ih =>
      rw [List.filterMap_cons, List.filter_cons, ih]
      cases tree.origins[id]? with
      | none => rfl
      | some origin =>
          by_cases h : origin.parent = parent
          · simp [h]
          · simp [h]

theorem nodup_targets_filed (tree : CallTree α) (parent : Option NodeId) :
    (tree.filed parent).targets.Nodup := by
  rw [targets_filed]
  exact List.nodup_range.filter _

theorem mem_targets_filed {parent : Option NodeId} {id : Nat} :
    id ∈ (tree.filed parent).targets ↔
      ∃ node, tree.node? id = some node ∧ node.parent = parent := by
  unfold Links.targets
  rw [List.mem_map]
  constructor
  · rintro ⟨⟨key, i⟩, hmem, rfl⟩
    obtain ⟨node, hnode, hparent, -⟩ := mem_filed.mp hmem
    exact ⟨node, hnode, hparent⟩
  · rintro ⟨node, hnode, hparent⟩
    exact ⟨(node.key, id), mem_filed.mpr ⟨node, hnode, hparent, rfl⟩, rfl⟩

/-- A node of a tree after linking is the new one, or an old one, whose links
may have changed. -/
theorem node?_link_cases {node : Node α}
    (hparent : ∀ p : Nat, node.parent = some p → p < tree.size) {id : Nat} {found : Node α}
    (h : (tree.link node).node? id = some found) :
    (id = tree.size ∧ found = node) ∨
      ∃ before, tree.node? id = some before ∧ before.origin = found.origin ∧
        before.measurement = found.measurement ∧ before.visits = found.visits := by
  rw [node?_link hparent] at h
  split at h
  · next heq =>
      cases h
      exact Or.inl ⟨heq, rfl⟩
  · split at h
    · obtain ⟨before, hbefore, rfl⟩ := Option.map_eq_some_iff.mp h
      exact Or.inr ⟨before, hbefore, rfl, rfl, rfl⟩
    · exact Or.inr ⟨found, h, rfl, rfl, rfl⟩

/-- A parent stands before its children. -/
structure Climbing (tree : CallTree α) : Prop where
  parent_lt : ∀ {id parent : Nat} {node : Node α}, tree.node? id = some node →
    node.parent = some parent → parent < id

/-- The links of a tree are those that its arena asks for. -/
structure Linked (tree : CallTree α) : Prop extends Climbing tree where
  roots : tree.rootLinks = tree.filed none
  links : ∀ {id : Nat} {node : Node α}, tree.node? id = some node →
    node.links = tree.filed (some id)

/-- The links of a node, or those of the tree itself. -/
def linksOf (tree : CallTree α) : (parent : Option NodeId) → Links Key
  | none => tree.rootLinks
  | some id => ((tree.node? id).map Node.links).getD .empty

theorem children_eq_targets (tree : CallTree α) (id : NodeId) :
    tree.children id = (tree.linksOf (some id)).targets := by
  show tree.children id = Links.targets (((tree.node? id).map Node.links).getD .empty)
  unfold children
  cases tree.node? id with
  | none => rfl
  | some node => rfl

theorem linksOf_of_node? {id : Nat} {node : Node α} (h : tree.node? id = some node) :
    tree.linksOf (some id) = node.links := by
  rw [linksOf, h]
  rfl

theorem childOf?_eq_get? (tree : CallTree α) (parent : Option NodeId) (key : Key) :
    tree.childOf? parent key = (tree.linksOf parent).get? key := by
  cases parent with
  | none => rfl
  | some id =>
      show (tree.node? id).bind (·.links.get? key) =
        Links.get? (((tree.node? id).map Node.links).getD .empty) key
      cases tree.node? id with
      | none => rfl
      | some node => rfl

/-- Linking a node files it under its parent, and gives it the links it has. -/
theorem linksOf_link {node : Node α} (hparent : ∀ p : Nat, node.parent = some p → p < tree.size)
    (parent : Option NodeId) :
    (tree.link node).linksOf parent =
      if parent = some tree.size then node.links
      else if node.parent = parent then (tree.linksOf parent).insert node.key tree.size
      else tree.linksOf parent := by
  cases parent with
  | none =>
      rw [if_neg (Option.some_ne_none _).symm]
      exact rootLinks_link
  | some id =>
      simp only [linksOf, node?_link hparent, Option.some.injEq]
      split
      · rfl
      · split
        · next hp =>
            obtain ⟨before, hbefore⟩ := exists_node? (hparent id hp)
            rw [hbefore]
            rfl
        · rfl

theorem Linked.linksOf_eq (hl : tree.Linked) {parent : Option NodeId}
    (hparent : ∀ p : Nat, parent = some p → p < tree.size) :
    tree.linksOf parent = tree.filed parent := by
  cases parent with
  | none => exact hl.roots
  | some id =>
      obtain ⟨node, hnode⟩ := exists_node? (hparent id rfl)
      rw [linksOf_of_node? hnode, hl.links hnode]

theorem Linked.children_eq (hl : tree.Linked) {id : Nat} (hid : id < tree.size) :
    tree.children id = (tree.filed (some id)).targets := by
  obtain ⟨node, hnode⟩ := exists_node? hid
  rw [children, hnode, ← hl.links hnode]
  rfl

theorem Linked.roots_eq (hl : tree.Linked) : tree.roots = (tree.filed none).targets := by
  rw [CallTree.roots, hl.roots]

theorem linked_empty : (empty : CallTree α).Linked where
  parent_lt h := absurd (node?_lt h) (Nat.not_lt_zero _)
  roots := rfl
  links h := absurd (node?_lt h) (Nat.not_lt_zero _)

/-- Filing under a new key is what linking asks for. -/
theorem insert_filed {node : Node α} (hparent : ∀ p : Nat, node.parent = some p → p < tree.size)
    (hnew : (tree.filed node.parent).get? node.key = none) :
    (tree.filed node.parent).insert node.key tree.size =
      (tree.link node).filed node.parent := by
  have h : ((tree.filed node.parent).insert node.key tree.size).entries =
      ((tree.link node).filed node.parent).entries := by
    rw [Links.entries_insert hnew, filed_link hparent, if_pos rfl]
  exact congrArg Links.mk h

theorem filed_link_of_ne {node : Node α}
    (hparent : ∀ p : Nat, node.parent = some p → p < tree.size) {parent : Option NodeId}
    (hne : node.parent ≠ parent) : (tree.link node).filed parent = tree.filed parent := by
  have h := filed_link hparent parent
  rw [if_neg hne, List.append_nil] at h
  exact congrArg Links.mk h

theorem Climbing.link (hl : tree.Climbing) {node : Node α}
    (hparent : ∀ p : Nat, node.parent = some p → p < tree.size) :
    (tree.link node).Climbing where
  parent_lt hid hp := by
    rcases node?_link_cases hparent hid with ⟨rfl, rfl⟩ | ⟨before, hbefore, horigin, -⟩
    · exact hparent _ hp
    · exact hl.parent_lt hbefore ((Node.of_origin horigin).2.2.1.trans hp)

/-- Linking files what the arena asks for, unless something is filed in that place already. -/
theorem Climbing.linksOf_link_eq (hl : tree.Climbing) {node : Node α}
    (hparent : ∀ p : Nat, node.parent = some p → p < tree.size) (hlinks : node.links = .empty)
    {parent : Option NodeId}
    (hbefore : parent ≠ some tree.size → tree.linksOf parent = tree.filed parent)
    (hnew : node.parent = parent → (tree.filed parent).get? node.key = none) :
    (tree.link node).linksOf parent = (tree.link node).filed parent := by
  rw [linksOf_link hparent]
  split
  · next heq =>
      -- nothing names the new node as its parent, since parents stand before
      subst heq
      have hempty : (tree.link node).filed (some tree.size) = ⟨[]⟩ := by
        refine congrArg Links.mk (List.eq_nil_iff_forall_not_mem.mpr ?_)
        rintro ⟨key, child⟩ hmem
        obtain ⟨other, hother, hp, -⟩ := mem_filed.mp hmem
        have hlt := node?_lt hother
        rw [size_link] at hlt
        exact Nat.lt_irrefl _ (Nat.lt_of_lt_of_le ((hl.link hparent).parent_lt hother hp)
          (Nat.le_of_lt_succ hlt))
      rw [hlinks, hempty]
      rfl
  · next hne =>
      rw [hbefore hne]
      split
      · next hp =>
          subst hp
          exact insert_filed hparent (hnew rfl)
      · next hother => exact (filed_link_of_ne hparent hother).symm

theorem Linked.link (hl : tree.Linked) {node : Node α}
    (hparent : ∀ p : Nat, node.parent = some p → p < tree.size) (hlinks : node.links = .empty)
    (hnew : (tree.filed node.parent).get? node.key = none) : (tree.link node).Linked where
  toClimbing := hl.toClimbing.link hparent
  roots := by
    show (tree.link node).linksOf none = _
    exact hl.toClimbing.linksOf_link_eq hparent hlinks (fun _ => hl.roots) fun hp => hp ▸ hnew
  links {id found} hid := by
    rw [← linksOf_of_node? hid]
    refine hl.toClimbing.linksOf_link_eq hparent hlinks (fun hne => ?_) fun hp => hp ▸ hnew
    have hlt := node?_lt hid
    rw [size_link] at hlt
    refine hl.linksOf_eq fun p hp => ?_
    cases hp
    exact Nat.lt_of_le_of_ne (Nat.le_of_lt_succ hlt) fun heq => hne (congrArg some heq)

end CallTree

end CallLedger
