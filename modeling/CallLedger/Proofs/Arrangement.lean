import CallLedger.Proofs.Continuing

/-!
# How a call tree is arranged

The arena, the links, the lists of nodes in the records and the keys of the registry describe one
tree (`Profile.Arranged`), whichever of recording, merging and loading has put it there. A parent
stands before its children, and a node is filed under it by the key of its method and nowhere
else. Siblings have different methods, and no node has the method of its parent.

So a walk is not cut off (`CallTree.Traversed`). It meets what has its start among the ancestors,
each node once, and the walks of subtrees are pieces of the walk of the whole tree. What the
ancestors are is said without a bound (`CallTree.Lineal`), as the way of a loop that asks for the
parent until there is none.
-/

namespace CallLedger

variable {α : Type}

/-! ## Ancestors -/

namespace CallTree

variable {tree : CallTree α}

/-- The nodes above a node, in the order in which one parent leads to the next. -/
inductive Lineal (tree : CallTree α) : NodeId → List NodeId → Prop
  | root {id : NodeId} (h : tree.parent? id = none) : Lineal tree id []
  | child {id parent : NodeId} {above : List NodeId} (h : tree.parent? id = some parent)
      (habove : Lineal tree parent above) : Lineal tree id (parent :: above)

theorem Climbing.lineal (hl : tree.Climbing) :
    ∀ {id : Nat}, id < tree.size → tree.Lineal id (tree.ancestors id) := by
  intro id
  induction id using Nat.strongRecOn with
  | ind id ih =>
      intro hid
      cases hparent : tree.parent? id with
      | none =>
          rw [hl.ancestors_of_root hid hparent]
          exact .root hparent
      | some parent =>
          have hlt := hl.parent?_lt hparent
          rw [hl.ancestors_of_parent hparent]
          exact .child hparent (ih parent hlt (Nat.lt_trans hlt hid))

theorem Lineal.unique {id : NodeId} {above others : List NodeId} (h : tree.Lineal id above)
    (hothers : tree.Lineal id others) : above = others := by
  induction h generalizing others with
  | root hnone =>
      cases hothers with
      | root _ => rfl
      | child hparent _ =>
          rw [hnone] at hparent
          cases hparent
  | child hparent _ ih =>
      cases hothers with
      | root hnone =>
          rw [hparent] at hnone
          cases hnone
      | child hsame hrest =>
          rw [hparent, Option.some.injEq] at hsame
          subst hsame
          rw [ih hrest]

/-- What the walks and depths of a tree come to. -/
structure Traversed (tree : CallTree α) : Prop where
  all : tree.walkAll.Perm (List.range tree.size)
  parentsFirst : tree.ParentsFirst [] tree.walkAll
  contiguous : ∀ {id : Nat}, id < tree.size → tree.walk id <:+: tree.walkAll
  once : ∀ {id : Nat}, id < tree.size → (tree.walk id).Nodup
  /-- A walk meets its start and the descendants of that. -/
  descendants : ∀ {id : Nat}, id < tree.size → ∀ x : Nat,
    x ∈ tree.walk id ↔ ∃ above, tree.Lineal x above ∧ id ∈ x :: above
  depth : ∀ {id : Nat}, id < tree.size →
    ∃ above, tree.Lineal id above ∧ tree.depth id = above.length

theorem Linked.traversed (hl : tree.Linked) : tree.Traversed where
  all := hl.walkAll_perm
  parentsFirst := hl.branching.parentsFirst_walkAll
  contiguous hid :=
    hl.branching.walk_infix_walkAll (hl.walkAll_perm.mem_iff.mpr (List.mem_range.mpr hid))
  once := hl.branching.nodup_walk
  descendants {id} hid x := by
    rw [hl.mem_walk hid]
    constructor
    · rintro ⟨hx, hway⟩
      exact ⟨_, hl.lineal hx, hway⟩
    · rintro ⟨above, habove, hway⟩
      -- past the end of the arena there is no parent
      have hx : x < tree.size := by
        by_contra hge
        have hnone : tree.parent? x = none := by
          rw [parent?, node?_eq_none (Nat.le_of_not_lt hge)]
          rfl
        rw [habove.unique (.root hnone), List.mem_singleton] at hway
        exact hge (hway ▸ hid)
      rw [(hl.lineal hx).unique habove]
      exact ⟨hx, hway⟩
  depth {id} hid := ⟨_, hl.lineal hid, tree.depth_eq id⟩

/-! ## Links -/

/-- A node is filed under its parent by its key, or among the roots, and nowhere else. -/
theorem Linked.mem_linksOf (hl : tree.Linked) {parent : Option NodeId} {key : Key} {id : Nat} :
    (key, id) ∈ (tree.linksOf parent).entries ↔
      ∃ node, tree.node? id = some node ∧ node.parent = parent ∧ node.key = key := by
  by_cases hparent : ∀ p : Nat, parent = some p → p < tree.size
  · rw [hl.linksOf_eq hparent, mem_filed]
  · obtain ⟨p, hp⟩ := not_forall.mp hparent
    obtain ⟨rfl, hge⟩ := Classical.not_imp.mp hp
    have hempty : tree.linksOf (some p) = .empty := by
      rw [linksOf, node?_eq_none (Nat.le_of_not_lt hge)]
      rfl
    rw [hempty]
    refine iff_of_false List.not_mem_nil ?_
    rintro ⟨node, hnode, habove, -⟩
    exact hge (Nat.lt_trans (hl.parent_lt hnode habove) (node?_lt hnode))

end CallTree

/-! ## Profiles -/

namespace Profile

variable {profile : Profile α}

/-- The tree that all parts of a profile describe. -/
structure Arranged (profile : Profile α) : Prop where
  /-- Of two methods neither the identity nor the key is the same. -/
  distinct : ∀ {i j : Nat} {a b : MethodRecord α}, profile.methods.record? i = some a →
    profile.methods.record? j = some b → a.method = b.method ∨ a.key = b.key → i = j
  climbing : ∀ {id parent : Nat} {node : Node α}, profile.tree.node? id = some node →
    node.parent = some parent → parent < id
  keyed : ∀ {id : Nat} {node : Node α}, profile.tree.node? id = some node →
    ∃ record, profile.methods.record? node.method = some record ∧ record.key = node.key
  filed : ∀ (parent : Option NodeId) (key : Key) (id : Nat),
    (key, id) ∈ (profile.tree.linksOf parent).entries ↔
      ∃ node, profile.tree.node? id = some node ∧ node.parent = parent ∧ node.key = key
  keysOnce : ∀ parent : Option NodeId,
    ((profile.tree.linksOf parent).entries.map (·.1)).Nodup
  apart : ∀ {i j : Nat} {a b : Node α}, profile.tree.node? i = some a →
    profile.tree.node? j = some b → a.parent = b.parent → a.method = b.method → i = j
  unlikeParent : ∀ {id parent : Nat} {node above : Node α},
    profile.tree.node? id = some node → node.parent = some parent →
      profile.tree.node? parent = some above → node.method ≠ above.method
  /-- A node is listed once by its own method, and by no other. -/
  listed : ∀ {method : Nat} {record : MethodRecord α},
    profile.methods.record? method = some record → ∀ id : Nat,
      record.nodes.toList.count id = if profile.methodOf? id = some method then 1 else 0

theorem Sound.keysOnce (hs : profile.Sound) (parent : Option NodeId) :
    ((profile.tree.linksOf parent).entries.map (·.1)).Nodup := by
  have hentries : (profile.tree.linksOf parent).entries.Nodup :=
    (hs.tree.branching.nodup parent).of_map
  refine List.Nodup.map_on ?_ hentries
  rintro ⟨key, i⟩ hi ⟨other, j⟩ hj (rfl : key = other)
  obtain ⟨a, ha, hpa, hka⟩ := hs.tree.mem_linksOf.mp hi
  obtain ⟨b, hb, hpb, hkb⟩ := hs.tree.mem_linksOf.mp hj
  obtain ⟨ra, hra, hkra⟩ := hs.bound ha
  obtain ⟨rb, hrb, hkrb⟩ := hs.bound hb
  have hmethod : a.method = b.method :=
    hs.methods.key_inj hra hrb (by rw [hkra, hkrb, hka, hkb])
  rw [hs.apart ha hb (hpa.trans hpb.symm) hmethod]

theorem Sound.count_nodes (hs : profile.Sound) {method : Nat} {record : MethodRecord α}
    (hrecord : profile.methods.record? method = some record) (id : Nat) :
    record.nodes.toList.count id = if profile.methodOf? id = some method then 1 else 0 := by
  have hnodup : record.nodes.toList.Nodup := by
    rw [hs.boundTo_eq hrecord]
    exact List.nodup_range.filter _
  rw [hnodup.count]
  exact if_congr (Array.mem_toList_iff.trans (hs.mem_nodes hrecord)) rfl rfl

theorem Sound.toArranged (hs : profile.Sound) (h : profile.Unstuttered) : profile.Arranged where
  distinct ha hb heither := heither.elim (hs.methods.method_inj ha hb) (hs.methods.key_inj ha hb)
  climbing := hs.tree.parent_lt
  keyed := hs.bound
  filed _ _ _ := hs.tree.mem_linksOf
  keysOnce := hs.keysOnce
  apart := hs.apart
  unlikeParent := h.method_ne hs
  listed := hs.count_nodes

end Profile

/-! ## Every session -/

namespace Session

variable [Amount α]

/-- The tree of every context is arranged so, walks and depths come out right, and its nodes stay
what they were made as for as long as the context is there. -/
theorem Reachable.arranged {dumps : Phase → Prop} {session : Session α}
    (h : Reachable dumps session) {handle : Nat} {context : Context α}
    (hget : session.contexts.get? handle = some context) :
    context.profile.Arranged ∧ context.profile.tree.Traversed ∧
      ∀ (operations : List (Operation α)) {later : Context α},
        (session.run operations).contexts.get? handle = some later →
        ∀ {id : Nat} {node : Node α}, context.profile.tree.node? id = some node →
          ∃ after, later.profile.tree.node? id = some after ∧ after.origin = node.origin := by
  obtain ⟨excluded, hlawful⟩ := h.nested
  have hnested := hlawful.contexts handle context hget
  refine ⟨hnested.orderly.sound.toArranged hnested.unstuttered,
    hnested.orderly.sound.tree.traversed, fun operations later hlater id node hnode => ?_⟩
  have hgrown := h.grown_run operations (ContextTable.Grown.refl session.contexts)
  exact (hgrown.slots handle later hlater context hget).node? hnode

/-- A caller with two callees, the first of which makes a call of its own later, so that the walk
leaves the order in which the nodes were made. Another call adds a node to them. -/
theorem arranged_late_callee : ∃ (session : Session Int) (context later : Context Int),
    (unconfigured : Session Int).run [.start 0,
      .event (((Event.call ⟨.owner .plain, "A"⟩ "f").on 1 0).sampled 10),
      .event (((Event.call ⟨.owner .plain, "A"⟩ "g").on 1 0).sampled 20),
      .event ((Event.returned.on 1 0).sampled 30),
      .event (((Event.call ⟨.owner .plain, "A"⟩ "h").on 1 0).sampled 40),
      .event ((Event.returned.on 1 0).sampled 50),
      .event (((Event.call ⟨.owner .plain, "A"⟩ "g").on 1 0).sampled 60),
      .event (((Event.call ⟨.owner .plain, "A"⟩ "k").on 1 0).sampled 70)] = session ∧
    session.contexts.get? 0 = some context ∧
    context.profile.tree.walkAll = [0, 1, 3, 2] ∧ context.profile.tree.depth 3 = 2 ∧
    context.profile.Arranged ∧ context.profile.tree.Traversed ∧
    (session.run [.event (((Event.call ⟨.owner .plain, "A"⟩ "f").on 1 0).sampled 80),
      .stop 90]).contexts.get? 0 = some later ∧
    later.profile.tree.size = 5 ∧
    ∀ {id : Nat} {node : Node Int}, context.profile.tree.node? id = some node →
      ∃ after, later.profile.tree.node? id = some after ∧ after.origin = node.origin := by
  generalize hrun : Session.run (α := Int) _ _ = session
  have hreachable : Reachable (fun _ => True) session :=
    hrun ▸ (reachable_unconfigured _).run _
  have hshown : (session.contexts.get? 0).map (fun context =>
      (context.profile.tree.walkAll, context.profile.tree.depth 3)) = some ([0, 1, 3, 2], 2) := by
    rw [← hrun]
    decide +kernel
  obtain ⟨context, hcontext, hpair⟩ := Option.map_eq_some_iff.mp hshown
  rw [Prod.mk.injEq] at hpair
  have hgrown : ((session.run [.event (((Event.call ⟨.owner .plain, "A"⟩ "f").on 1 0).sampled 80),
      .stop 90]).contexts.get? 0).map (·.profile.tree.size) = some 5 := by
    rw [← hrun]
    decide +kernel
  obtain ⟨later, hlater, hsize⟩ := Option.map_eq_some_iff.mp hgrown
  obtain ⟨harranged, htraversed, hstays⟩ := hreachable.arranged hcontext
  exact ⟨session, context, later, rfl, hcontext, hpair.1, hpair.2, harranged, htraversed, hlater,
    hsize, hstays _ hlater⟩

end Session

end CallLedger
