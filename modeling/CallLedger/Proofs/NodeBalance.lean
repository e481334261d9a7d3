import CallLedger.Proofs.Books

/-!
# Every node balances

What a node took in all is what its own body took, what it waited, and what its
children took: at every node without an open call, in every session that can come
about. Summed over the tree of a session in which nothing is open, the children
cancel against the totals of the nodes below, and what is left are the roots.

`Profile.Conserved` says this of paths. Here it is read at a node: only the node
itself has its path, and only its children have a path that continues it.
-/

namespace CallLedger

variable {α : Type}

namespace CallTree

/-- A sum over what is filed under a parent. -/
theorem sum_filed {β : Type} [AddCommMonoid β] (tree : CallTree α) (parent : Option NodeId)
    (f : NodeId → β) :
    ((tree.filed parent).targets.map f).sum =
      ∑ id ∈ Finset.range tree.size, if tree.parent? id = parent then f id else 0 := by
  rw [targets_filed, sum_map_filter]
  refine congrArg List.sum (List.map_congr_left fun id hid => ?_)
  obtain ⟨node, hnode⟩ := exists_node? (List.mem_range.mp hid)
  rw [origins_getElem?, hnode, parent?_eq hnode]
  simp [Node.origin]

variable [ExactAmount α]

/-- The total of a tree is that of its roots. -/
theorem Linked.totalTime_eq {tree : CallTree α} (hl : tree.Linked) :
    tree.totalTime = (tree.roots.map fun id => (tree.cost id).totalTime).sum := by
  have hroots : ∀ ids : List NodeId, (∀ id ∈ ids, id < tree.size) →
      ids.filterMap (fun id => (tree.node? id).map (·.measurement.totalTime)) =
        ids.map fun id => (tree.cost id).totalTime := by
    intro ids
    induction ids with
    | nil => intro _; rfl
    | cons id ids ih =>
        intro hids
        obtain ⟨node, hnode⟩ := exists_node? (hids id List.mem_cons_self)
        rw [List.filterMap_cons, List.map_cons, hnode, cost_eq hnode,
          ih fun other hother => hids other (List.mem_cons_of_mem _ hother)]
        rfl
  rw [totalTime, Amount.sum_eq, hroots tree.roots fun id hid => (hl.mem_roots.mp hid).1]

end CallTree

namespace Profile

variable [ExactAmount α] {exclusions : Exclusions} {profile : Profile α}
  {calls : List (OpenCall α)}

/-- The surplus at the path of a node, read off the node and its children. -/
theorem Sound.surplus_path (hs : profile.Sound) {id : Nat} (hid : id < profile.tree.size) :
    surplus (profile.path id) profile.ledger =
      (profile.tree.cost id).selfTime + (profile.tree.cost id).waitTime -
          (profile.tree.cost id).totalTime +
        ((profile.tree.children id).map fun child => (profile.tree.cost child).totalTime).sum := by
  have hself : ∀ i ∈ Finset.range profile.tree.size,
      (profile.path i = profile.path id ↔ i = id) := by
    intro i hi
    exact ⟨hs.path_inj (Finset.mem_range.mp hi) hid, fun heq => by rw [heq]⟩
  have hchild : ∀ i ∈ Finset.range profile.tree.size,
      ((profile.path i).tail = profile.path id ↔ profile.tree.parent? i = some id) := by
    intro i hi
    obtain ⟨node, record, hnode, -, -, hpath⟩ := hs.exists_path_eq (Finset.mem_range.mp hi)
    rw [CallTree.parent?_eq hnode, hpath, List.tail_cons]
    cases hp : node.parent with
    | none => exact ⟨fun h => absurd h.symm (hs.path_ne_nil hid), nofun⟩
    | some parent =>
        have hlt := (hs.tree.parent_lt hnode hp).trans (Finset.mem_range.mp hi)
        constructor
        · exact fun h => congrArg some (hs.path_inj hlt hid h)
        · intro h
          cases h
          rfl
  rw [hs.tree.children_eq hid, CallTree.sum_filed, surplus, liftAddHom_ledger]
  have hterm : ∀ i ∈ Finset.range profile.tree.size,
      ((if profile.path i = profile.path id then
          Measurement.selfPart + Measurement.waitPart - Measurement.totalPart else 0) +
        (if (profile.path i).tail = profile.path id then Measurement.totalPart else 0) :
          Measurement α →+ α) (profile.tree.cost i) =
        (if i = id then (profile.tree.cost id).selfTime + (profile.tree.cost id).waitTime -
          (profile.tree.cost id).totalTime else 0) +
        (if profile.tree.parent? i = some id then (profile.tree.cost i).totalTime else 0) := by
    intro i hi
    rw [AddMonoidHom.add_apply]
    simp only [hself i hi, hchild i hi]
    congr 1
    · split
      · next heq =>
          rw [heq]
          rfl
      · rfl
    · split
      · rfl
      · rfl
  rw [Finset.sum_congr rfl hterm, Finset.sum_add_distrib, Finset.sum_ite_eq',
    if_pos (Finset.mem_range.mpr hid)]

/-- A node without an open call balances. -/
theorem Conserved.balance (h : profile.Conserved calls)
    (ho : profile.Ordered exclusions calls) {id : Nat} {node : Node α}
    (hnode : profile.tree.node? id = some node) (hvisits : node.visits = 0) :
    (profile.tree.cost id).selfTime + (profile.tree.cost id).waitTime +
        ((profile.tree.children id).map fun child => (profile.tree.cost child).totalTime).sum =
      (profile.tree.cost id).totalTime := by
  have hid := CallTree.node?_lt hnode
  have hclosed : ∀ call ∈ calls, call.node ≠ id := by
    have hcount := ho.nodeVisits hnode
    rw [hvisits, eq_comm, List.countP_eq_zero] at hcount
    exact fun call hcall => by simpa using hcount call hcall
  have hcredits : profile.credits calls (profile.path id) = 0 := by
    refine List.sum_eq_zero fun time htime => ?_
    obtain ⟨call, hcall, rfl⟩ := List.mem_map.mp htime
    refine if_neg fun hpath => hclosed call hcall ?_
    exact ho.sound.path_inj (ho.stacked.node_lt hcall) hid hpath
  have hsurplus := h (profile.path id) (ho.sound.path_ne_nil hid)
  rw [hcredits, ho.sound.surplus_path hid] at hsurplus
  rw [← sub_eq_zero, ← hsurplus]
  abel

/-- Where every node balances, the tree does. -/
theorem Conserved.total (h : profile.Conserved []) (ho : profile.Ordered exclusions []) :
    ((List.range profile.tree.size).map fun id =>
        (profile.tree.cost id).selfTime + (profile.tree.cost id).waitTime).sum =
      profile.tree.totalTime := by
  have hbalance : ∀ id ∈ Finset.range profile.tree.size,
      (profile.tree.cost id).selfTime + (profile.tree.cost id).waitTime =
        (profile.tree.cost id).totalTime -
          ∑ i ∈ Finset.range profile.tree.size,
            if profile.tree.parent? i = some id then (profile.tree.cost i).totalTime else 0 := by
    intro id hid
    have hlt := Finset.mem_range.mp hid
    obtain ⟨node, hnode⟩ := CallTree.exists_node? hlt
    have hnone := h.balance ho hnode (ho.nodeVisits hnode)
    rw [ho.sound.tree.children_eq hlt, CallTree.sum_filed] at hnone
    exact eq_sub_of_add_eq hnone
  have hparent : ∀ i ∈ Finset.range profile.tree.size,
      (∑ id ∈ Finset.range profile.tree.size,
        if profile.tree.parent? i = some id then (profile.tree.cost i).totalTime else 0) =
      (profile.tree.cost i).totalTime -
        if profile.tree.parent? i = none then (profile.tree.cost i).totalTime else 0 := by
    intro i hi
    cases hp : profile.tree.parent? i with
    | none => simp
    | some parent =>
        have hlt := (ho.sound.tree.parent?_lt hp).trans (Finset.mem_range.mp hi)
        simp [hlt]
  rw [ho.sound.tree.totalTime_eq, ho.sound.tree.roots_eq, CallTree.sum_filed]
  refine (Finset.sum_congr rfl hbalance).trans ?_
  rw [Finset.sum_sub_distrib, Finset.sum_comm, Finset.sum_congr rfl hparent,
    Finset.sum_sub_distrib]
  abel

end Profile

/-- In every session that can come about, nothing is lost at a node, and outside a
run nothing in all. -/
theorem Session.Reachable.nothing_lost [ExactAmount α] {session : Session α}
    (h : Reachable (fun phase => phase.isActive = false) session) {handle : Handle}
    {context : Context α} (hcontext : session.contexts.get? handle = some context) :
    (∀ {id : NodeId} {node : Node α}, context.profile.tree.node? id = some node →
      node.visits = 0 →
        node.measurement.selfTime + node.measurement.waitTime +
            (node.children.map fun child =>
              (context.profile.tree.cost child).totalTime).sum =
          node.measurement.totalTime) ∧
      (session.phase.isActive = false →
        ((List.range context.profile.tree.size).map fun id =>
          (context.profile.tree.cost id).selfTime +
            (context.profile.tree.cost id).waitTime).sum = context.totalTime) := by
  obtain ⟨excluded, hlawful⟩ := h.lawful Context.conservedLaw
    (survives_conserved fun _ => id)
  obtain ⟨hkept, hconserved⟩ := hlawful.contexts handle context hcontext
  constructor
  · intro id node hnode hvisits
    have hbalance := hconserved.balance hkept.accounted.toOrdered hnode hvisits
    rw [CallTree.cost_eq hnode, CallTree.children, hnode] at hbalance
    exact hbalance
  · intro hinactive
    have hnone := Context.openCalls_of_frames (hlawful.settled hinactive handle context hcontext)
    have haccounted := hkept.accounted
    unfold Context.Conserved at hconserved
    rw [hnone] at hconserved haccounted
    exact hconserved.total haccounted.toOrdered

/-- A run that was paused, with a call that called itself and was still open when the
run was stopped. -/
theorem nothing_lost_recursive :
    ∃ context node,
      ((Session.unconfigured : Session Int).run
        [.start 0, .event ((Event.call ⟨.owner .plain, "A"⟩ "f").sampled 10),
          .event ((Event.call ⟨.owner .plain, "A"⟩ "f").sampled 15), .pause 20, .resume 50,
          .event ((Event.call ⟨.owner .plain, "A"⟩ "g").sampled 60),
          .event (Event.returned.sampled 63), .stop 70]).contexts.get? 0 = some context ∧
      context.profile.tree.node? 0 = some node ∧ node.visits = 0 ∧
      node.measurement.selfTime + node.measurement.waitTime +
          (node.children.map fun child => (context.profile.tree.cost child).totalTime).sum =
        node.measurement.totalTime ∧
      ((List.range context.profile.tree.size).map fun id =>
        (context.profile.tree.cost id).selfTime +
          (context.profile.tree.cost id).waitTime).sum = context.totalTime ∧
      context.totalTime = 30 := by
  generalize hrun : Session.run (α := Int) _ _ = session
  have hshown : ((session.contexts.get? 0).bind fun context =>
      (context.profile.tree.node? 0).map fun node => (node.visits, context.totalTime)) =
        some (0, 30) := by
    rw [← hrun]
    decide +kernel
  have hphase : session.phase.isActive = false := by
    rw [← hrun]
    decide +kernel
  obtain ⟨context, hcontext, hmap⟩ := Option.bind_eq_some_iff.mp hshown
  obtain ⟨node, hnode, hpair⟩ := Option.map_eq_some_iff.mp hmap
  rw [Prod.mk.injEq] at hpair
  have hreachable : Session.Reachable (fun phase => phase.isActive = false) session :=
    hrun ▸ (Session.reachable_unconfigured _).run _
  obtain ⟨hnodes, htotal⟩ := hreachable.nothing_lost hcontext
  exact ⟨context, node, hcontext, hnode, hpair.1, hnodes hnode hpair.1, htotal hphase, hpair.2⟩

end CallLedger
