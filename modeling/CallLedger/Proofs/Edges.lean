import CallLedger.Proofs.Ledger
import CallLedger.Proofs.Nesting
import CallLedger.Proofs.Walk
import CallLedger.Profile.Edges

/-!
# Two views of the calls between methods

The edges into a method are read off the nodes of the method, upwards, and the edges out of one off
its nodes, downwards. Both come down to the same nodes: those of the called method whose parents are
nodes of the calling one (`Profile.nodesUnder`). An edge stands for these and costs what they cost
together, whether they are met one by one from above or from below (`Profile.mem_callers`,
`Profile.mem_callees`).

What the reports do with the costs does not depend on their order. Grouping leaves one edge for each
method that is named, with the sum of what it is named with, and ranking them moves them about
(`Edge.Tallies`).
-/

namespace CallLedger

/-- Exact amounts that are ranked by a linear order. -/
class OrderedAmount (α : Type) extends ExactAmount α, LinearOrder α where
  less_iff_lt : ∀ a b : α, Amount.less a b = true ↔ a < b

instance : OrderedAmount Int where
  less_iff_lt _ _ := decide_eq_true_iff

instance : OrderedAmount Rat where
  less_iff_lt _ _ := decide_eq_true_iff

variable {α : Type}

@[simp]
theorem Amount.less_iff [OrderedAmount α] {a b : α} : Amount.less a b = true ↔ a < b :=
  OrderedAmount.less_iff_lt a b

/-! ## Grouping and ranking -/

namespace Edge

/-- The more expensive edge comes first, and of equally expensive ones that of the lower id. -/
def Before [OrderedAmount α] (a b : Edge α) : Prop :=
  b.measurement.totalTime < a.measurement.totalTime ∨
    a.measurement.totalTime = b.measurement.totalTime ∧ a.method < b.method

section

variable [ExactAmount α] {edges : List (Edge α)} {method other : MethodId}
  {measurement : Measurement α} {costs : List (MethodId × Measurement α)}

/-- What the edges of a method come to. -/
def costOf (edges : List (Edge α)) (method : MethodId) : Measurement α :=
  ((edges.filter (·.method = method)).map (·.measurement)).sum

theorem costOf_cons (edge : Edge α) (rest : List (Edge α)) (method : MethodId) :
    costOf (edge :: rest) method =
      (if edge.method = method then edge.measurement else 0) + costOf rest method := by
  unfold costOf
  rw [List.filter_cons]
  split <;> simp_all

theorem names_add :
    (add edges method measurement).map (·.method) =
      if method ∈ edges.map (·.method) then edges.map (·.method)
      else edges.map (·.method) ++ [method] := by
  induction edges with
  | nil => rfl
  | cons edge rest ih =>
      rw [add]
      by_cases heq : edge.method = method
      · simp [heq]
      · have hne := Ne.symm heq
        rw [if_neg heq, List.map_cons, ih, List.map_cons]
        simp only [List.mem_cons, hne, false_or]
        split
        · rfl
        · rfl

theorem costOf_add :
    costOf (add edges method measurement) other =
      costOf edges other + if method = other then measurement else 0 := by
  induction edges with
  | nil =>
      rw [add, costOf_cons, Measurement.merge_eq_add, Measurement.empty_eq_zero, zero_add, add_comm]
  | cons edge rest ih =>
      rw [add]
      by_cases heq : edge.method = method
      · rw [if_pos heq, costOf_cons, costOf_cons, Measurement.merge_eq_add, heq]
        by_cases hother : method = other
        · simp only [if_pos hother]
          exact add_right_comm _ _ _
        · simp only [if_neg hother, add_zero]
      · rw [if_neg heq, costOf_cons, costOf_cons, ih, add_assoc]

theorem sum_add :
    ((add edges method measurement).map (·.measurement)).sum =
      (edges.map (·.measurement)).sum + measurement := by
  induction edges with
  | nil => simp [add, Measurement.merge_eq_add, Measurement.empty_eq_zero]
  | cons edge rest ih =>
      rw [add]
      split
      · simp only [List.map_cons, List.sum_cons, Measurement.merge_eq_add]
        exact add_right_comm _ _ _
      · rw [List.map_cons, List.sum_cons, ih, List.map_cons, List.sum_cons, add_assoc]

theorem group_concat (costs : List (MethodId × Measurement α)) (cost : MethodId × Measurement α) :
    group (costs ++ [cost]) = add (group costs) cost.1 cost.2 := by
  rw [group, List.foldl_append]
  rfl

theorem mem_names_group :
    method ∈ (group costs).map (·.method) ↔ method ∈ costs.map (·.1) := by
  induction costs using List.reverseRecOn with
  | nil => rfl
  | append_singleton costs cost ih =>
      rw [group_concat, names_add, List.map_append, List.mem_append, ← ih, List.map_singleton]
      split
      · next hknown =>
          refine ⟨Or.inl, fun hor => hor.elim id fun hlast => ?_⟩
          rwa [List.mem_singleton.mp hlast]
      · exact List.mem_append

theorem nodup_names_group (costs : List (MethodId × Measurement α)) :
    ((group costs).map (·.method)).Nodup := by
  induction costs using List.reverseRecOn with
  | nil => exact List.nodup_nil
  | append_singleton costs cost ih =>
      rw [group_concat, names_add]
      split
      · exact ih
      · next hnew => exact List.nodup_append.mpr ⟨ih, List.nodup_singleton _, by simpa using hnew⟩

theorem costOf_group :
    costOf (group costs) method = ((costs.filter (·.1 = method)).map (·.2)).sum := by
  induction costs using List.reverseRecOn with
  | nil => rfl
  | append_singleton costs cost ih =>
      rw [group_concat, costOf_add, ih, List.filter_append, List.map_append, List.sum_append]
      by_cases heq : cost.1 = method <;> simp [heq]

theorem sum_group : ((group costs).map (·.measurement)).sum = (costs.map (·.2)).sum := by
  induction costs using List.reverseRecOn with
  | nil => rfl
  | append_singleton costs cost ih =>
      rw [group_concat, sum_add, ih, List.map_append, List.sum_append]
      simp

theorem costOf_eq_zero (h : method ∉ edges.map (·.method)) : costOf edges method = 0 := by
  have hnone : edges.filter (·.method = method) = [] := by
    refine List.filter_eq_nil_iff.mpr fun edge hedge heq => h ?_
    exact List.mem_map.mpr ⟨edge, hedge, of_decide_eq_true heq⟩
  rw [costOf, hnone]
  rfl

/-- Where no method has two edges, an edge is what those of its method come to. -/
theorem mem_iff_costOf (h : (edges.map (·.method)).Nodup) :
    ⟨method, measurement⟩ ∈ edges ↔
      method ∈ edges.map (·.method) ∧ measurement = costOf edges method := by
  induction edges with
  | nil => exact iff_of_false nofun fun hmem => nomatch hmem.1
  | cons edge rest ih =>
      obtain ⟨hnew, hrest⟩ := List.nodup_cons.mp h
      rw [List.mem_cons, ih hrest, List.map_cons, List.mem_cons, costOf_cons]
      obtain ⟨own, cost⟩ := edge
      rw [Edge.mk.injEq]
      by_cases heq : own = method
      · subst heq
        rw [if_pos rfl, costOf_eq_zero hnew, add_zero]
        simp [hnew]
      · rw [if_neg heq, zero_add]
        simp [Ne.symm heq]

end

variable [OrderedAmount α] {a b : Edge α}

theorem precedes_iff :
    precedes a b = true ↔ b.measurement.totalTime < a.measurement.totalTime ∨
      a.measurement.totalTime = b.measurement.totalTime ∧ a.method ≤ b.method := by
  unfold precedes
  simp only [Amount.less_iff]
  rcases lt_trichotomy a.measurement.totalTime b.measurement.totalTime with hlt | heq | hgt
  · simp [hlt, hlt.not_gt, hlt.ne]
  · simp [heq]
  · simp [hgt]

theorem precedes_trans (a b c : Edge α) (hab : precedes a b = true)
    (hbc : precedes b c = true) : precedes a c = true := by
  rw [precedes_iff] at *
  rcases hab with hab | ⟨hab, hle⟩ <;> rcases hbc with hbc | ⟨hbc, hle'⟩
  · exact Or.inl (hbc.trans hab)
  · exact Or.inl (hbc ▸ hab)
  · exact Or.inl (hab ▸ hbc)
  · exact Or.inr ⟨hab.trans hbc, Nat.le_trans hle hle'⟩

theorem precedes_total (a b : Edge α) : (precedes a b || precedes b a) = true := by
  rw [Bool.or_eq_true, precedes_iff, precedes_iff]
  rcases lt_trichotomy a.measurement.totalTime b.measurement.totalTime with hlt | heq | hgt
  · exact Or.inr (Or.inl hlt)
  · rcases Nat.le_total a.method b.method with hle | hle
    · exact Or.inl (Or.inr ⟨heq, hle⟩)
    · exact Or.inr (Or.inr ⟨heq.symm, hle⟩)
  · exact Or.inl (Or.inl hgt)

/-- A report on the costs that are named with methods. -/
structure Tallies (edges : List (Edge α)) (costs : List (MethodId × Measurement α)) : Prop where
  mem_iff : ∀ {method : MethodId} {measurement : Measurement α}, ⟨method, measurement⟩ ∈ edges ↔
    method ∈ costs.map (·.1) ∧
      measurement = ((costs.filter (·.1 = method)).map (·.2)).sum
  once : (edges.map (·.method)).Nodup
  ranked : edges.Pairwise Before
  sum_eq : (edges.map (·.measurement)).sum = (costs.map (·.2)).sum

theorem tallies_ranked_group (costs : List (MethodId × Measurement α)) :
    Tallies (ranked (group costs)) costs := by
  have hperm : (ranked (group costs)).Perm (group costs) := List.mergeSort_perm _ _
  have honce : ((ranked (group costs)).map (·.method)).Nodup :=
    (hperm.map _).nodup_iff.mpr (nodup_names_group costs)
  refine ⟨fun {method measurement} => ?_, honce, ?_, (hperm.map _).sum_eq.trans sum_group⟩
  · rw [hperm.mem_iff, mem_iff_costOf (nodup_names_group costs), mem_names_group, costOf_group]
  · have hranked : (ranked (group costs)).Pairwise fun a b => precedes a b = true :=
      List.pairwise_mergeSort precedes_trans precedes_total _
    refine hranked.imp₂ (fun a b hab hne => ?_) (List.pairwise_map.mp honce)
    exact (precedes_iff.mp hab).imp id fun ⟨heq, hle⟩ => ⟨heq, Nat.lt_of_le_of_ne hle hne⟩

end Edge

/-! ## Calls between methods -/

namespace Profile

/-- The method of the parent of a node. -/
def callerOf? (profile : Profile α) (id : NodeId) : Option MethodId :=
  (profile.tree.parent? id).bind profile.methodOf?

/-- The nodes of a method whose parents are nodes of another one. -/
def nodesUnder (profile : Profile α) (caller method : MethodId) : List NodeId :=
  (profile.tree.boundTo method).filter fun id => profile.callerOf? id = some caller

variable [OrderedAmount α] {profile : Profile α}

/-- What some nodes cost, as far as a method can be named for them. -/
def namedCosts (profile : Profile α) (name : NodeId → Option MethodId) (ids : List NodeId) :
    List (MethodId × Measurement α) :=
  ids.filterMap fun id => (name id).map fun method => (method, profile.tree.cost id)

variable {name : NodeId → Option MethodId} {ids : List NodeId} {method : MethodId}

theorem mem_namedCosts :
    method ∈ (profile.namedCosts name ids).map (·.1) ↔
      (ids.filter fun id => name id = some method) ≠ [] := by
  simp [namedCosts]

theorem filter_namedCosts :
    ((profile.namedCosts name ids).filter (·.1 = method)).map (·.2) =
      (ids.filter fun id => name id = some method).map profile.tree.cost := by
  induction ids with
  | nil => rfl
  | cons id rest ih =>
      rw [namedCosts] at ih ⊢
      rw [List.filterMap_cons, List.filter_cons]
      cases hname : name id with
      | none => simpa using ih
      | some own => by_cases heq : own = method <;> simp [heq, ih]

theorem sum_namedCosts :
    ((profile.namedCosts name ids).map (·.2)).sum =
      ((ids.filter fun id => (name id).isSome).map profile.tree.cost).sum := by
  induction ids with
  | nil => rfl
  | cons id rest ih =>
      rw [namedCosts] at ih ⊢
      rw [List.filterMap_cons, List.filter_cons]
      cases hname : name id with
      | none => simpa using ih
      | some own => simp [ih]

/-! ## From below and from above -/

theorem callInto_eq (id : NodeId) :
    profile.callInto id =
      (profile.callerOf? id).map fun caller => (caller, profile.tree.cost id) := by
  unfold callInto callerOf? CallTree.parent? CallTree.cost
  cases profile.tree.node? id with
  | none => rfl
  | some node =>
      rcases hparent : node.parent with _ | parent
      · simp [hparent]
      · cases hcaller : profile.methodOf? parent <;> simp [hparent, hcaller]

theorem callsFrom_eq (id : NodeId) :
    profile.callsFrom id =
      profile.namedCosts profile.methodOf? (profile.tree.children id) := by
  unfold callsFrom namedCosts
  refine List.filterMap_congr fun child _ => ?_
  unfold methodOf? CallTree.cost
  cases profile.tree.node? child <;> rfl

omit [OrderedAmount α] in
theorem mem_boundTo {id : NodeId} :
    id ∈ profile.tree.boundTo method ↔ profile.methodOf? id = some method := by
  rw [CallTree.boundTo, List.mem_filter, List.mem_range, CallTree.origins_getElem?, methodOf?]
  cases hnode : profile.tree.node? id with
  | none => simp
  | some node => simp [CallTree.node?_lt hnode, Node.origin]

omit [OrderedAmount α] in
/-- A record lists the nodes that are bound to its method, and a method without one has none. -/
theorem Sound.nodesOf_eq (hs : profile.Sound) (method : MethodId) :
    profile.nodesOf method = profile.tree.boundTo method := by
  unfold nodesOf
  cases hrecord : profile.methods.record? method with
  | some record => exact hs.listed hrecord
  | none =>
      refine (List.eq_nil_iff_forall_not_mem.mpr fun id hid => ?_).symm
      obtain ⟨node, hnode, rfl⟩ := methodOf?_eq_some (mem_boundTo.mp hid)
      obtain ⟨record, hbound, -⟩ := hs.bound hnode
      rw [hrecord] at hbound
      cases hbound

omit [OrderedAmount α] in
theorem Sound.nodup_below (hs : profile.Sound) (caller : MethodId) :
    ((profile.tree.boundTo caller).flatMap profile.tree.children).Nodup := by
  have hlt : ∀ {id}, id ∈ profile.tree.boundTo caller → id < profile.tree.size :=
    fun hid => List.mem_range.mp (List.mem_filter.mp hid).1
  refine List.nodup_flatMap.mpr ⟨fun id _ => hs.tree.branching.nodup_children id, ?_⟩
  refine (List.nodup_range.filter _).imp_of_mem fun {i j} hi hj hne child hchild hother => ?_
  -- a node has one parent
  rw [hs.tree.mem_children (hlt hi)] at hchild
  rw [hs.tree.mem_children (hlt hj), hchild] at hother
  exact hne (Option.some.inj hother)

omit [OrderedAmount α] in
/-- The children of the nodes of one method that are nodes of another are the nodes of this one
under the first, met in another order. -/
theorem Sound.perm_nodesUnder (hs : profile.Sound) (caller method : MethodId) :
    (((profile.tree.boundTo caller).flatMap profile.tree.children).filter fun id =>
      profile.methodOf? id = some method).Perm (profile.nodesUnder caller method) := by
  have hunder : (profile.nodesUnder caller method).Nodup := (List.nodup_range.filter _).filter _
  refine (List.perm_ext_iff_of_nodup ((hs.nodup_below caller).filter _) hunder).mpr fun id => ?_
  unfold nodesUnder callerOf?
  rw [List.mem_filter, List.mem_filter, List.mem_flatMap, mem_boundTo, decide_eq_true_eq,
    decide_eq_true_eq, and_comm, Option.bind_eq_some_iff]
  refine and_congr_right fun _ => exists_congr fun parent => ?_
  rw [mem_boundTo, and_comm]
  refine and_congr_left fun hparent => ?_
  obtain ⟨node, hnode, -⟩ := methodOf?_eq_some hparent
  exact hs.tree.mem_children (CallTree.node?_lt hnode)

theorem Sound.tallies_callers (hs : profile.Sound) (method : MethodId) :
    Edge.Tallies (profile.callers method)
      (profile.namedCosts profile.callerOf? (profile.tree.boundTo method)) := by
  have hcosts : (profile.nodesOf method).filterMap profile.callInto =
      profile.namedCosts profile.callerOf? (profile.tree.boundTo method) := by
    rw [hs.nodesOf_eq, namedCosts]
    exact List.filterMap_congr fun id _ => callInto_eq id
  rw [callers, hcosts]
  exact Edge.tallies_ranked_group _

theorem Sound.tallies_callees (hs : profile.Sound) (method : MethodId) :
    Edge.Tallies (profile.callees method)
      (profile.namedCosts profile.methodOf?
        ((profile.tree.boundTo method).flatMap profile.tree.children)) := by
  have hcosts : (profile.nodesOf method).flatMap profile.callsFrom =
      profile.namedCosts profile.methodOf?
        ((profile.tree.boundTo method).flatMap profile.tree.children) := by
    rw [hs.nodesOf_eq, namedCosts, List.filterMap_flatMap]
    exact List.flatMap_congr fun id _ => callsFrom_eq id
  rw [callees, hcosts]
  exact Edge.tallies_ranked_group _

theorem Sound.mem_callers (hs : profile.Sound) {caller method : MethodId}
    {measurement : Measurement α} :
    ⟨caller, measurement⟩ ∈ profile.callers method ↔
      profile.nodesUnder caller method ≠ [] ∧
        measurement = ((profile.nodesUnder caller method).map profile.tree.cost).sum := by
  rw [(hs.tallies_callers method).mem_iff, mem_namedCosts, filter_namedCosts]
  rfl

theorem Sound.mem_callees (hs : profile.Sound) {caller method : MethodId}
    {measurement : Measurement α} :
    ⟨method, measurement⟩ ∈ profile.callees caller ↔
      profile.nodesUnder caller method ≠ [] ∧
        measurement = ((profile.nodesUnder caller method).map profile.tree.cost).sum := by
  have hperm := hs.perm_nodesUnder caller method
  rw [(hs.tallies_callees caller).mem_iff, mem_namedCosts, filter_namedCosts,
    (hperm.map _).sum_eq, ne_eq, ← List.perm_nil, hperm.congr_left, List.perm_nil]

omit [OrderedAmount α] in
/-- A node has a caller, unless it is a root. -/
theorem Sound.callerOf?_isSome (hs : profile.Sound) (id : NodeId) :
    (profile.callerOf? id).isSome = (profile.tree.parent? id).isSome := by
  unfold callerOf?
  cases hparent : profile.tree.parent? id with
  | none => rfl
  | some parent =>
      obtain ⟨node, hnode, -⟩ := CallTree.parent?_eq_some hparent
      have hlt := (hs.tree.parent?_lt hparent).trans (CallTree.node?_lt hnode)
      obtain ⟨above, habove⟩ := CallTree.exists_node? hlt
      rw [Option.bind_some, methodOf?_eq habove]
      rfl

/-- The callers of a method paid for its nodes, the roots apart. -/
theorem Sound.sum_callers (hs : profile.Sound) (method : MethodId) :
    ((profile.callers method).map (·.measurement)).sum +
        (((profile.tree.boundTo method).filter fun id =>
          profile.tree.parent? id = none).map profile.tree.cost).sum =
      ((profile.tree.boundTo method).map profile.tree.cost).sum := by
  rw [(hs.tallies_callers method).sum_eq, sum_namedCosts, sum_map_filter, sum_map_filter,
    ← List.sum_map_add]
  refine congrArg List.sum (List.map_congr_left fun id _ => ?_)
  rw [hs.callerOf?_isSome]
  cases profile.tree.parent? id <;> simp

/-- The edges between methods and the nodes that they stand for. -/
structure EdgesAgree (profile : Profile α) : Prop where
  /-- An edge costs what the nodes of the called method under those of the calling one cost. -/
  flow : ∀ {caller method : MethodId} {measurement : Measurement α},
    ⟨caller, measurement⟩ ∈ profile.callers method ↔
      profile.nodesUnder caller method ≠ [] ∧
        measurement = ((profile.nodesUnder caller method).map profile.tree.cost).sum
  mirrored : ∀ {caller method : MethodId} {measurement : Measurement α},
    ⟨caller, measurement⟩ ∈ profile.callers method ↔
      ⟨method, measurement⟩ ∈ profile.callees caller
  once : ∀ method, ((profile.callers method).map (·.method)).Nodup ∧
    ((profile.callees method).map (·.method)).Nodup
  ranked : ∀ method, (profile.callers method).Pairwise Edge.Before ∧
    (profile.callees method).Pairwise Edge.Before
  /-- Part by part: invocations, time in the body, waits and inclusive time. -/
  whole : ∀ method, ((profile.callers method).map (·.measurement)).sum +
      (((profile.tree.boundTo method).filter fun id =>
        profile.tree.parent? id = none).map profile.tree.cost).sum =
    ((profile.tree.boundTo method).map profile.tree.cost).sum

theorem Sound.edgesAgree (hs : profile.Sound) : profile.EdgesAgree where
  flow := hs.mem_callers
  mirrored := hs.mem_callers.trans hs.mem_callees.symm
  once method := ⟨(hs.tallies_callers method).once, (hs.tallies_callees method).once⟩
  ranked method := ⟨(hs.tallies_callers method).ranked, (hs.tallies_callees method).ranked⟩
  whole := hs.sum_callers

end Profile

/-- In every session that can come about, callers and callees are two views of the same edges. -/
theorem Session.Reachable.edges_agree [OrderedAmount α] {dumps : Phase → Prop}
    {session : Session α} (h : Reachable dumps session) {handle : Handle} {context : Context α}
    (hcontext : session.contexts.get? handle = some context) : context.profile.EdgesAgree := by
  obtain ⟨excluded, hlawful⟩ := h.nested
  exact (hlawful.contexts handle context hcontext).orderly.sound.edgesAgree

/-- Two methods that call each other in turn. The two nodes of the second one lie on one path, and
both are on the edge from the first. -/
theorem edges_agree_entwined :
    ∃ context,
      ((Session.unconfigured : Session Int).run
        [.start 0, .event ((Event.call ⟨.owner .plain, "A"⟩ "f").sampled 10),
          .event ((Event.call ⟨.owner .plain, "A"⟩ "g").sampled 12),
          .event ((Event.call ⟨.owner .plain, "A"⟩ "f").sampled 15),
          .event ((Event.call ⟨.owner .plain, "A"⟩ "g").sampled 16),
          .stop 30]).contexts.get? 0 = some context ∧
      context.profile.EdgesAgree ∧ context.profile.nodesUnder 0 1 = [1, 3] ∧
      ⟨0, ⟨17, 0, 32, 2⟩⟩ ∈ context.profile.callers 1 ∧
      ⟨1, ⟨17, 0, 32, 2⟩⟩ ∈ context.profile.callees 0 := by
  generalize hrun : Session.run (α := Int) _ _ = session
  have hshown : (session.contexts.get? 0).map (fun context =>
      (context.profile.nodesUnder 0 1,
        ((context.profile.nodesUnder 0 1).map context.profile.tree.cost).sum)) =
      some ([1, 3], ⟨17, 0, 32, 2⟩) := by
    rw [← hrun]
    decide +kernel
  obtain ⟨context, hcontext, hpair⟩ := Option.map_eq_some_iff.mp hshown
  rw [Prod.mk.injEq] at hpair
  have hreachable : Session.Reachable (fun _ => True) session :=
    hrun ▸ (Session.reachable_unconfigured _).run _
  have hagree := hreachable.edges_agree hcontext
  have hedge := hagree.flow.mpr ⟨by rw [hpair.1]; exact List.cons_ne_nil _ _, hpair.2.symm⟩
  exact ⟨context, hcontext, hagree, hpair.1, hedge, hagree.mirrored.mp hedge⟩

end CallLedger
