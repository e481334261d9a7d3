import CallLedger.Proofs.Books

/-!
# Records and nodes agree

The record of a method and the nodes bound to the method say the same in every
context of every session that can come about. Calls, self and waiting time of the
record are the sums over its nodes. Inclusive time is the sum over the outermost
ones: where a method comes up below itself, by whatever detour, the inner node
is part of what the outer one took.

This is `Accounted.balanced` read node by node. The share of a node in the cost of
a method (`share_node`) asks whether the node is bound to the method and whether
it is outermost, and the list of nodes in the record is the list of those that
are bound to it (`Sound.listed`).
-/

namespace CallLedger

variable {α : Type}

namespace Profile

theorem Rooted.root_iff {profile : Profile α} (hroots : profile.Rooted) (hs : profile.Sound)
    {id : Nat}
    {record : MethodRecord α} (hrecord : profile.methods.record? id = some record) :
    record.root = true ↔ ∃ node ∈ record.nodes, profile.tree.parent? node = none := by
  have hmark : record.root = true ↔ profile.methods.HasRoot record.method := by
    constructor
    · exact fun h => ⟨id, record, hrecord, rfl, h⟩
    · rintro ⟨i, found, hi, hmethod, h⟩
      obtain rfl := hs.methods.method_inj hi hrecord hmethod
      rw [hrecord] at hi
      cases hi
      exact h
  rw [hmark, hroots]
  constructor
  · rintro ⟨node, hlt, hpath⟩
    obtain ⟨found, own, hnode, hown, -, heq⟩ := hs.exists_path_eq hlt
    rw [hpath, List.cons.injEq] at heq
    have hbound : profile.methodOf? node = some id := by
      rw [methodOf?_eq hnode, hs.methods.method_inj hown hrecord heq.1.symm]
    refine ⟨node, (hs.mem_nodes hrecord).mpr hbound, ?_⟩
    rw [CallTree.parent?_eq hnode]
    cases hp : found.parent with
    | none => rfl
    | some parent =>
        rw [hp] at heq
        have hparent := hs.tree.parent_lt hnode hp
        exact absurd heq.2.symm (hs.path_ne_nil (hparent.trans hlt))
  · rintro ⟨node, hnode, hparent⟩
    obtain ⟨found, hfound, rfl⟩ := methodOf?_eq_some ((hs.mem_nodes hrecord).mp hnode)
    have hpath := hs.path_eq hfound hrecord
    rw [CallTree.parent?_eq hfound] at hparent
    rw [hparent] at hpath
    exact ⟨node, CallTree.node?_lt hfound, hpath⟩

/-- No node above this one is bound to the same method. -/
def isOutermost (profile : Profile α) (id : NodeId) : Bool :=
  (profile.tree.ancestors id).all fun above => profile.methodOf? above ≠ profile.methodOf? id

/-- A record and the nodes of its method tell one story. -/
structure RecordAgrees [ExactAmount α] (profile : Profile α) (id : MethodId)
    (record : MethodRecord α) : Prop where
  nodup : record.nodes.toList.Nodup
  nodes : ∀ node, node ∈ record.nodes ↔ profile.methodOf? node = some id
  called : record.measurement.called =
    (record.nodes.toList.map fun node => (profile.tree.cost node).called).sum
  selfTime : record.measurement.selfTime =
    (record.nodes.toList.map fun node => (profile.tree.cost node).selfTime).sum
  waitTime : record.measurement.waitTime =
    (record.nodes.toList.map fun node => (profile.tree.cost node).waitTime).sum
  totalTime : record.measurement.totalTime =
    ((record.nodes.toList.filter profile.isOutermost).map
      fun node => (profile.tree.cost node).totalTime).sum
  excluded : record.excluded = true → record.nodes = #[] ∧ record.measurement = .empty
  root : record.root = true ↔ ∃ node ∈ record.nodes, profile.tree.parent? node = none

variable [ExactAmount α] {exclusions : Exclusions} {profile : Profile α} {calls : List (OpenCall α)}

/-- What a node has to say about a method. -/
theorem Sound.share_node (hs : profile.Sound) {id method : Nat} {record : MethodRecord α}
    (hrecord : profile.methods.record? method = some record) (hid : id < profile.tree.size)
    (cost : Measurement α) :
    share record.method (profile.path id) cost =
      if profile.methodOf? id = some method then
        if profile.isOutermost id then cost else { cost with totalTime := 0 }
      else 0 := by
  obtain ⟨node, own, hnode, hown, -, hpath⟩ := hs.exists_path_eq hid
  have hmethod := methodOf?_eq hnode
  have hsame : record.method = own.method ↔ profile.methodOf? id = some method := by
    rw [hmethod, Option.some.injEq]
    constructor
    · exact fun h => hs.methods.method_inj hown hrecord h.symm
    · rintro rfl
      rw [hrecord] at hown
      cases hown
      rfl
  have htail : (profile.path id).tail = profile.pathTo node.parent := by
    rw [hpath]
    rfl
  have hinner : own.method ∈ profile.pathTo node.parent ↔ ¬ profile.isOutermost id = true := by
    rw [← htail, hs.mem_tail_path hown hid, isOutermost, hmethod]
    simp
  rw [hpath, share_cons]
  by_cases h : record.method = own.method
  · rw [if_pos h, if_pos (hsame.mp h)]
    by_cases houter : profile.isOutermost id = true
    · rw [if_neg fun hmem => hinner.mp hmem houter, if_pos houter]
    · rw [if_pos (hinner.mpr houter), if_neg houter]
  · rw [if_neg h, if_neg fun hbound => h (hsame.mpr hbound)]

/-- What a record says is the sum of what its nodes have to say. -/
theorem Accounted.measurement_eq (h : profile.Accounted exclusions calls) {id : Nat}
    {record : MethodRecord α} (hrecord : profile.methods.record? id = some record) :
    record.measurement =
      (record.nodes.toList.map fun node =>
        if profile.isOutermost node then profile.tree.cost node
        else { profile.tree.cost node with totalTime := 0 }).sum := by
  have hnodes := h.sound.boundTo_eq hrecord
  calc record.measurement
      = summary record.method profile.ledger := by
        rw [← h.balanced, h.sound.methods.spent_record hrecord]
    _ = ∑ node ∈ Finset.range profile.tree.size,
          share record.method (profile.path node) (profile.tree.cost node) :=
        liftAddHom_ledger (share record.method) profile
    _ = ∑ node ∈ Finset.range profile.tree.size,
          if profile.methodOf? node = some id then
            if profile.isOutermost node then profile.tree.cost node
            else { profile.tree.cost node with totalTime := 0 }
          else 0 :=
        Finset.sum_congr rfl fun node hnode =>
          h.sound.share_node hrecord (Finset.mem_range.mp hnode) _
    _ = _ := by
        rw [hnodes, sum_map_filter]
        simp only [decide_eq_true_eq]
        rfl

/-- Kept accounts are accounts that agree. -/
theorem Accounted.recordAgrees (h : profile.Accounted exclusions calls)
    (hroots : profile.Rooted) {id : Nat} {record : MethodRecord α}
    (hrecord : profile.methods.record? id = some record) : RecordAgrees profile id record := by
  have hlist := h.sound.boundTo_eq hrecord
  have hsum := h.measurement_eq hrecord
  have hpart : ∀ {β : Type} [AddCommMonoid β] (part : Measurement α →+ β),
      part record.measurement = (record.nodes.toList.map fun node =>
        part (if profile.isOutermost node then profile.tree.cost node
          else { profile.tree.cost node with totalTime := 0 })).sum := by
    intro β _ part
    rw [hsum, map_list_sum, List.map_map]
    rfl
  have hplain : ∀ {β : Type} [AddCommMonoid β] (part : Measurement α →+ β),
      (∀ cost, part { cost with totalTime := 0 } = part cost) →
      part record.measurement =
        (record.nodes.toList.map fun node => part (profile.tree.cost node)).sum := by
    intro β _ part hdrop
    rw [hpart]
    refine congrArg List.sum (List.map_congr_left fun node _ => ?_)
    split
    · rfl
    · exact hdrop _
  refine ⟨?_, fun _ => h.sound.mem_nodes hrecord, hplain Measurement.calledPart fun _ => rfl,
    hplain Measurement.selfPart fun _ => rfl, hplain Measurement.waitPart fun _ => rfl, ?_,
    fun hexcluded => ?_, hroots.root_iff h.sound hrecord⟩
  · rw [hlist]
    exact List.nodup_range.filter _
  · rw [sum_map_filter]
    refine (hpart Measurement.totalPart).trans ?_
    refine congrArg List.sum (List.map_congr_left fun node _ => ?_)
    split
    · rfl
    · rfl
  · have hnone := h.toOrdered.nodes_of_excluded hrecord hexcluded
    refine ⟨hnone, ?_⟩
    rw [hsum, hnone]
    rfl

end Profile

/-- In every session that can come about, in every context, records and nodes
agree. -/
theorem Session.Reachable.records_agree [ExactAmount α] {session : Session α}
    (h : Reachable (fun _ => True) session) {handle : Handle} {context : Context α}
    (hcontext : session.contexts.get? handle = some context) {id : MethodId}
    {record : MethodRecord α} (hrecord : context.profile.methods.record? id = some record) :
    context.profile.RecordAgrees id record := by
  obtain ⟨excluded, hlawful⟩ := h.lawful Context.keptLaw (survives_kept _)
  have hkept := hlawful.contexts handle context hcontext
  exact hkept.accounted.recordAgrees hkept.rooted hrecord

/-- In the middle of a run in which `f` called `g` and `g` called `f`, the record of
`f` has both nodes, and so far the time of the call that has ended. -/
theorem records_agree_mutual :
    ∃ context record,
      ((Session.unconfigured : Session Int).run
        [.start 0, .event ((Event.call ⟨.owner .plain, "A"⟩ "f").sampled 10),
          .event ((Event.call ⟨.owner .plain, "A"⟩ "g").sampled 15),
          .event ((Event.call ⟨.owner .plain, "A"⟩ "f").sampled 20),
          .event (Event.returned.sampled 30)]).contexts.get? 0 = some context ∧
      context.profile.methods.record? 0 = some record ∧
      record.measurement = ⟨10, 0, 0, 2⟩ ∧ record.nodes = #[0, 2] ∧
      context.profile.RecordAgrees 0 record := by
  generalize hrun : Session.run (α := Int) _ _ = session
  have hshown : ((session.contexts.get? 0).bind fun context =>
      (context.profile.methods.record? 0).map fun record =>
        (record.measurement, record.nodes)) = some (⟨10, 0, 0, 2⟩, #[0, 2]) := by
    rw [← hrun]
    decide +kernel
  obtain ⟨context, hcontext, hmap⟩ := Option.bind_eq_some_iff.mp hshown
  obtain ⟨record, hrecord, hpair⟩ := Option.map_eq_some_iff.mp hmap
  have hreachable : Session.Reachable (fun _ => True) session :=
    hrun ▸ (Session.reachable_unconfigured _).run _
  rw [Prod.mk.injEq] at hpair
  exact ⟨context, record, hcontext, hrecord, hpair.1, hpair.2,
    hreachable.records_agree hcontext hrecord⟩

end CallLedger
