import CallLedger.Proofs.OpenCalls

/-!
# Visits and exclusions

The visit counters of records and nodes count open calls, a record is marked as
excluded when its method is, and no node is bound to such a record. None of
this is about cost; it is the order in which accounts are kept (`Ordered`), and
it holds also in the middle of a merge, when records and nodes do not agree
yet.

What can happen to a profile is noting something on a record (`Ordered.note`),
learning a method (`Ordered.learn`), attaching a node (`Ordered.attach`), and
changing a node and the record of its method together while calls are opened or
closed (`Ordered.book`).
-/

namespace CallLedger.Profile

variable {α : Type}

structure Ordered (exclusions : Exclusions) (profile : Profile α)
    (calls : List (OpenCall α)) : Prop where
  sound : profile.Sound
  stacked : profile.Stacked calls
  nodeVisits : ∀ {id : Nat} {node : Node α}, profile.tree.node? id = some node →
    node.visits = calls.countP (·.node = id)
  methodVisits : ∀ {id : Nat} {record : MethodRecord α},
    profile.methods.record? id = some record → record.visits = calls.countP (·.method = id)
  excluded : ∀ {id : Nat} {record : MethodRecord α},
    profile.methods.record? id = some record →
      record.excluded = exclusions.contains record.method
  /-- No node is bound to an excluded method. -/
  unbound : ∀ {id : Nat} {node : Node α} {record : MethodRecord α},
    profile.tree.node? id = some node →
      profile.methods.record? node.method = some record → record.excluded = false

variable {exclusions : Exclusions} {profile : Profile α} {calls : List (OpenCall α)}

theorem ordered_empty [Amount α] : Ordered exclusions (empty : Profile α) [] where
  sound := sound_empty
  stacked := trivial
  nodeVisits hid := absurd (CallTree.node?_lt hid) (Nat.not_lt_zero _)
  methodVisits hid := absurd (Registry.record?_lt hid) (Nat.not_lt_zero _)
  excluded hid := absurd (Registry.record?_lt hid) (Nat.not_lt_zero _)
  unbound hid := absurd (CallTree.node?_lt hid) (Nat.not_lt_zero _)

/-! ## The nodes of a method -/

theorem Sound.boundTo_eq (hs : profile.Sound) {id : Nat} {record : MethodRecord α}
    (hrecord : profile.methods.record? id = some record) :
    record.nodes.toList =
      (List.range profile.tree.size).filter fun node => profile.methodOf? node = some id := by
  rw [hs.listed hrecord, CallTree.boundTo]
  refine List.filter_congr fun node _ => ?_
  rw [CallTree.origins_getElem?, methodOf?]
  cases profile.tree.node? node with
  | none => rfl
  | some found => simp [Node.origin]

theorem Sound.mem_nodes (hs : profile.Sound) {id node : Nat}
    {record : MethodRecord α} (hrecord : profile.methods.record? id = some record) :
    node ∈ record.nodes ↔ profile.methodOf? node = some id := by
  rw [← Array.mem_toList_iff, hs.boundTo_eq hrecord, List.mem_filter, List.mem_range,
    decide_eq_true_eq]
  refine and_iff_right_of_imp fun hbound => ?_
  obtain ⟨found, hfound, -⟩ := methodOf?_eq_some hbound
  exact CallTree.node?_lt hfound

/-- An excluded method has no nodes. -/
theorem Ordered.nodes_of_excluded (h : Ordered exclusions profile calls) {id : Nat}
    {record : MethodRecord α} (hrecord : profile.methods.record? id = some record)
    (hexcluded : record.excluded = true) : record.nodes = #[] := by
  refine Array.eq_empty_iff_forall_not_mem.mpr fun node hnode => ?_
  obtain ⟨found, hfound, rfl⟩ := methodOf?_eq_some ((h.sound.mem_nodes hrecord).mp hnode)
  rw [h.unbound hfound hrecord] at hexcluded
  cases hexcluded

/-! ## What can happen to a profile -/

/-- Notes about a method that concern neither its calls nor its exclusion. -/
theorem Ordered.note (h : Ordered exclusions profile calls) (id : Nat)
    (change : MethodRecord α → MethodRecord α)
    (hkey : ∀ record, (change record).key = record.key)
    (hmethod : ∀ record, (change record).method = record.method)
    (hnodes : ∀ record, (change record).nodes = record.nodes)
    (hexcluded : ∀ record, (change record).excluded = record.excluded)
    (hvisits : ∀ record, (change record).visits = record.visits) :
    Ordered exclusions (profile.modifyMethod id change) calls := by
  have hshape : SameShape profile (profile.modifyMethod id change) :=
    sameShape_modifyMethod hkey hmethod hnodes
  have hs := h.sound.of_shape hshape
  refine ⟨hs, h.stacked.of_grows hshape.grows, h.nodeVisits, ?_, ?_, ?_⟩
  · intro i after hi
    obtain ⟨before, hbefore, ⟨-, rfl⟩ | ⟨-, rfl⟩⟩ := Registry.record?_modify_cases hi
    · rw [hvisits]
      exact h.methodVisits hbefore
    · exact h.methodVisits hbefore
  · intro i after hi
    obtain ⟨before, hbefore, ⟨-, rfl⟩ | ⟨-, rfl⟩⟩ := Registry.record?_modify_cases hi
    · rw [hexcluded, hmethod]
      exact h.excluded hbefore
    · exact h.excluded hbefore
  · intro i node after hnode hi
    obtain ⟨before, hbefore, ⟨-, rfl⟩ | ⟨-, rfl⟩⟩ := Registry.record?_modify_cases hi
    · rw [hexcluded]
      exact h.unbound hnode hbefore
    · exact h.unbound hnode hbefore

/-- A method that was not known, and of which nothing is known yet. -/
theorem Ordered.learn (h : Ordered exclusions profile calls) {record : MethodRecord α}
    (hlocate : profile.methods.locate record.method = .free record.key)
    (hnodes : record.nodes = #[]) (hvisits : record.visits = 0)
    (hexcluded : record.excluded = exclusions.contains record.method) :
    Ordered exclusions { profile with methods := profile.methods.push record } calls := by
  have hs := h.sound.learn hlocate hnodes
  have hgrows : Grows profile { profile with methods := profile.methods.push record } :=
    grows_learn
  refine ⟨hs, h.stacked.of_grows hgrows, h.nodeVisits, ?_, ?_, ?_⟩
  · intro i after hi
    rw [Registry.record?_push] at hi
    split at hi
    · next heq =>
        cases hi
        rw [hvisits, eq_comm, List.countP_eq_zero]
        intro call hcall
        obtain ⟨node, hnode, hmethod⟩ := methodOf?_eq_some (h.stacked.methodOf? hcall)
        obtain ⟨known, hknown, -⟩ := h.sound.bound hnode
        have hlt := Registry.record?_lt hknown
        rw [hmethod] at hlt
        rw [decide_eq_true_eq, heq]
        exact Nat.ne_of_lt hlt
    · exact h.methodVisits hi
  · intro i after hi
    rw [Registry.record?_push] at hi
    split at hi
    · cases hi
      exact hexcluded
    · exact h.excluded hi
  · intro i node after hnode hi
    obtain ⟨known, hknown, -⟩ := h.sound.bound hnode
    rw [Registry.record?_push, if_neg (Nat.ne_of_lt (Registry.record?_lt hknown))] at hi
    exact h.unbound hnode hi

/-- A node for a method that may have one. -/
theorem Ordered.attach [Amount α] (h : Ordered exclusions profile calls) {parent : Option NodeId}
    {method : Nat} {record : MethodRecord α} (site : CallSite)
    (hrecord : profile.methods.record? method = some record)
    (hparent : profile.HasParent parent)
    (hnew : profile.tree.childOf? parent record.key = none)
    (hexcluded : record.excluded = false) :
    Ordered exclusions (profile.attach parent method site) calls := by
  have hs := h.sound.attach site hrecord hparent hnew
  have hgrows := grows_attach site hrecord hparent
  have hfresh := hparent.fresh method record.key site
  rw [attach_of_record hrecord] at hs hgrows ⊢
  have hback : ∀ {i : Nat} {after : MethodRecord α},
      (profile.methods.modify method fun r =>
        { r with nodes := r.nodes.push profile.tree.size }).record? i = some after →
      ∃ before, profile.methods.record? i = some before ∧ after.excluded = before.excluded ∧
        after.method = before.method ∧ after.visits = before.visits := by
    intro i after hi
    obtain ⟨before, hbefore, ⟨-, rfl⟩ | ⟨-, rfl⟩⟩ := Registry.record?_modify_cases hi
    · exact ⟨before, hbefore, rfl, rfl, rfl⟩
    · exact ⟨after, hbefore, rfl, rfl, rfl⟩
  refine ⟨hs, h.stacked.of_grows hgrows, ?_, ?_, ?_, ?_⟩
  · intro i node hi
    rcases CallTree.node?_link_cases hfresh hi with ⟨rfl, rfl⟩ | ⟨before, hbefore, -, -, hvisits⟩
    · show 0 = _
      rw [eq_comm, List.countP_eq_zero]
      intro call hcall
      rw [decide_eq_true_eq]
      exact Nat.ne_of_lt (h.stacked.node_lt hcall)
    · rw [← hvisits]
      exact h.nodeVisits hbefore
  · intro i after hi
    obtain ⟨before, hbefore, -, -, hvisits⟩ := hback hi
    rw [hvisits]
    exact h.methodVisits hbefore
  · intro i after hi
    obtain ⟨before, hbefore, hexcludes, hmethods, -⟩ := hback hi
    rw [hexcludes, hmethods]
    exact h.excluded hbefore
  · intro i node after hnode hi
    obtain ⟨before, hbefore, hexcludes, -, -⟩ := hback hi
    rw [hexcludes]
    rcases CallTree.node?_link_cases hfresh hnode with ⟨-, rfl⟩ | ⟨old, hold, horigin, -, -⟩
    · have hsame : profile.methods.record? method = some before := hbefore
      rw [hrecord] at hsame
      cases hsame
      exact hexcluded
    · rw [← (Node.of_origin horigin).1] at hbefore
      exact h.unbound hold hbefore

/-- A method is looked up, and gets its record on first sight. -/
theorem Ordered.knowing [Amount α] (h : Ordered exclusions profile calls) {method : Method}
    {methods : Registry α} {id : Nat}
    (hentered : profile.methods.Entered method (exclusions.contains method) methods id) :
    Ordered exclusions { profile with methods := methods } calls ∧
      Grows profile { profile with methods := methods } := by
  cases hentered with
  | known _ => exact ⟨h, Grows.refl _⟩
  | @new record hmethod hlocate hunseen hexcluded =>
      exact ⟨h.learn hlocate hunseen.nodes hunseen.visits (by rw [hexcluded, hmethod]),
        grows_learn⟩

/-- A child is there, or is put there. -/
theorem Ordered.leads [Amount α] (h : Ordered exclusions profile calls) {parent : Option NodeId}
    {method : Nat} {record : MethodRecord α} (site : CallSite)
    (hrecord : profile.methods.record? method = some record)
    (hparent : profile.HasParent parent) (hexcluded : record.excluded = false) :
    Ordered exclusions (profile.child parent method site).1 calls ∧
      Grows profile (profile.child parent method site).1 ∧
      ∃ node, (profile.child parent method site).1.tree.node?
          (profile.child parent method site).2 = some node ∧
        node.method = method ∧ node.parent = parent := by
  rw [child_of_record hrecord]
  cases hchild : profile.tree.childOf? parent record.key with
  | some id =>
      obtain ⟨node, hnode, hp, hkey⟩ := (h.sound.childOf?_eq_some_iff hparent).mp hchild
      obtain ⟨found, hfound, hkeys⟩ := h.sound.bound hnode
      have hmethod := h.sound.methods.key_inj hfound hrecord (hkeys.trans hkey)
      exact ⟨h, Grows.refl _, node, hnode, hmethod, hp⟩
  | none =>
      exact ⟨h.attach site hrecord hparent hchild hexcluded, grows_attach site hrecord hparent,
        _, node?_attach site hrecord hparent, rfl, rfl⟩

/-- A node changes in what no call and no link depends on. -/
theorem Ordered.modifyNode (h : Ordered exclusions profile calls) (id : Nat)
    (note : Node α → Node α) (horigin : ∀ node, (note node).origin = node.origin)
    (hlinks : ∀ node, (note node).links = node.links)
    (hvisits : ∀ node, (note node).visits = node.visits) :
    Ordered exclusions (profile.modifyNode id note) calls := by
  have hshape : SameShape profile (profile.modifyNode id note) :=
    sameShape_modifyNode horigin hlinks
  have hback : ∀ {i : Nat} {after : Node α}, (profile.modifyNode id note).tree.node? i =
      some after → ∃ before, profile.tree.node? i = some before ∧
        before.method = after.method ∧ after.visits = before.visits := by
    intro i after hi
    obtain ⟨before, hbefore, ⟨-, rfl⟩ | ⟨-, rfl⟩⟩ := CallTree.node?_modify_cases hi
    · exact ⟨before, hbefore, (Node.of_origin (horigin before)).1.symm, hvisits before⟩
    · exact ⟨after, hbefore, rfl, rfl⟩
  refine ⟨h.sound.of_shape hshape, h.stacked.of_grows hshape.grows, ?_, h.methodVisits,
    h.excluded, ?_⟩
  · intro i after hi
    obtain ⟨before, hbefore, -, hsame⟩ := hback hi
    rw [hsame]
    exact h.nodeVisits hbefore
  · intro i after record hi hrecord
    obtain ⟨before, hbefore, hmethod, -⟩ := hback hi
    exact h.unbound hbefore (hmethod ▸ hrecord)

/-- A node and the record of its method change while calls are opened or closed. -/
theorem Ordered.book (h : Ordered exclusions profile calls) {id : Nat} {node : Node α}
    {record : MethodRecord α} (hnode : profile.tree.node? id = some node)
    (hrecord : profile.methods.record? node.method = some record)
    (note : Node α → Node α) (change : MethodRecord α → MethodRecord α)
    {after : List (OpenCall α)}
    (horigin : ∀ node, (note node).origin = node.origin)
    (hlinks : ∀ node, (note node).links = node.links)
    (hkey : ∀ record, (change record).key = record.key)
    (hmethod : ∀ record, (change record).method = record.method)
    (hnodes : ∀ record, (change record).nodes = record.nodes)
    (hexcluded : ∀ record, (change record).excluded = record.excluded)
    (hstacked : profile.Stacked after)
    (hnodeVisits : (note node).visits = after.countP (·.node = id))
    (hotherNodes : ∀ i ≠ id, after.countP (·.node = i) = calls.countP (·.node = i))
    (hmethodVisits : (change record).visits = after.countP (·.method = node.method))
    (hotherMethods : ∀ i ≠ node.method,
      after.countP (·.method = i) = calls.countP (·.method = i)) :
    Ordered exclusions ((profile.modifyNode id note).modifyMethod node.method change)
      after := by
  have hcharge : SameShape profile (profile.modifyNode id note) :=
    sameShape_modifyNode horigin hlinks
  have htake : SameShape (profile.modifyNode id note)
      ((profile.modifyNode id note).modifyMethod node.method change) :=
    sameShape_modifyMethod hkey hmethod hnodes
  have hshape := hcharge.trans htake
  have hs := h.sound.of_shape hshape
  refine ⟨hs, hstacked.of_grows hshape.grows, ?_, ?_, ?_, ?_⟩
  · intro i found hi
    obtain ⟨before, hbefore, ⟨rfl, rfl⟩ | ⟨hne, rfl⟩⟩ := CallTree.node?_modify_cases hi
    · rw [hnode] at hbefore
      cases hbefore
      exact hnodeVisits
    · rw [hotherNodes i hne]
      exact h.nodeVisits hbefore
  · intro i found hi
    obtain ⟨before, hbefore, ⟨rfl, rfl⟩ | ⟨hne, rfl⟩⟩ := Registry.record?_modify_cases hi
    · have hsame : profile.methods.record? node.method = some before := hbefore
      rw [hrecord] at hsame
      cases hsame
      exact hmethodVisits
    · rw [hotherMethods i hne]
      exact h.methodVisits hbefore
  · intro i found hi
    obtain ⟨before, hbefore, ⟨-, rfl⟩ | ⟨-, rfl⟩⟩ := Registry.record?_modify_cases hi
    · rw [hexcluded, hmethod]
      exact h.excluded hbefore
    · exact h.excluded hbefore
  · intro i found after hi hafter
    obtain ⟨before, hbefore, horigins, -⟩ := hshape.node? hi
    have hsame : before.method = found.method := (Node.of_origin horigins).1
    rw [← hsame] at hafter
    obtain ⟨old, hold, ⟨-, rfl⟩ | ⟨-, rfl⟩⟩ := Registry.record?_modify_cases hafter
    · rw [hexcluded]
      exact h.unbound hbefore hold
    · exact h.unbound hbefore hold

theorem countP_credited [Amount α] (time : α) (calls : List (OpenCall α))
    (counts : OpenCall α → Bool)
    (hcounts : ∀ call : OpenCall α,
      counts { call with childTime := call.childTime + time } = counts call) :
    (credited time calls).countP counts = calls.countP counts := by
  cases calls with
  | nil => rfl
  | cons call below => rw [credited, List.countP_cons, List.countP_cons, hcounts]

/-- Opening a call at a node. -/
theorem Ordered.enter [Amount α] (h : Ordered exclusions profile calls) {id method : Nat}
    (hmethod : profile.methodOf? id = some method)
    (hplace : innermost calls = some id ∨ profile.tree.parent? id = innermost calls)
    (time : α) :
    Ordered exclusions (profile.enter id method) (⟨id, method, time⟩ :: calls) := by
  obtain ⟨node, hnode, rfl⟩ := methodOf?_eq_some hmethod
  obtain ⟨record, hrecord, -⟩ := h.sound.bound hnode
  refine h.book hnode hrecord Node.entered MethodRecord.entered (fun _ => rfl) (fun _ => rfl)
    (fun _ => rfl) (fun _ => rfl) (fun _ => rfl) (fun _ => rfl)
    ⟨hmethod, hplace, h.stacked⟩ ?_ ?_ ?_ ?_
  · show node.visits + 1 = _
    rw [h.nodeVisits hnode, List.countP_cons_of_pos (by simp)]
  · intro i hne
    rw [List.countP_cons_of_neg (by simpa using hne.symm)]
  · show record.visits + 1 = _
    rw [h.methodVisits hrecord, List.countP_cons_of_pos (by simp)]
  · intro i hne
    rw [List.countP_cons_of_neg (by simpa using hne.symm)]

/-- Closing the innermost call. -/
theorem Ordered.close [Amount α] {call : OpenCall α} {below : List (OpenCall α)}
    (h : Ordered exclusions profile (call :: below)) (selfTime waitTime totalTime : α) :
    Ordered exclusions (profile.settle call.node call.method selfTime waitTime totalTime)
      (credited totalTime below) := by
  obtain ⟨node, hnode, hmethod⟩ := methodOf?_eq_some (h.stacked.methodOf? List.mem_cons_self)
  obtain ⟨record, hrecord, -⟩ := h.sound.bound hnode
  rw [← hmethod]
  refine h.book hnode hrecord (·.settled selfTime waitTime totalTime)
    (·.settled selfTime waitTime totalTime) (fun _ => rfl) (fun _ => rfl) (fun _ => rfl)
    (fun _ => rfl) (fun _ => rfl) (fun _ => rfl) (h.stacked.2.2.credited totalTime) ?_ ?_ ?_ ?_
  · show node.visits - 1 = _
    rw [h.nodeVisits hnode, List.countP_cons_of_pos (by simp), Nat.add_sub_cancel,
      countP_credited _ _ _ fun _ => rfl]
  · intro i hne
    rw [List.countP_cons_of_neg (by simpa using hne.symm), countP_credited _ _ _ fun _ => rfl]
  · show record.visits - 1 = _
    rw [h.methodVisits hrecord, hmethod, List.countP_cons_of_pos (by simp), Nat.add_sub_cancel,
      countP_credited _ _ _ fun _ => rfl]
  · intro i hne
    rw [hmethod] at hne
    rw [List.countP_cons_of_neg (by simpa using hne.symm), countP_credited _ _ _ fun _ => rfl]

theorem Ordered.nodeVisits_eq_one {call : OpenCall α} {below : List (OpenCall α)}
    (h : Ordered exclusions profile (call :: below)) {node : Node α}
    (hnode : profile.tree.node? call.node = some node) :
    node.visits = 1 ↔ ∀ other ∈ below, other.node ≠ call.node := by
  rw [h.nodeVisits hnode, List.countP_cons_of_pos (by simp), Nat.add_eq_right,
    List.countP_eq_zero]
  exact forall₂_congr fun other _ => not_congr decide_eq_true_iff

theorem Ordered.methodVisits_eq_one {call : OpenCall α} {below : List (OpenCall α)}
    (h : Ordered exclusions profile (call :: below)) {record : MethodRecord α}
    (hrecord : profile.methods.record? call.method = some record) :
    record.visits = 1 ↔ ∀ other ∈ below, other.method ≠ call.method := by
  rw [h.methodVisits hrecord, List.countP_cons_of_pos (by simp), Nat.add_eq_right,
    List.countP_eq_zero]
  exact forall₂_congr fun other _ => not_congr decide_eq_true_iff

/-- The counter of a method is down to one exactly when that of the node is and
the method does not come up further along the path. -/
theorem Ordered.last_visit_iff {call : OpenCall α} {below : List (OpenCall α)}
    (h : Ordered exclusions profile (call :: below)) {node : Node α}
    {record : MethodRecord α} (hnode : profile.tree.node? call.node = some node)
    (hrecord : profile.methods.record? call.method = some record) :
    record.visits = 1 ↔ node.visits = 1 ∧ record.method ∉ (profile.path call.node).tail := by
  rw [h.nodeVisits_eq_one hnode, h.methodVisits_eq_one hrecord,
    h.sound.mem_tail_path hrecord (h.stacked.node_lt List.mem_cons_self)]
  have honly := h.stacked.only_call_iff h.sound
  simp only [not_exists, not_and]
  exact honly

end CallLedger.Profile
