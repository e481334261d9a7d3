import CallLedger.Proofs.Filing
import CallLedger.Proofs.Merging

/-!
# Merged profiles are sums

What merging profiles comes to when it is done, for any number of them: of every
method there is a record exactly when one of the profiles had one, and at every
call path a node exactly when one of them had a node there; each holds what all
of them hold together, and the node stands where that of the first one stood
(`SumOf`). Two profiles are looked at once, and the rest is adding one profile
after another to the sum of those before.
-/

namespace CallLedger.Profile

variable {α : Type}

/-! ## The nodes at a path -/

/-- What a call tree has at a path. -/
def nodesAt (profile : Profile α) (path : List Method) : List (Node α) :=
  ((List.range profile.tree.size).filter fun id => profile.path id = path).filterMap
    profile.tree.node?

theorem Sound.nodesAt_path {profile : Profile α} (hs : profile.Sound) {id : Nat} {node : Node α}
    (hnode : profile.tree.node? id = some node) :
    profile.nodesAt (profile.path id) = [node] := by
  have hlt := CallTree.node?_lt hnode
  have halone : (List.range profile.tree.size).Pairwise fun i j =>
      ¬(decide (profile.path i = profile.path id) = true ∧
        decide (profile.path j = profile.path id) = true) := by
    refine List.nodup_range.imp_of_mem fun {i j} hi hj hne hboth => hne ?_
    exact hs.path_inj (List.mem_range.mp hi) (List.mem_range.mp hj)
      ((of_decide_eq_true hboth.1).trans (of_decide_eq_true hboth.2).symm)
  rw [nodesAt, filter_eq_singleton halone (List.mem_range.mpr hlt) (decide_eq_true rfl),
    List.filterMap_cons, hnode]
  rfl

theorem nodesAt_eq_nil {profile : Profile α} {path : List Method} (h : ¬ profile.HasPath path) :
    profile.nodesAt path = [] := by
  rw [nodesAt, List.filter_eq_nil_iff.mpr, List.filterMap_nil]
  intro id hid hpath
  exact h ⟨id, List.mem_range.mp hid, of_decide_eq_true hpath⟩

variable [ExactAmount α] {profile other after : Profile α} {exclusions : Exclusions}

/-- What the ledger says of a path stands at its node. -/
theorem Sound.ledger_apply (hs : profile.Sound) (path : List Method) :
    profile.ledger path = ((profile.nodesAt path).map (·.measurement)).sum := by
  rw [ledger, Finsupp.finsetSum_apply]
  by_cases hpath : profile.HasPath path
  · obtain ⟨id, hid, rfl⟩ := hpath
    obtain ⟨node, hnode⟩ := CallTree.exists_node? hid
    rw [hs.nodesAt_path hnode, List.map_singleton, List.sum_singleton,
      Finset.sum_eq_single_of_mem id (Finset.mem_range.mpr hid), Finsupp.single_eq_same,
      CallTree.cost_eq hnode]
    intro i hi hne
    refine Finsupp.single_eq_of_ne fun heq => hne ?_
    exact hs.path_inj (Finset.mem_range.mp hi) hid heq.symm
  · rw [nodesAt_eq_nil hpath, Finset.sum_eq_zero]
    · rfl
    · intro i hi
      refine Finsupp.single_eq_of_ne fun heq => hpath ?_
      exact ⟨i, Finset.mem_range.mp hi, heq.symm⟩

/-! ## Two profiles -/

theorem Merged.collected_nodes (h : Merged exclusions profile other after) (hs : profile.Sound)
    (ho : other.Sound) (path : List Method) :
    Collected Node.measurement Node.site (profile.nodesAt path ++ other.nodesAt path)
      (after.nodesAt path) := by
  have ha := h.accounted.sound
  have hsum : ∀ {node : Node α}, after.nodesAt path = [node] → node.measurement =
      ((profile.nodesAt path ++ other.nodesAt path).map (·.measurement)).sum := by
    intro node hnode
    calc node.measurement
        = after.ledger path := by
          rw [ha.ledger_apply, hnode, List.map_singleton, List.sum_singleton]
      _ = profile.ledger path + other.ledger path := by rw [h.ledger, Finsupp.add_apply]
      _ = _ := by rw [hs.ledger_apply, ho.ledger_apply, List.map_append, List.sum_append]
  by_cases hmine : profile.HasPath path
  · obtain ⟨id, hid, rfl⟩ := hmine
    obtain ⟨node, hnode⟩ := CallTree.exists_node? hid
    obtain ⟨found, hfound, horigin⟩ := h.grows.node? hnode
    have hafter := ha.nodesAt_path hfound
    rw [h.grows.path_eq hs ha hid] at hafter
    have hvalue := hsum hafter
    rw [hs.nodesAt_path hnode] at hvalue ⊢
    exact ⟨found, hafter, hvalue, (Node.of_origin horigin).2.2.2⟩
  · rw [nodesAt_eq_nil hmine, List.nil_append]
    by_cases htheirs : other.HasPath path
    · obtain ⟨id, hid, hpath⟩ := (h.paths path).mpr (Or.inr htheirs)
      obtain ⟨found, hfound⟩ := CallTree.exists_node? hid
      have hnew : profile.tree.size ≤ id := by
        refine Nat.le_of_not_lt fun hlt => hmine ⟨id, hlt, ?_⟩
        rw [← h.grows.path_eq hs ha hlt, hpath]
      obtain ⟨source, node, hnode, hsource, hsite⟩ := h.copies hnew hfound
      have hafter := ha.nodesAt_path hfound
      have hvalue := hsum (hpath ▸ hafter)
      rw [nodesAt_eq_nil hmine, List.nil_append] at hvalue
      have honly := ho.nodesAt_path hnode
      rw [hpath] at hafter hsource
      rw [hsource] at honly
      rw [honly] at hvalue ⊢
      exact ⟨found, hafter, hvalue, hsite.symm⟩
    · rw [nodesAt_eq_nil htheirs]
      refine nodesAt_eq_nil fun hpath => ?_
      rcases (h.paths path).mp hpath with hold | hnew
      · exact hmine hold
      · exact htheirs hnew

/-! ## Many profiles -/

/-- A profile in which every method and every call path holds what it holds in some profiles
together, with the call sites of the first one that has the path. -/
structure SumOf (parts : List (Profile α)) (whole : Profile α) : Prop where
  notes : ∀ method, Collected MethodRecord.notes MethodRecord.method
    (parts.flatMap fun part => part.methods.recordsOf method) (whole.methods.recordsOf method)
  allocations : ∀ method,
    Collected (fun record : MethodRecord α => record.allocations.total) MethodRecord.method
      (parts.flatMap fun part => part.methods.recordsOf method) (whole.methods.recordsOf method)
  nodes : ∀ path, Collected Node.measurement Node.site
    (parts.flatMap fun part => part.nodesAt path) (whole.nodesAt path)

theorem Sound.sumOf_self (hs : profile.Sound) : SumOf [profile] profile where
  notes method := by
    rw [List.flatMap_singleton]
    exact hs.methods.collected_self _ method
  allocations method := by
    rw [List.flatMap_singleton]
    exact hs.methods.collected_self _ method
  nodes path := by
    rw [List.flatMap_singleton]
    by_cases hpath : profile.HasPath path
    · obtain ⟨id, hid, rfl⟩ := hpath
      obtain ⟨node, hnode⟩ := CallTree.exists_node? hid
      rw [hs.nodesAt_path hnode]
      exact Collected.single node
    · rw [nodesAt_eq_nil hpath]
      exact rfl

theorem SumOf.append {parts : List (Profile α)} (h : SumOf parts profile)
    (hmore : SumOf [profile, other] after) : SumOf (parts ++ [other]) after where
  notes method := by
    rw [List.flatMap_append]
    exact (h.notes method).append (hmore.notes method)
  allocations method := by
    rw [List.flatMap_append]
    exact (h.allocations method).append (hmore.allocations method)
  nodes path := by
    rw [List.flatMap_append]
    exact (h.nodes path).append (hmore.nodes path)

/-- A profile that may take part in a merge: what it says adds up, and nothing is open. -/
structure Mergeable (exclusions : Exclusions) (profile : Profile α) : Prop where
  accounted : profile.Accounted exclusions []
  filed : profile.Filed

theorem Mergeable.sumOf_merge (h : Mergeable exclusions profile) (ho : Mergeable exclusions other) :
    Mergeable exclusions (profile.merge other) ∧ SumOf [profile, other] (profile.merge other) := by
  have hmerged := h.accounted.merged_merge ho.accounted
  refine ⟨⟨hmerged.accounted, (continues_merge ho.filed h.filed).filed h.filed⟩,
    fun method => ?_, fun method => ?_, fun path => ?_⟩
  · rw [List.flatMap_cons, List.flatMap_singleton]
    exact hmerged.notes method
  · rw [List.flatMap_cons, List.flatMap_singleton]
    exact h.accounted.collected_merge ho.accounted Registry.additive_allocations (fun _ => rfl)
      (fun hid => h.filed.tidy _ _ hid) method
  · rw [List.flatMap_cons, List.flatMap_singleton]
    exact hmerged.collected_nodes h.accounted.sound ho.accounted.sound path

/-- Profiles that are merged one after another are merged into their sum. -/
theorem Mergeable.sumOf_foldl : ∀ {others parts : List (Profile α)} {profile : Profile α},
    Mergeable exclusions profile → (∀ other ∈ others, Mergeable exclusions other) →
    SumOf parts profile → SumOf (parts ++ others) (others.foldl Profile.merge profile) := by
  intro others
  induction others with
  | nil =>
      intro parts profile _ _ hsum
      rw [List.append_nil]
      exact hsum
  | cons other others ih =>
      intro parts profile h hothers hsum
      obtain ⟨hmergeable, hboth⟩ := h.sumOf_merge (hothers other List.mem_cons_self)
      rw [List.append_cons]
      exact ih hmergeable (fun later hlater => hothers later (List.mem_cons_of_mem _ hlater))
        (hsum.append hboth)

end CallLedger.Profile
