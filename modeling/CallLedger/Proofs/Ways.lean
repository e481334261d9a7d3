import CallLedger.Proofs.Pathwise

/-!
# Ways down a call tree

A way down from a node is a list of methods, each called by the one before. Following it means to
look up one method after the other and to ask for the child under its key (`follow?`). In a sound
profile that leads to the node whose path is the way back up, and nowhere if there is none
(`Sound.follow?_eq_some_iff`), so the nodes below a node are told apart by the ways to them.

What the ledger says of the subtree of a node is what one finds along the ways down from there
(`Sound.ledger_along`), and the same is said of the nodes of a subtree that are put elsewhere
(`Sound.costsOf_along`).
-/

namespace CallLedger.Profile

variable {α : Type}

/-! ## Ways down -/

/-- The child of a node for calls of a method. -/
def childFor? (profile : Profile α) (id : NodeId) (method : Method) : Option NodeId :=
  (profile.methods.lookup method).bind fun mine =>
    (profile.methods.record? mine).bind fun record =>
      profile.tree.childOf? (some id) record.key

/-- The node that calls of some methods, each made by the one before, lead to from a node. -/
def follow? (profile : Profile α) : NodeId → (way : List Method) → Option NodeId
  | id, [] => (profile.tree.node? id).map fun _ => id
  | id, method :: way => (profile.childFor? id method).bind fun child => profile.follow? child way

/-- What was measured at the end of a way. -/
def costAlong? (profile : Profile α) (id : NodeId) (way : List Method) : Option (Measurement α) :=
  (profile.follow? id way).bind fun last => (profile.tree.node? last).map (·.measurement)

variable {profile after : Profile α} {id : Nat}

/-- Following a way down is asking for the node at a path. -/
theorem Sound.follow?_eq_some_iff (hs : profile.Sound) {way : List Method} {last : Nat} :
    ∀ {id : Nat}, id < profile.tree.size → (profile.follow? id way = some last ↔
      last < profile.tree.size ∧ profile.path last = way.reverse ++ profile.path id) := by
  induction way with
  | nil =>
      intro id hid
      obtain ⟨node, hnode⟩ := CallTree.exists_node? hid
      rw [follow?, hnode, Option.map_some, Option.some.injEq, List.reverse_nil, List.nil_append]
      constructor
      · rintro rfl
        exact ⟨hid, rfl⟩
      · exact fun ⟨hlast, hpath⟩ => hs.path_inj hid hlast hpath.symm
  | cons method way ih =>
      intro id hid
      have hfind : ∀ child : Nat, profile.childFor? id method = some child ↔
          child < profile.tree.size ∧ profile.path child = method :: profile.path id :=
        fun _ => hs.childFor_eq_some_iff (hasParent_some hid)
      rw [follow?, Option.bind_eq_some_iff, List.reverse_cons, List.append_assoc,
        List.singleton_append]
      constructor
      · rintro ⟨child, hchild, hlast⟩
        obtain ⟨hsize, hpath⟩ := (hfind child).mp hchild
        rw [← hpath]
        exact (ih hsize).mp hlast
      · rintro ⟨hlast, hpath⟩
        obtain ⟨child, hsize, hchild⟩ := hs.hasPath_of_append (List.cons_ne_nil _ _)
          ⟨last, hlast, hpath⟩
        refine ⟨child, (hfind child).mpr ⟨hsize, hchild⟩, (ih hsize).mpr ?_⟩
        rw [hchild]
        exact ⟨hlast, hpath⟩

theorem Sound.follow?_isSome_iff (hs : profile.Sound) (hid : id < profile.tree.size)
    (way : List Method) : (profile.follow? id way).isSome ↔
      profile.HasPath (way.reverse ++ profile.path id) := by
  rw [Option.isSome_iff_exists]
  exact exists_congr fun last => hs.follow?_eq_some_iff hid

/-- A way leads on to the node that it led to. -/
theorem Grows.follow? (hgrows : Grows profile after) (hs : profile.Sound) (ha : after.Sound)
    (hid : id < profile.tree.size) {way : List Method} {last : Nat}
    (h : profile.follow? id way = some last) : after.follow? id way = some last := by
  obtain ⟨hlast, hpath⟩ := (hs.follow?_eq_some_iff hid).mp h
  refine (ha.follow?_eq_some_iff (Nat.lt_of_lt_of_le hid hgrows.size_le)).mpr
    ⟨Nat.lt_of_lt_of_le hlast hgrows.size_le, ?_⟩
  rw [hgrows.path_eq hs ha hlast, hgrows.path_eq hs ha hid, hpath]

/-- What a walk meets is at the end of a way. -/
theorem Sound.exists_follow (hs : profile.Sound) (hid : id < profile.tree.size) {last : Nat}
    (hlast : last ∈ profile.tree.walk id) : ∃ way, profile.follow? id way = some last := by
  obtain ⟨hsize, -⟩ := (hs.tree.mem_walk hid).mp hlast
  obtain ⟨way, hway⟩ := (hs.mem_walk_iff_suffix hid hsize).mp hlast
  refine ⟨way.reverse, (hs.follow?_eq_some_iff hid).mpr ⟨hsize, ?_⟩⟩
  rw [List.reverse_reverse, hway]

theorem Sound.mem_walk_of_follow (hs : profile.Sound) (hid : id < profile.tree.size)
    {way : List Method} {last : Nat} (h : profile.follow? id way = some last) :
    last ∈ profile.tree.walk id := by
  obtain ⟨hsize, hpath⟩ := (hs.follow?_eq_some_iff hid).mp h
  exact (hs.mem_walk_iff_suffix hid hsize).mpr ⟨way.reverse, hpath.symm⟩

/-- A subtree that is put elsewhere keeps the ways down from its top. -/
theorem Sound.grafted_eq_iff (hs : profile.Sound) (hid : id < profile.tree.size) {x : Nat}
    (hx : x ∈ profile.tree.walk id) (base way : List Method) :
    profile.grafted (profile.path id) base x = way.reverse ++ base ↔
      profile.follow? id way = some x := by
  obtain ⟨own, hown⟩ := hs.exists_follow hid hx
  obtain ⟨hsize, hpath⟩ := (hs.follow?_eq_some_iff hid).mp hown
  rw [grafted_eq hpath, List.append_left_inj, hs.follow?_eq_some_iff hid, and_iff_right hsize,
    hpath, List.append_left_inj]

/-! ## Costs along a way -/

section Costs

variable [ExactAmount α]

theorem Sound.costAlong?_eq (hs : profile.Sound) (hid : id < profile.tree.size)
    (way : List Method) :
    profile.costAlong? id way = (profile.follow? id way).map profile.tree.cost := by
  rw [costAlong?]
  cases hfollow : profile.follow? id way with
  | none => rfl
  | some last =>
      obtain ⟨hsize, -⟩ := (hs.follow?_eq_some_iff hid).mp hfollow
      obtain ⟨node, hnode⟩ := CallTree.exists_node? hsize
      rw [Option.bind_some, hnode, Option.map_some, Option.map_some, CallTree.cost_eq hnode]

theorem Sound.ledger_along (hs : profile.Sound) (hid : id < profile.tree.size)
    (way : List Method) :
    profile.ledger (way.reverse ++ profile.path id) = (profile.costAlong? id way).getD 0 := by
  rw [hs.ledger_apply, hs.costAlong?_eq hid]
  cases hfollow : profile.follow? id way with
  | none =>
      have hpath := (hs.follow?_isSome_iff hid way).not.mp (by simp [hfollow])
      rw [nodesAt_eq_nil hpath]
      rfl
  | some last =>
      obtain ⟨hsize, hpath⟩ := (hs.follow?_eq_some_iff hid).mp hfollow
      obtain ⟨node, hnode⟩ := CallTree.exists_node? hsize
      rw [← hpath, hs.nodesAt_path hnode, List.map_singleton, List.sum_singleton, Option.map_some,
        CallTree.cost_eq hnode]
      rfl

/-- Nodes of a subtree that are put elsewhere cost there what they cost where they are. -/
theorem Sound.costsOf_along (hs : profile.Sound) (hid : id < profile.tree.size)
    (base way : List Method) :
    profile.costsOf (profile.grafted (profile.path id) base) (profile.tree.walk id)
      (way.reverse ++ base) = (profile.costAlong? id way).getD 0 := by
  have hsum : profile.costsOf (profile.grafted (profile.path id) base) (profile.tree.walk id)
      (way.reverse ++ base) = (((profile.tree.walk id).filter fun x =>
        profile.follow? id way = some x).map profile.tree.cost).sum := by
    rw [sum_map_filter, costsOf, ← Finsupp.applyAddHom_apply, map_list_sum, List.map_map]
    refine congrArg List.sum (List.map_congr_left fun x hx => ?_)
    simp only [decide_eq_true_eq, ← hs.grafted_eq_iff hid hx base way]
    exact Finsupp.single_apply
  rw [hsum, hs.costAlong?_eq hid]
  cases hfollow : profile.follow? id way with
  | none => simp
  | some last =>
      have halone : (profile.tree.walk id).Pairwise fun a b =>
          ¬(decide (some last = some a) = true ∧ decide (some last = some b) = true) := by
        refine (hs.tree.branching.nodup_walk hid).imp fun hne hboth => hne ?_
        simp only [decide_eq_true_eq, Option.some.injEq] at hboth
        rw [← hboth.1, hboth.2]
      rw [filter_eq_singleton halone (hs.mem_walk_of_follow hid hfollow) (by simp)]
      simp

end Costs

end CallLedger.Profile
