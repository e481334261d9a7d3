import CallLedger.Proofs.Walk

/-!
# In which order a merge comes to the nodes

A merge goes down the other tree, and some places that it comes to are held already. Under a node
whose place is held it first copies the children that are missing, in their order, and then goes
down into the others, the last one first. Under a node that it has copied everything is missing, and
there the last child is copied first (`CallTree.childOrder`).

So every node of a subtree is come to once (`Branching.mergeOrder_perm`), and the children of one
node in the order that it gives them (`Branching.childOrder_sublist`). Missing siblings are come to in
their order under a node that was held, and the other way around under one that was missing as well.
-/

namespace CallLedger.CallTree

variable {α : Type} {tree : CallTree α} {held : NodeId → Bool} {id : NodeId}

/-- The children of a node in the order in which a merge comes to them, when it finds some places
held. -/
def childOrder (tree : CallTree α) (held : NodeId → Bool) (id : NodeId) : List NodeId :=
  if held id then
    (tree.children id).filter (fun child => !held child) ++ ((tree.children id).filter held).reverse
  else (tree.children id).reverse

/-- The subtree of a node in the order in which a merge comes to its nodes, down to a number of
levels. -/
def mergeOrderWithin (tree : CallTree α) (held : NodeId → Bool) :
    (levels : Nat) → NodeId → List NodeId
  | 0, _ => []
  | levels + 1, id => id :: (tree.childOrder held id).flatMap (tree.mergeOrderWithin held levels)

def mergeOrder (tree : CallTree α) (held : NodeId → Bool) (id : NodeId) : List NodeId :=
  tree.mergeOrderWithin held tree.size id

theorem childOrder_held (h : held id = true) :
    tree.childOrder held id = (tree.children id).filter (fun child => !held child) ++
      ((tree.children id).filter held).reverse := if_pos h

theorem childOrder_missing (h : held id = false) :
    tree.childOrder held id = (tree.children id).reverse :=
  if_neg (Bool.eq_false_iff.mp h)

theorem childOrder_perm (tree : CallTree α) (held : NodeId → Bool) (id : NodeId) :
    (tree.childOrder held id).Perm (tree.children id) := by
  unfold childOrder
  split
  · refine (((List.reverse_perm _).append_left _).trans List.perm_append_comm).trans ?_
    exact List.filter_append_perm _ _
  · exact List.reverse_perm _

/-! ## The cut-off is not felt -/

theorem Branching.mergeOrderWithin_eq (hb : tree.Branching) (held : NodeId → Bool) :
    ∀ {a b id : Nat}, id < tree.size → tree.size ≤ a + id → tree.size ≤ b + id →
      tree.mergeOrderWithin held a id = tree.mergeOrderWithin held b id := by
  intro a
  induction a with
  | zero => intro b id hid ha _; omega
  | succ a ih =>
      intro b id hid ha hbound
      cases b with
      | zero => omega
      | succ b =>
          rw [mergeOrderWithin, mergeOrderWithin]
          congr 1
          refine List.flatMap_congr fun child hchild => ?_
          have hmem := (tree.childOrder_perm held id).mem_iff.mp hchild
          obtain ⟨hlt, hsize⟩ := hb.child_lt hmem
          exact ih hsize (by omega) (by omega)

theorem Branching.mergeOrder_eq (hb : tree.Branching) (held : NodeId → Bool) {id : Nat}
    (hid : id < tree.size) :
    tree.mergeOrder held id = id :: (tree.childOrder held id).flatMap (tree.mergeOrder held) := by
  rw [mergeOrder, hb.mergeOrderWithin_eq held hid (Nat.le_add_right _ _)
    (show tree.size ≤ (tree.size + 1) + id by omega), mergeOrderWithin]
  rfl

/-! ## What a merge comes to -/

/-- A merge comes to what a walk meets. -/
theorem Branching.mergeOrder_perm (hb : tree.Branching) (held : NodeId → Bool) {id : Nat}
    (hid : id < tree.size) : (tree.mergeOrder held id).Perm (tree.walk id) := by
  induction id, hid using hb.children_induction with
  | step id hid ih =>
      rw [hb.mergeOrder_eq held hid, hb.walk_eq hid]
      refine ((tree.childOrder_perm held id).flatMap_right _ |>.trans ?_).cons id
      exact List.Perm.flatMap_left _ fun child hchild => ih child hchild

/-- What is below a node that a merge comes to is come to in one piece. -/
theorem Branching.mergeOrder_infix (hb : tree.Branching) (held : NodeId → Bool) {x id : Nat}
    (hid : id < tree.size) :
    x ∈ tree.walk id → tree.mergeOrder held x <:+: tree.mergeOrder held id := by
  induction id, hid using hb.children_induction with
  | step id hid ih =>
      intro hx
      rw [hb.walk_eq hid, List.mem_cons, List.mem_flatMap] at hx
      rcases hx with rfl | ⟨child, hchild, hx⟩
      · exact List.infix_refl _
      · have hmem := (tree.childOrder_perm held id).mem_iff.mpr hchild
        rw [hb.mergeOrder_eq held hid, List.flatMap_def]
        exact List.infix_cons ((ih child hchild hx).trans
          (List.infix_of_mem_flatten (List.mem_map_of_mem hmem)))

theorem Branching.childOrder_sublist (hb : tree.Branching) (held : NodeId → Bool) {x id : Nat}
    (hid : id < tree.size) (hx : x ∈ tree.walk id) :
    (tree.childOrder held x).Sublist (tree.mergeOrder held id) := by
  have hlt := (hb.way_of_mem_walk hid hx).1
  refine List.Sublist.trans ?_ (hb.mergeOrder_infix held hid hx).sublist
  rw [hb.mergeOrder_eq held hlt]
  refine (sublist_flatMap_heads fun child hchild => ?_).cons x
  have hchild := (hb.child_lt ((tree.childOrder_perm held x).mem_iff.mp hchild)).2
  exact (hb.mergeOrder_perm held hchild).mem_iff.mpr (hb.mem_walk_self hchild)

/-! ## Siblings -/

/-- Missing children of a node that is held come in their order. -/
theorem sublist_childOrder_held (h : held id = true) {a b : NodeId}
    (hab : [a, b].Sublist (tree.children id)) (ha : held a = false) (hb : held b = false) :
    [a, b].Sublist (tree.childOrder held id) := by
  have hmissing := hab.filter fun child => !held child
  rw [List.filter_eq_self.mpr (by simp [ha, hb])] at hmissing
  rw [childOrder_held h]
  exact hmissing.trans (List.sublist_append_left _ _)

/-- Children of a node that is missing come the other way around. -/
theorem sublist_childOrder_missing (h : held id = false) {a b : NodeId}
    (hab : [a, b].Sublist (tree.children id)) : [b, a].Sublist (tree.childOrder held id) := by
  rw [childOrder_missing h]
  exact hab.reverse

end CallLedger.CallTree
