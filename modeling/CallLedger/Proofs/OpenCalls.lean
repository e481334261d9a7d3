import CallLedger.Proofs.Paths
import CallLedger.Stack.Basic

/-!
# The open calls of a stack

Of a frame, the profile sees only which node and method it is bound to and what
its callees took: an open call. Switching, pausing and passing change none of
the three, so what is said about open calls survives them without a word.

The open calls stand on one line of the call tree. Each is bound to the node of
the call below it, when a method called itself directly, or to a child of that
node, and the outermost one to a root (`Stacked`). So the nodes with an open
call are the innermost one and its ancestors, no more and no less
(`Stacked.mem_lineage`), and the two visit counters that decide about inclusive
cost can be compared: a method has no other open call exactly when its node has
none and the method does not come up further along the path
(`Stacked.only_call_iff`).
-/

namespace CallLedger

structure OpenCall (α : Type) where
  node : NodeId
  method : MethodId
  childTime : α

def Frame.openCall {α : Type} (frame : Frame α) : OpenCall α :=
  ⟨frame.node, frame.method, frame.childTime⟩

/-- The open calls of a stack, the innermost first. -/
def Stack.openCalls {α : Type} (stack : Stack α) : List (OpenCall α) :=
  stack.frames.map Frame.openCall

/-- The node of the innermost open call. -/
def innermost {α : Type} (calls : List (OpenCall α)) : Option NodeId :=
  calls.head?.map (·.node)

/-- The open calls after the caller has taken over what a callee took. -/
def credited {α : Type} [Amount α] (time : α) : List (OpenCall α) → List (OpenCall α)
  | [] => []
  | call :: below => { call with childTime := call.childTime + time } :: below

/-- A node and its ancestors. -/
def CallTree.lineage {α : Type} (tree : CallTree α) : Option NodeId → List NodeId
  | some id => id :: tree.ancestors id
  | none => []

theorem CallTree.Climbing.ancestors_eq_lineage {α : Type} {tree : CallTree α}
    (hl : tree.Climbing) {id : Nat} (hid : id < tree.size) :
    tree.ancestors id = tree.lineage (tree.parent? id) := by
  obtain ⟨node, hnode⟩ := exists_node? hid
  rw [hl.ancestors_eq hnode, parent?_eq hnode]
  cases node.parent with
  | none => rfl
  | some parent => rfl

namespace Profile

variable {α : Type}

theorem methodOf?_eq {profile : Profile α} {id : Nat} {node : Node α}
    (h : profile.tree.node? id = some node) : profile.methodOf? id = some node.method := by
  rw [methodOf?, h]
  rfl

theorem methodOf?_eq_some {profile : Profile α} {id method : Nat}
    (h : profile.methodOf? id = some method) :
    ∃ node, profile.tree.node? id = some node ∧ node.method = method :=
  Option.map_eq_some_iff.mp h

theorem Grows.methodOf? {profile after : Profile α} (h : Grows profile after) {id method : Nat}
    (hid : profile.methodOf? id = some method) : after.methodOf? id = some method := by
  obtain ⟨node, hnode, rfl⟩ := methodOf?_eq_some hid
  obtain ⟨later, hlater, horigin⟩ := h.node? hnode
  rw [methodOf?_eq hlater, (Node.of_origin horigin).1]

theorem identity?_eq {profile : Profile α} {id : Nat} {node : Node α} {record : MethodRecord α}
    (hnode : profile.tree.node? id = some node)
    (hrecord : profile.methods.record? node.method = some record) :
    profile.identity? id = some record.method := by
  rw [identity?, methodOf?_eq hnode, Option.bind_some, hrecord]
  rfl

/-- A node bears the method of a record when it is bound to the record. -/
theorem Sound.identity?_eq_some_iff {profile : Profile α} (hs : profile.Sound) {method : Nat}
    {record : MethodRecord α} (hrecord : profile.methods.record? method = some record) (id : Nat) :
    profile.identity? id = some record.method ↔ profile.methodOf? id = some method := by
  constructor
  · intro h
    obtain ⟨other, hother, hmap⟩ := Option.bind_eq_some_iff.mp h
    obtain ⟨found, hfound, hname⟩ := Option.map_eq_some_iff.mp hmap
    rw [hother, hs.methods.method_inj hfound hrecord hname]
  · intro h
    obtain ⟨node, hnode, rfl⟩ := methodOf?_eq_some h
    exact identity?_eq hnode hrecord

/-- The methods above a node are those of its ancestors. -/
theorem Sound.mem_tail_path {profile : Profile α} (hs : profile.Sound) {id method : Nat}
    {record : MethodRecord α} (hrecord : profile.methods.record? method = some record)
    (hid : id < profile.tree.size) :
    record.method ∈ (profile.path id).tail ↔
      ∃ a ∈ profile.tree.ancestors id, profile.methodOf? a = some method := by
  have htail : (profile.path id).tail =
      (profile.tree.ancestors id).filterMap profile.identity? := by
    obtain ⟨node, record, hnode, hrecord, -, -⟩ := hs.exists_path_eq hid
    rw [path, List.filterMap_cons, identity?_eq hnode hrecord]
    rfl
  simp only [htail, List.mem_filterMap, hs.identity?_eq_some_iff hrecord]

/-- Every call stands on the node of the call below it or on a child of that
node, and the outermost one on a root. -/
def Stacked (profile : Profile α) : List (OpenCall α) → Prop
  | [] => True
  | call :: below =>
    profile.methodOf? call.node = some call.method ∧
      (innermost below = some call.node ∨ profile.tree.parent? call.node = innermost below) ∧
      Stacked profile below

theorem Stacked.methodOf? {profile : Profile α} {calls : List (OpenCall α)}
    (h : profile.Stacked calls) {call : OpenCall α} (hmem : call ∈ calls) :
    profile.methodOf? call.node = some call.method := by
  induction calls with
  | nil => cases hmem
  | cons first below ih =>
      rcases List.mem_cons.mp hmem with rfl | hbelow
      · exact h.1
      · exact ih h.2.2 hbelow

theorem Stacked.node_lt {profile : Profile α} {calls : List (OpenCall α)}
    (h : profile.Stacked calls) {call : OpenCall α} (hmem : call ∈ calls) :
    call.node < profile.tree.size := by
  obtain ⟨node, hnode, -⟩ := methodOf?_eq_some (h.methodOf? hmem)
  exact CallTree.node?_lt hnode

theorem Stacked.of_grows {profile other : Profile α} (hgrows : Grows profile other)
    {calls : List (OpenCall α)} (h : profile.Stacked calls) : other.Stacked calls := by
  induction calls with
  | nil => trivial
  | cons call below ih =>
      obtain ⟨hmethod, hplace, hbelow⟩ := h
      obtain ⟨node, hnode, -⟩ := methodOf?_eq_some hmethod
      obtain ⟨after, hafter, horigin⟩ := hgrows.node? hnode
      refine ⟨hgrows.methodOf? hmethod, hplace.imp_right fun hparent => ?_, ih hbelow⟩
      rw [CallTree.parent?_eq hafter, (Node.of_origin horigin).2.2.1, ← CallTree.parent?_eq hnode,
        hparent]

theorem Stacked.credited {profile : Profile α} [Amount α] {calls : List (OpenCall α)}
    (h : profile.Stacked calls) (time : α) : profile.Stacked (credited time calls) := by
  cases calls with
  | nil => trivial
  | cons call below => exact h

/-- The nodes that have an open call are the innermost one and its ancestors. -/
theorem Stacked.mem_lineage {profile : Profile α} (hs : profile.Sound)
    {calls : List (OpenCall α)} (h : profile.Stacked calls) {id : Nat} :
    id ∈ profile.tree.lineage (innermost calls) ↔ ∃ call ∈ calls, call.node = id := by
  induction calls with
  | nil => simp [innermost, CallTree.lineage]
  | cons call below ih =>
      obtain ⟨hmethod, hplace, hbelow⟩ := h
      have hlt : call.node < profile.tree.size := by
        obtain ⟨node, hnode, -⟩ := methodOf?_eq_some hmethod
        exact CallTree.node?_lt hnode
      have hcall : profile.tree.lineage (innermost (call :: below)) =
          call.node :: profile.tree.ancestors call.node := rfl
      have hlineage : id = call.node ∨ id ∈ profile.tree.lineage (innermost below) ↔
          id ∈ profile.tree.lineage (innermost (call :: below)) := by
        rw [hcall, List.mem_cons]
        rcases hplace with hsame | hparent
        · rw [hsame, CallTree.lineage, List.mem_cons, ← or_assoc, or_self]
        · rw [hs.tree.ancestors_eq_lineage hlt, hparent]
      rw [← hlineage, ih hbelow]
      constructor
      · rintro (rfl | ⟨other, hmem, rfl⟩)
        · exact ⟨call, List.mem_cons_self, rfl⟩
        · exact ⟨other, List.mem_cons_of_mem _ hmem, rfl⟩
      · rintro ⟨other, hmem, rfl⟩
        rcases List.mem_cons.mp hmem with rfl | hmem
        · exact Or.inl rfl
        · exact Or.inr ⟨other, hmem, rfl⟩

/-- When a node has no second open call, the call below is on its parent. -/
theorem Stacked.parent?_of_only {profile : Profile α} {call : OpenCall α}
    {below : List (OpenCall α)} (h : profile.Stacked (call :: below))
    (honly : ∀ other ∈ below, other.node ≠ call.node) :
    profile.tree.parent? call.node = innermost below := by
  rcases h.2.1 with hsame | hparent
  · obtain ⟨other, hhead, hnode⟩ := Option.map_eq_some_iff.mp hsame
    exact absurd hnode (honly other (List.mem_of_mem_head? hhead))
  · exact hparent

/-- When a node has a second open call, the call below is one. -/
theorem Stacked.innermost_of_mem {profile : Profile α} (hs : profile.Sound)
    {call other : OpenCall α} {below : List (OpenCall α)}
    (h : profile.Stacked (call :: below)) (hmem : other ∈ below)
    (hnode : other.node = call.node) : innermost below = some call.node := by
  rcases h.2.1 with hsame | hparent
  · exact hsame
  · have hlineage := (h.2.2.mem_lineage hs).mpr ⟨other, hmem, hnode⟩
    rw [← hparent, ← hs.tree.ancestors_eq_lineage (h.node_lt List.mem_cons_self)] at hlineage
    exact absurd (hs.tree.lt_of_mem_ancestors hlineage) (Nat.lt_irrefl _)

/-- The innermost call is the only one of its method exactly when it is the
only one of its node and no ancestor of the node has the method. -/
theorem Stacked.only_call_iff {profile : Profile α} (hs : profile.Sound)
    {call : OpenCall α} {below : List (OpenCall α)} (h : profile.Stacked (call :: below)) :
    (∀ other ∈ below, other.method ≠ call.method) ↔
      (∀ other ∈ below, other.node ≠ call.node) ∧
        ∀ a ∈ profile.tree.ancestors call.node, profile.methodOf? a ≠ some call.method := by
  have hhere := h.methodOf? List.mem_cons_self
  constructor
  · intro honly
    have hnodes : ∀ other ∈ below, other.node ≠ call.node := by
      intro other hmem hnode
      have hthere := h.methodOf? (List.mem_cons_of_mem _ hmem)
      rw [hnode, hhere, Option.some.injEq] at hthere
      exact honly other hmem hthere.symm
    refine ⟨hnodes, fun a ha hmethod => ?_⟩
    rw [hs.tree.ancestors_eq_lineage (h.node_lt List.mem_cons_self),
      h.parent?_of_only hnodes] at ha
    obtain ⟨other, hmem, rfl⟩ := (h.2.2.mem_lineage hs).mp ha
    rw [h.methodOf? (List.mem_cons_of_mem _ hmem), Option.some.injEq] at hmethod
    exact honly other hmem hmethod
  · rintro ⟨hnodes, habove⟩ other hmem hmethod
    refine habove other.node ?_ ?_
    · rw [hs.tree.ancestors_eq_lineage (h.node_lt List.mem_cons_self),
        h.parent?_of_only hnodes]
      exact (h.2.2.mem_lineage hs).mpr ⟨other, hmem, rfl⟩
    · rw [h.methodOf? (List.mem_cons_of_mem _ hmem), hmethod]

end Profile

end CallLedger
