import CallLedger.Proofs.Shape

/-!
# A node is its call path

The path of a node is the list of method identities from the node up to its
root. Positions and method ids mean something in one profile only; paths mean
the same in all of them, which is what lets two profiles be compared.

In a sound profile no two nodes have one path, because siblings have different
methods and a parent stands before its children. So asking for the child of a
node under the key of a method is asking for the node at a path
(`Sound.childOf?_path`), and a path that was there stays with its node when the
profile grows (`Grows.path_eq`).
-/

namespace CallLedger

namespace CallTree

variable {α : Type}

/-- The ancestors of a node from its parent up, no more than a bound. -/
def ancestorsWithin (tree : CallTree α) : (bound : Nat) → NodeId → List NodeId
  | 0, _ => []
  | bound + 1, id =>
    match tree.parent? id with
    | some parent => parent :: tree.ancestorsWithin bound parent
    | none => []

/-- The ancestors of a node, from its parent up to its root. -/
def ancestors (tree : CallTree α) (id : NodeId) : List NodeId :=
  tree.ancestorsWithin tree.size id

theorem depth_eq (tree : CallTree α) (id : NodeId) :
    tree.depth id = (tree.ancestors id).length := by
  unfold depth ancestors
  generalize tree.size = bound
  induction bound generalizing id with
  | zero => rfl
  | succ bound ih =>
      rw [depthWithin, ancestorsWithin]
      cases tree.parent? id with
      | none => rfl
      | some parent => rw [List.length_cons, ← ih]

theorem parent?_eq {tree : CallTree α} {id : Nat} {node : Node α}
    (h : tree.node? id = some node) : tree.parent? id = node.parent := by
  unfold parent?
  rw [h]
  rfl

/-- Any bound from the position on finds the same ancestors. -/
theorem Climbing.ancestorsWithin_eq {tree : CallTree α} (hl : tree.Climbing) :
    ∀ {a b id : Nat}, id ≤ a → id ≤ b →
      tree.ancestorsWithin a id = tree.ancestorsWithin b id := by
  have hstep : ∀ {id parent : Nat}, tree.parent? id = some parent → parent < id := by
    intro id parent h
    obtain ⟨node, hnode, hparent⟩ := Option.bind_eq_some_iff.mp h
    exact hl.parent_lt hnode hparent
  intro a
  induction a with
  | zero =>
      intro b id ha _
      cases b with
      | zero => rfl
      | succ b =>
          rw [ancestorsWithin, ancestorsWithin]
          cases hp : tree.parent? id with
          | none => rfl
          | some parent =>
              have := hstep hp
              omega
  | succ a ih =>
      intro b id ha hb
      cases b with
      | zero =>
          rw [ancestorsWithin, ancestorsWithin]
          cases hp : tree.parent? id with
          | none => rfl
          | some parent =>
              have := hstep hp
              omega
      | succ b =>
          rw [ancestorsWithin, ancestorsWithin]
          cases hp : tree.parent? id with
          | none => rfl
          | some parent =>
              have hlt := hstep hp
              simp only []
              rw [ih (Nat.le_of_lt_succ (Nat.lt_of_lt_of_le hlt ha))
                (Nat.le_of_lt_succ (Nat.lt_of_lt_of_le hlt hb))]

theorem Climbing.ancestors_eq {tree : CallTree α} (hl : tree.Climbing) {id : Nat} {node : Node α}
    (h : tree.node? id = some node) :
    tree.ancestors id =
      match node.parent with
      | some parent => parent :: tree.ancestors parent
      | none => [] := by
  have hlt := node?_lt h
  unfold ancestors
  rw [hl.ancestorsWithin_eq (Nat.le_of_lt hlt) (Nat.le_succ_of_le (Nat.le_refl id)),
    ancestorsWithin, parent?_eq h]
  cases hp : node.parent with
  | none => rfl
  | some parent =>
      have hp' := hl.parent_lt h hp
      have hsize : parent ≤ tree.size := Nat.le_of_lt (Nat.lt_trans hp' hlt)
      simp only []
      rw [hl.ancestorsWithin_eq (Nat.le_of_lt hp') hsize]

theorem Climbing.lt_of_mem_ancestors {tree : CallTree α} (hl : tree.Climbing) {id : Nat} :
    ∀ {a : Nat}, a ∈ tree.ancestors id → a < id := by
  induction id using Nat.strongRecOn with
  | ind id ih =>
      intro a ha
      rcases Nat.lt_or_ge id tree.size with hlt | hge
      · obtain ⟨node, hnode⟩ := exists_node? hlt
        rw [hl.ancestors_eq hnode] at ha
        cases hp : node.parent with
        | none => rw [hp] at ha; cases ha
        | some parent =>
            rw [hp] at ha
            have := hl.parent_lt hnode hp
            rcases List.mem_cons.mp ha with rfl | ha'
            · exact this
            · exact Nat.lt_trans (ih parent this ha') this
      · have hnone := node?_eq_none hge
        unfold ancestors at ha
        cases hs : tree.size with
        | zero => rw [hs] at ha; cases ha
        | succ size =>
            rw [hs, ancestorsWithin] at ha
            simp only [parent?, hnone, Option.bind_none] at ha
            cases ha

end CallTree

namespace Profile

variable {α : Type}

/-- The method that a node is bound to, by identity. -/
def identity? (profile : Profile α) (id : NodeId) : Option Method :=
  (profile.methodOf? id).bind fun method =>
    (profile.methods.record? method).map (·.method)

/-- The call path that leads to a node: the methods of the node and of its
ancestors, the root last. -/
def path (profile : Profile α) (id : NodeId) : List Method :=
  (id :: profile.tree.ancestors id).filterMap profile.identity?

/-- The path of a node that may be missing. -/
def pathTo (profile : Profile α) : Option NodeId → List Method
  | some id => profile.path id
  | none => []

/-- Parents stand before their children, so the path of a node goes on with that of its parent. -/
theorem path_of_climbing {profile : Profile α} (hl : profile.tree.Climbing) {id : Nat}
    {node : Node α} {record : MethodRecord α} (hid : profile.tree.node? id = some node)
    (hrecord : profile.methods.record? node.method = some record) :
    profile.path id = record.method :: profile.pathTo node.parent := by
  have hidentity : profile.identity? id = some record.method := by
    unfold identity? methodOf?
    rw [hid, Option.map_some, Option.bind_some, hrecord, Option.map_some]
  unfold path
  rw [List.filterMap_cons, hidentity, hl.ancestors_eq hid]
  cases node.parent with
  | none => rfl
  | some parent => rfl

theorem Sound.path_eq {profile : Profile α} (hs : profile.Sound) {id : Nat} {node : Node α}
    {record : MethodRecord α} (hid : profile.tree.node? id = some node)
    (hrecord : profile.methods.record? node.method = some record) :
    profile.path id = record.method :: profile.pathTo node.parent :=
  path_of_climbing hs.tree.toClimbing hid hrecord

theorem Sound.exists_path_eq {profile : Profile α} (hs : profile.Sound) {id : Nat}
    (hid : id < profile.tree.size) :
    ∃ node record, profile.tree.node? id = some node ∧
      profile.methods.record? node.method = some record ∧ record.key = node.key ∧
      profile.path id = record.method :: profile.pathTo node.parent := by
  obtain ⟨node, hnode⟩ := CallTree.exists_node? hid
  obtain ⟨record, hrecord, hkey⟩ := hs.bound hnode
  exact ⟨node, record, hnode, hrecord, hkey, hs.path_eq hnode hrecord⟩

theorem Sound.path_ne_nil {profile : Profile α} (hs : profile.Sound) {id : Nat}
    (hid : id < profile.tree.size) : profile.path id ≠ [] := by
  obtain ⟨node, record, -, -, -, hpath⟩ := hs.exists_path_eq hid
  rw [hpath]
  exact List.cons_ne_nil _ _

/-- The path of a child extends that of its parent. -/
theorem Sound.tail_path_child {profile : Profile α} (hs : profile.Sound) {id child : Nat}
    (h : profile.tree.parent? child = some id) :
    (profile.path child).tail = profile.path id := by
  obtain ⟨node, hnode, hparent⟩ := Option.bind_eq_some_iff.mp h
  obtain ⟨record, hrecord, -⟩ := hs.bound hnode
  rw [hs.path_eq hnode hrecord, hparent]
  rfl

theorem Sound.path_suffix_child {profile : Profile α} (hs : profile.Sound) {id child : Nat}
    (h : profile.tree.parent? child = some id) : profile.path id <:+ profile.path child := by
  rw [← hs.tail_path_child h]
  exact List.tail_suffix _

/-- No two nodes have one path. -/
theorem Sound.path_inj {profile : Profile α} (hs : profile.Sound) :
    ∀ {i j : Nat}, i < profile.tree.size → j < profile.tree.size →
      profile.path i = profile.path j → i = j := by
  intro i
  induction i using Nat.strongRecOn with
  | ind i ih =>
      intro j hi hj hpath
      obtain ⟨a, ra, ha, hra, -, hpa⟩ := hs.exists_path_eq hi
      obtain ⟨b, rb, hb, hrb, -, hpb⟩ := hs.exists_path_eq hj
      rw [hpa, hpb, List.cons.injEq] at hpath
      have hmethod := hs.methods.method_inj hra hrb hpath.1
      refine hs.apart ha hb ?_ hmethod
      cases hap : a.parent with
      | none =>
          cases hbp : b.parent with
          | none => rfl
          | some q =>
              have hq := hs.tree.parent_lt hb hbp
              rw [hap, hbp] at hpath
              exact absurd hpath.2.symm (hs.path_ne_nil (Nat.lt_trans hq hj))
      | some p =>
          have hp := hs.tree.parent_lt ha hap
          cases hbp : b.parent with
          | none =>
              rw [hap, hbp] at hpath
              exact absurd hpath.2 (hs.path_ne_nil (Nat.lt_trans hp hi))
          | some q =>
              have hq := hs.tree.parent_lt hb hbp
              rw [hap, hbp] at hpath
              rw [ih p hp (Nat.lt_trans hp hi) (Nat.lt_trans hq hj) hpath.2]

/-! ## The paths of a profile -/

/-- Some node has the path. -/
def HasPath (profile : Profile α) (path : List Method) : Prop :=
  ∃ id < profile.tree.size, profile.path id = path

instance (profile : Profile α) (path : List Method) : Decidable (profile.HasPath path) :=
  inferInstanceAs (Decidable (∃ id < profile.tree.size, profile.path id = path))

theorem Sound.hasPath_tail {profile : Profile α} (hs : profile.Sound) {method other : Method}
    {path : List Method} (h : profile.HasPath (method :: other :: path)) :
    profile.HasPath (other :: path) := by
  obtain ⟨id, hid, hpath⟩ := h
  obtain ⟨node, record, hnode, -, -, hcons⟩ := hs.exists_path_eq hid
  rw [hcons, List.cons.injEq] at hpath
  cases hp : node.parent with
  | none => rw [hp] at hpath; cases hpath.2
  | some parent =>
      rw [hp] at hpath
      exact ⟨parent, Nat.lt_trans (hs.tree.parent_lt hnode hp) hid, hpath.2⟩

/-- Where there is a node, there is one at every lower end of its path. -/
theorem Sound.hasPath_of_append {profile : Profile α} (hs : profile.Sound) {path : List Method}
    (hne : path ≠ []) : ∀ {way : List Method}, profile.HasPath (way ++ path) →
      profile.HasPath path := by
  intro way
  induction way with
  | nil => exact id
  | cons method way ih =>
      intro h
      cases hrest : way ++ path with
      | nil => exact absurd (List.append_eq_nil_iff.mp hrest).2 hne
      | cons first rest =>
          rw [List.cons_append, hrest] at h
          exact ih (hrest ▸ hs.hasPath_tail h)

/-- The node under the key of a method is the one whose path extends the path
of the parent by the method. -/
theorem Sound.childOf?_path {profile : Profile α} (hs : profile.Sound)
    {parent : Option NodeId} (hparent : profile.HasParent parent) {method : Nat}
    {record : MethodRecord α} (hrecord : profile.methods.record? method = some record)
    {id : Nat} :
    profile.tree.childOf? parent record.key = some id ↔
      id < profile.tree.size ∧ profile.path id = record.method :: profile.pathTo parent := by
  rw [hs.childOf?_eq_some_iff hparent]
  constructor
  · rintro ⟨node, hnode, rfl, hkey⟩
    obtain ⟨other, hother, hkeys⟩ := hs.bound hnode
    have hsame := hs.methods.key_inj hother hrecord (hkeys.trans hkey)
    rw [hsame, hrecord] at hother
    cases hother
    exact ⟨CallTree.node?_lt hnode, hs.path_eq hnode (hsame ▸ hrecord)⟩
  · rintro ⟨hid, hpath⟩
    obtain ⟨node, other, hnode, hother, hkey, hcons⟩ := hs.exists_path_eq hid
    rw [hcons, List.cons.injEq] at hpath
    have hsame := hs.methods.method_inj hother hrecord hpath.1
    rw [hsame, hrecord] at hother
    cases hother
    refine ⟨node, hnode, ?_, hkey.symm⟩
    cases hp : node.parent with
    | none =>
        cases parent with
        | none => rfl
        | some q =>
            rw [hp] at hpath
            exact absurd hpath.2.symm (hs.path_ne_nil (hparent q rfl))
    | some p =>
        have hplt := Nat.lt_trans (hs.tree.parent_lt hnode hp) hid
        cases parent with
        | none =>
            rw [hp] at hpath
            exact absurd hpath.2 (hs.path_ne_nil hplt)
        | some q =>
            rw [hp] at hpath
            rw [hs.path_inj hplt (hparent q rfl) hpath.2]

theorem Sound.childOf?_eq_none {profile : Profile α} (hs : profile.Sound)
    {parent : Option NodeId} (hparent : profile.HasParent parent) {method : Nat}
    {record : MethodRecord α} (hrecord : profile.methods.record? method = some record) :
    profile.tree.childOf? parent record.key = none ↔
      ¬ profile.HasPath (record.method :: profile.pathTo parent) := by
  constructor
  · rintro hnone ⟨id, hid, hpath⟩
    rw [(hs.childOf?_path hparent hrecord).mpr ⟨hid, hpath⟩] at hnone
    cases hnone
  · intro hpath
    cases hchild : profile.tree.childOf? parent record.key with
    | none => rfl
    | some id =>
        obtain ⟨hid, heq⟩ := (hs.childOf?_path hparent hrecord).mp hchild
        exact absurd ⟨id, hid, heq⟩ hpath

/-! ## Growing keeps paths -/

/-- What one profile has of records and nodes, another has at the same
positions. -/
structure Grows (profile other : Profile α) : Prop where
  names : ∀ {id : Nat} {name : Key × Method}, profile.methods.names[id]? = some name →
    other.methods.names[id]? = some name
  origins : ∀ {id : Nat} {origin : Origin}, profile.tree.origins[id]? = some origin →
    other.tree.origins[id]? = some origin

theorem Grows.refl (profile : Profile α) : Grows profile profile := ⟨id, id⟩

theorem Grows.trans {a b c : Profile α} (hab : Grows a b) (hbc : Grows b c) : Grows a c :=
  ⟨fun h => hbc.names (hab.names h), fun h => hbc.origins (hab.origins h)⟩

theorem SameShape.grows {profile other : Profile α} (h : SameShape profile other) :
    Grows profile other := by
  refine ⟨fun hname => ?_, fun horigin => ?_⟩
  · rw [h.names]
    exact hname
  · rw [h.origins]
    exact horigin

theorem Grows.record? {profile other : Profile α} (h : Grows profile other) {id : Nat}
    {record : MethodRecord α} (hid : profile.methods.record? id = some record) :
    ∃ after, other.methods.record? id = some after ∧ after.key = record.key ∧
      after.method = record.method := by
  have hname : profile.methods.names[id]? = some (record.key, record.method) := by
    rw [Registry.names_getElem?, hid]
    rfl
  have := h.names hname
  rw [Registry.names_getElem?] at this
  obtain ⟨after, hafter, heq⟩ := Option.map_eq_some_iff.mp this
  simp only [Prod.mk.injEq] at heq
  exact ⟨after, hafter, heq.1, heq.2⟩

theorem Grows.node? {profile other : Profile α} (h : Grows profile other) {id : Nat}
    {node : Node α} (hid : profile.tree.node? id = some node) :
    ∃ after, other.tree.node? id = some after ∧ after.origin = node.origin := by
  have horigin : profile.tree.origins[id]? = some node.origin := by
    rw [CallTree.origins_getElem?, hid]
    rfl
  have := h.origins horigin
  rw [CallTree.origins_getElem?] at this
  obtain ⟨after, hafter, heq⟩ := Option.map_eq_some_iff.mp this
  exact ⟨after, hafter, heq⟩

theorem Grows.size_le {profile other : Profile α} (h : Grows profile other) :
    profile.tree.size ≤ other.tree.size := by
  rcases Nat.eq_zero_or_pos profile.tree.size with hzero | hpos
  · omega
  · obtain ⟨node, hnode⟩ :=
      CallTree.exists_node? (show profile.tree.size - 1 < profile.tree.size by omega)
    obtain ⟨after, hafter, -⟩ := h.node? hnode
    have := CallTree.node?_lt hafter
    omega

theorem Grows.hasParent {profile other : Profile α} (h : Grows profile other)
    {parent : Option NodeId} (hparent : profile.HasParent parent) : other.HasParent parent :=
  fun p hp => Nat.lt_of_lt_of_le (hparent p hp) h.size_le

theorem Grows.path_eq {profile other : Profile α} (h : Grows profile other)
    (hs : profile.Sound) (ho : other.Sound) :
    ∀ {id : Nat}, id < profile.tree.size → other.path id = profile.path id := by
  intro id
  induction id using Nat.strongRecOn with
  | ind id ih =>
      intro hid
      obtain ⟨node, record, hnode, hrecord, -, hpath⟩ := hs.exists_path_eq hid
      obtain ⟨after, hafter, horigin⟩ := h.node? hnode
      obtain ⟨hmethod, -, hparent, -⟩ := Node.of_origin horigin
      obtain ⟨found, hfound, -, hidentity⟩ := h.record? hrecord
      rw [hpath, ho.path_eq hafter (hmethod ▸ hfound), hidentity, hparent]
      cases hp : node.parent with
      | none => rfl
      | some parent =>
          have hlt := hs.tree.parent_lt hnode hp
          show _ :: other.path parent = _ :: profile.path parent
          rw [ih parent hlt (Nat.lt_trans hlt hid)]

theorem Grows.pathTo_eq {profile other : Profile α} (h : Grows profile other)
    (hs : profile.Sound) (ho : other.Sound) {parent : Option NodeId}
    (hparent : profile.HasParent parent) : other.pathTo parent = profile.pathTo parent := by
  cases parent with
  | none => rfl
  | some p => exact h.path_eq hs ho (hparent p rfl)

theorem Grows.hasPath {profile other : Profile α} (h : Grows profile other)
    (hs : profile.Sound) (ho : other.Sound) {path : List Method}
    (hpath : profile.HasPath path) : other.HasPath path := by
  obtain ⟨id, hid, rfl⟩ := hpath
  exact ⟨id, Nat.lt_of_lt_of_le hid h.size_le, h.path_eq hs ho hid⟩

theorem Grows.hasPath_iff_of_tree {profile other : Profile α} (h : Grows profile other)
    (hs : profile.Sound) (ho : other.Sound) (htree : other.tree = profile.tree)
    {path : List Method} : other.HasPath path ↔ profile.HasPath path := by
  refine ⟨?_, h.hasPath hs ho⟩
  rintro ⟨id, hid, rfl⟩
  rw [htree] at hid
  exact ⟨id, hid, (h.path_eq hs ho hid).symm⟩

theorem SameShape.hasPath_iff {profile other : Profile α} (h : SameShape profile other)
    (hs : profile.Sound) {path : List Method} : other.HasPath path ↔ profile.HasPath path := by
  have ho := hs.of_shape h
  constructor
  · rintro ⟨id, hid, rfl⟩
    rw [h.size] at hid
    exact ⟨id, hid, (h.grows.path_eq hs ho hid).symm⟩
  · exact h.grows.hasPath hs ho

theorem grows_attach {profile : Profile α} [Amount α] {parent : Option NodeId}
    {method : Nat} {record : MethodRecord α} (site : CallSite)
    (hrecord : profile.methods.record? method = some record)
    (hparent : profile.HasParent parent) :
    Grows profile (profile.attach parent method site) := by
  rw [attach_of_record hrecord]
  refine ⟨fun hname => ?_, fun {id} {origin} horigin => ?_⟩
  · show (profile.methods.modify method _).names[_]? = _
    rw [names_push_node]
    exact hname
  · have hlt : id < profile.tree.origins.size := (Array.getElem?_eq_some_iff.mp horigin).1
    show (profile.tree.link _).origins[id]? = _
    rw [CallTree.origins_link (hparent.fresh method record.key site), Array.getElem?_push,
      if_neg (Nat.ne_of_lt hlt)]
    exact horigin

theorem grows_learn {profile : Profile α} {record : MethodRecord α} :
    Grows profile { profile with methods := profile.methods.push record } := by
  refine ⟨fun {id} {name} hname => ?_, id⟩
  have hlt : id < profile.methods.names.size := (Array.getElem?_eq_some_iff.mp hname).1
  rw [Registry.names_push, Array.getElem?_push, if_neg (Nat.ne_of_lt hlt)]
  exact hname

/-- The path of an attached node, and that it is the only new one. -/
theorem Sound.path_attach {profile : Profile α} [Amount α] (hs : profile.Sound)
    {parent : Option NodeId} {method : Nat} {record : MethodRecord α} (site : CallSite)
    (hrecord : profile.methods.record? method = some record)
    (hparent : profile.HasParent parent)
    (hnew : profile.tree.childOf? parent record.key = none) :
    (profile.attach parent method site).path profile.tree.size =
      record.method :: profile.pathTo parent := by
  have ho := hs.attach site hrecord hparent hnew
  have hgrows := grows_attach site hrecord hparent
  obtain ⟨found, hfound, -, hidentity⟩ := hgrows.record? hrecord
  rw [ho.path_eq (node?_attach site hrecord hparent) hfound, hidentity,
    ← hgrows.pathTo_eq hs ho hparent]
  rfl

/-- A call leads to the node whose path extends that of the parent. -/
theorem Sound.path_child {profile : Profile α} [Amount α] (hs : profile.Sound)
    {parent : Option NodeId} {method : Nat} {record : MethodRecord α} (site : CallSite)
    (hrecord : profile.methods.record? method = some record)
    (hparent : profile.HasParent parent) :
    (profile.child parent method site).1.path (profile.child parent method site).2 =
      record.method :: profile.pathTo parent := by
  rw [child_of_record hrecord]
  cases hchild : profile.tree.childOf? parent record.key with
  | some id => exact ((hs.childOf?_path hparent hrecord).mp hchild).2
  | none => exact hs.path_attach site hrecord hparent hchild

theorem size_attach {profile : Profile α} [Amount α] (parent : Option NodeId) {method : Nat}
    {record : MethodRecord α} (site : CallSite)
    (hrecord : profile.methods.record? method = some record) :
    (profile.attach parent method site).tree.size = profile.tree.size + 1 := by
  rw [attach_of_record hrecord]
  exact CallTree.size_link

/-- Attaching a node adds one path. -/
theorem Sound.hasPath_attach {profile : Profile α} [Amount α] (hs : profile.Sound)
    {parent : Option NodeId} {method : Nat} {record : MethodRecord α} (site : CallSite)
    (hrecord : profile.methods.record? method = some record)
    (hparent : profile.HasParent parent)
    (hnew : profile.tree.childOf? parent record.key = none) {path : List Method} :
    (profile.attach parent method site).HasPath path ↔
      profile.HasPath path ∨ path = record.method :: profile.pathTo parent := by
  have ho := hs.attach site hrecord hparent hnew
  have hgrows := grows_attach site hrecord hparent
  have hpath := hs.path_attach site hrecord hparent hnew
  have hsize := size_attach parent site hrecord
  constructor
  · rintro ⟨id, hid, rfl⟩
    rw [hsize] at hid
    rcases Nat.eq_or_lt_of_le (Nat.le_of_lt_succ hid) with rfl | hlt
    · exact Or.inr hpath
    · exact Or.inl ⟨id, hlt, (hgrows.path_eq hs ho hlt).symm⟩
  · rintro (hold | rfl)
    · exact hgrows.hasPath hs ho hold
    · exact ⟨profile.tree.size, by omega, hpath⟩

end Profile

end CallLedger
