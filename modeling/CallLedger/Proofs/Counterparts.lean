import CallLedger.Proofs.OpenCalls
import CallLedger.Proofs.Walk
import CallLedger.Profile.Merge

/-!
# Where the nodes of another profile belong

What a merge does with a node of the other profile depends on where the node belongs. When whole
trees are merged that is its own path. A subtree that is added to a node anywhere keeps the lower
part of its paths, and the upper part is exchanged (`grafted`).

A merge does not look at paths. It looks a method up by identity, takes the key that the method has
here, and asks for the child under that key. In sound profiles this finds the node that stands
where the other one belongs, and no other (`Sound.counterpart_eq_some_iff`). The nodes at which a
merge may begin are compared in the same way (`Sound.corresponds_iff`).
-/

namespace CallLedger.Profile

variable {α : Type}

/-! ## Places -/

/-- Where a node belongs when the upper end of its path is exchanged. -/
def grafted (profile : Profile α) (stem base : List Method) (id : NodeId) : List Method :=
  (profile.path id).take ((profile.path id).length - stem.length) ++ base

theorem grafted_eq {profile : Profile α} {stem base way : List Method} {id : NodeId}
    (h : profile.path id = way ++ stem) : profile.grafted stem base id = way ++ base := by
  rw [grafted, h, List.length_append, Nat.add_sub_cancel, List.take_left]

/-- When nothing is exchanged a node belongs where it is. -/
theorem grafted_nil (profile : Profile α) : profile.grafted [] [] = profile.path := by
  funext id
  rw [grafted_eq (List.append_nil _).symm, List.append_nil]

theorem grafted_inj {profile : Profile α} {stem base : List Method} {i j : NodeId}
    (hi : stem <:+ profile.path i) (hj : stem <:+ profile.path j)
    (h : profile.grafted stem base i = profile.grafted stem base j) :
    profile.path i = profile.path j := by
  obtain ⟨way, hway⟩ := hi
  obtain ⟨other, hother⟩ := hj
  rw [grafted_eq hway.symm, grafted_eq hother.symm] at h
  rw [← hway, ← hother, List.append_cancel_right h]

variable {other profile : Profile α} {place : NodeId → List Method} {parent : Option NodeId}
  {source : Nat} {node : Node α} {record : MethodRecord α}

/-- A node of the other profile belongs under a parent, by its method. -/
structure Fits (place : NodeId → List Method) (other profile : Profile α) (parent : Option NodeId)
    (source : NodeId) (node : Node α) (record : MethodRecord α) : Prop where
  hasParent : profile.HasParent parent
  listed : other.tree.node? source = some node
  bound : other.methods.record? node.method = some record
  leads : place source = record.method :: profile.pathTo parent

/-- A root belongs among the roots. -/
theorem Sound.fits_root (ho : other.Sound) (hroot : source ∈ other.tree.roots) :
    ∃ node record, Fits other.path other profile none source node record := by
  obtain ⟨hsource, hparent⟩ := ho.tree.mem_roots.mp hroot
  obtain ⟨node, record, hnode, hrecord, -, hpath⟩ := ho.exists_path_eq hsource
  rw [← CallTree.parent?_eq hnode, hparent] at hpath
  exact ⟨node, record, hasParent_none, hnode, hrecord, hpath⟩

/-- A child belongs under the node that is where its parent belongs. -/
theorem Sound.fits_child (ho : other.Sound) {stem base : List Method} {child id : Nat}
    (hstem : stem <:+ other.path source) (hchild : other.tree.parent? child = some source)
    (hid : id < profile.tree.size) (hpath : profile.path id = other.grafted stem base source) :
    ∃ node record, Fits (other.grafted stem base) other profile (some id) child node record := by
  obtain ⟨node, hnode, hparent⟩ := CallTree.parent?_eq_some hchild
  obtain ⟨record, hrecord, -⟩ := ho.bound hnode
  have hwhole : other.path child = record.method :: other.path source := by
    rw [ho.path_eq hnode hrecord, hparent]
    rfl
  obtain ⟨way, hway⟩ := hstem
  have hbelow : other.path child = (record.method :: way) ++ stem := by
    rw [hwhole, ← hway, List.cons_append]
  refine ⟨node, record, hasParent_some hid, hnode, hrecord, ?_⟩
  rw [grafted_eq hbelow, pathTo, hpath, grafted_eq hway.symm, List.cons_append]

/-! ## The counterpart of a node -/

/-- Every method of the other profile has a record in this one. -/
def Knows (profile other : Profile α) : Prop :=
  ∀ {id : Nat} {record : MethodRecord α}, other.methods.record? id = some record →
    ∃ mine found, profile.methods.record? mine = some found ∧ found.method = record.method

theorem adopt_eq {methods : Registry α} [Amount α] (hs : methods.Sound) {id : Nat}
    {found record : MethodRecord α} (hid : methods.record? id = some found)
    (hmethod : found.method = record.method) : methods.adopt record = (methods, id) := by
  have hlocate : methods.locate record.detached.method = .found id := by
    show methods.locate record.method = _
    rw [← hmethod, hs.locate_record hid]
  rw [Registry.adopt, Registry.insert, hlocate]

/-- A method at the head of a path has a record. -/
theorem Sound.known_of_hasPath (hs : profile.Sound) {method : Method} {path : List Method}
    (h : profile.HasPath (method :: path)) :
    ∃ id record, profile.methods.record? id = some record ∧ record.method = method := by
  obtain ⟨id, hid, hpath⟩ := h
  obtain ⟨node, record, -, hrecord, -, hcons⟩ := hs.exists_path_eq hid
  rw [hcons, List.cons.injEq] at hpath
  exact ⟨node.method, record, hrecord, hpath.1⟩

/-- Looking a method up and asking for the child under its key finds the node whose path extends
that of the parent by the method. -/
theorem Sound.childFor_eq_some_iff (hs : profile.Sound) (hparent : profile.HasParent parent)
    {method : Method} {child : Nat} :
    ((profile.methods.lookup method).bind fun mine => (profile.methods.record? mine).bind
        fun record => profile.tree.childOf? parent record.key) = some child ↔
      child < profile.tree.size ∧ profile.path child = method :: profile.pathTo parent := by
  cases hlookup : profile.methods.lookup method with
  | none =>
      -- a method that is not known has no nodes
      refine iff_of_false (by simp) fun ⟨hchild, hpath⟩ => ?_
      obtain ⟨id, found, hfound, hmethod⟩ := hs.known_of_hasPath ⟨child, hchild, hpath⟩
      rw [← hmethod, hs.methods.lookup_record hfound] at hlookup
      cases hlookup
  | some mine =>
      obtain ⟨found, hfound, rfl⟩ := Registry.lookup_eq_some hlookup
      rw [Option.bind_some, hfound, Option.bind_some]
      exact hs.childOf?_path hparent hfound

/-- Looking for the counterpart of a node of the other profile is looking where the node
belongs. -/
theorem Sound.counterpart_eq_some_iff (hs : profile.Sound)
    (h : Fits place other profile parent source node record) {child : Nat} :
    (profile.keyFrom other source).bind (profile.tree.childOf? parent) = some child ↔
      child < profile.tree.size ∧ profile.path child = place source := by
  have hfind : (profile.keyFrom other source).bind (profile.tree.childOf? parent) =
      (profile.methods.lookup record.method).bind fun mine => (profile.methods.record? mine).bind
        fun found => profile.tree.childOf? parent found.key := by
    rw [keyFrom, methodOf?_eq h.listed]
    simp only [Option.bind_eq_bind, Option.bind_some, Registry.lookupFrom, h.bound,
      Option.pure_def, Option.bind_assoc]
  rw [hfind, h.leads]
  exact hs.childFor_eq_some_iff h.hasParent

theorem Sound.counterpart_eq_none_iff (hs : profile.Sound)
    (h : Fits place other profile parent source node record) :
    (profile.keyFrom other source).bind (profile.tree.childOf? parent) = none ↔
      ¬ profile.HasPath (place source) := by
  simp only [Option.eq_none_iff_forall_ne_some, ne_eq, hs.counterpart_eq_some_iff h, HasPath,
    not_exists]

/-! ## Nodes that stand for one call -/

theorem Sound.lookupFrom_iff (hs : profile.Sound) (ho : other.Sound) {target source : Nat}
    {mine theirs : Node α} (hmine : profile.tree.node? target = some mine)
    (htheirs : other.tree.node? source = some theirs) :
    profile.methods.lookupFrom other.methods theirs.method = some mine.method ↔
      profile.identity? target = other.identity? source := by
  obtain ⟨found, hfound, -⟩ := hs.bound hmine
  obtain ⟨record, hrecord, -⟩ := ho.bound htheirs
  rw [identity?_eq hmine hfound, identity?_eq htheirs hrecord, Option.some.injEq,
    Registry.lookupFrom, hrecord]
  show profile.methods.lookup record.method = some mine.method ↔ _
  constructor
  · intro hlookup
    obtain ⟨same, hsame, hmethod⟩ := Registry.lookup_eq_some hlookup
    rw [hfound, Option.some.injEq] at hsame
    rw [hsame, hmethod]
  · intro hmethod
    rw [← hmethod]
    exact hs.methods.lookup_record hfound

/-- Nodes correspond when they bear the same method and both are roots, or have parents that bear
the same method. -/
theorem Sound.corresponds_iff (hs : profile.Sound) (ho : other.Sound) {target source : Nat} :
    profile.corresponds other target source = true ↔
      target < profile.tree.size ∧ source < other.tree.size ∧
        profile.identity? target = other.identity? source ∧
        (profile.tree.parent? target).map profile.identity? =
          (other.tree.parent? source).map other.identity? := by
  rw [corresponds]
  cases hmine : profile.tree.node? target with
  | none =>
      refine iff_of_false Bool.false_ne_true fun ⟨htarget, _⟩ => ?_
      exact absurd htarget (Nat.not_lt_of_le (CallTree.node?_eq_none_iff.mp hmine))
  | some mine =>
      cases htheirs : other.tree.node? source with
      | none =>
          refine iff_of_false Bool.false_ne_true fun ⟨_, hsource, _⟩ => ?_
          exact absurd hsource (Nat.not_lt_of_le (CallTree.node?_eq_none_iff.mp htheirs))
      | some theirs =>
          simp only [Bool.and_eq_true, decide_eq_true_eq, hs.lookupFrom_iff ho hmine htheirs,
            CallTree.node?_lt hmine, CallTree.node?_lt htheirs, true_and,
            CallTree.parent?_eq hmine, CallTree.parent?_eq htheirs]
          refine and_congr_right fun _ => ?_
          cases hup : mine.parent with
          | none => cases theirs.parent <;> simp
          | some p =>
              cases hother : theirs.parent with
              | none => simp
              | some q =>
                  obtain ⟨above, habove⟩ := CallTree.exists_node?
                    (Nat.lt_trans (hs.tree.parent_lt hmine hup) (CallTree.node?_lt hmine))
                  obtain ⟨upper, hupper⟩ := CallTree.exists_node?
                    (Nat.lt_trans (ho.tree.parent_lt htheirs hother) (CallTree.node?_lt htheirs))
                  simp [methodOf?_eq habove, methodOf?_eq hupper,
                    hs.lookupFrom_iff ho habove hupper]

/-- Roots with one path correspond. -/
theorem Sound.corresponds_of_path (hs : profile.Sound) (ho : other.Sound) {target : Nat}
    (htarget : target < profile.tree.size) (hroot : source ∈ other.tree.roots)
    (hpath : profile.path target = other.path source) :
    profile.corresponds other target source = true := by
  obtain ⟨hsource, hparent⟩ := ho.tree.mem_roots.mp hroot
  obtain ⟨theirs, record, htheirs, hrecord, -, hcons⟩ := ho.exists_path_eq hsource
  obtain ⟨mine, found, hmine, hfound, -, hmineCons⟩ := hs.exists_path_eq htarget
  rw [hcons, hmineCons, ← CallTree.parent?_eq htheirs, hparent, List.cons.injEq] at hpath
  refine (hs.corresponds_iff ho).mpr ⟨htarget, hsource, ?_, ?_⟩
  · rw [identity?_eq hmine hfound, identity?_eq htheirs hrecord, hpath.1]
  · rw [hparent, CallTree.parent?_eq hmine]
    cases hp : mine.parent with
    | none => rfl
    | some p =>
        rw [hp] at hpath
        exact absurd hpath.2
          (hs.path_ne_nil (Nat.lt_trans (hs.tree.parent_lt hmine hp) htarget))

end CallLedger.Profile
