import CallLedger.Proofs.Arena
import CallLedger.Proofs.Registry
import CallLedger.Profile.Basic

/-!
# The shape of a profile

The links of a call tree and the node lists of the method records repeat what
the arena of nodes says already. `Profile.Sound` says that they repeat it
faithfully, that a parent stands before its children, and that no two siblings
have one method.

Profiles grow only at their ends, by `attach` and by a new method record, and
everything else that happens to them is measuring, which does not touch the
shape. So three lemmas serve all later proofs: `Sound.attach`, `Sound.learn`,
and `Sound.of_shape` for the rest.
-/

namespace CallLedger.Profile

variable {α : Type}

/-- The registry, the arena and the links of a profile agree. -/
structure Sound (profile : Profile α) : Prop where
  methods : profile.methods.Sound
  /-- Every node has a method record, and is filed under its key. -/
  bound : ∀ {id : Nat} {node : Node α}, profile.tree.node? id = some node →
    ∃ record, profile.methods.record? node.method = some record ∧ record.key = node.key
  tree : profile.tree.Linked
  /-- Siblings have different methods, and so have roots. -/
  apart : ∀ {i j : Nat} {a b : Node α}, profile.tree.node? i = some a →
    profile.tree.node? j = some b → a.parent = b.parent → a.method = b.method → i = j
  listed : ∀ {id : Nat} {record : MethodRecord α},
    profile.methods.record? id = some record →
    record.nodes.toList = profile.tree.boundTo id

/-! ## Measuring -/

/-- Two profiles that differ in nothing but what was measured. -/
structure SameShape (profile other : Profile α) : Prop where
  names : other.methods.names = profile.methods.names
  nodes : ∀ id, (other.methods.record? id).map (·.nodes) =
    (profile.methods.record? id).map (·.nodes)
  origins : other.tree.origins = profile.tree.origins
  rootLinks : other.tree.rootLinks = profile.tree.rootLinks
  links : ∀ id, (other.tree.node? id).map (·.links) =
    (profile.tree.node? id).map (·.links)

theorem SameShape.refl (profile : Profile α) : SameShape profile profile :=
  ⟨rfl, fun _ => rfl, rfl, rfl, fun _ => rfl⟩

theorem SameShape.trans {a b c : Profile α} (hab : SameShape a b) (hbc : SameShape b c) :
    SameShape a c :=
  ⟨hbc.names.trans hab.names, fun id => (hbc.nodes id).trans (hab.nodes id),
    hbc.origins.trans hab.origins, hbc.rootLinks.trans hab.rootLinks,
    fun id => (hbc.links id).trans (hab.links id)⟩

theorem SameShape.node? {profile other : Profile α} (h : SameShape profile other)
    {id : Nat} {node : Node α} (hid : other.tree.node? id = some node) :
    ∃ before, profile.tree.node? id = some before ∧ before.origin = node.origin ∧
      before.links = node.links := by
  have horigin := congrArg (·[id]?) h.origins
  simp only [CallTree.origins_getElem?, hid, Option.map_some] at horigin
  have hlinks := h.links id
  rw [hid] at hlinks
  cases hbefore : profile.tree.node? id with
  | none => rw [hbefore] at horigin; cases horigin
  | some before =>
      rw [hbefore] at horigin hlinks
      simp only [Option.map_some, Option.some.injEq] at horigin hlinks
      exact ⟨before, rfl, horigin.symm, hlinks.symm⟩

theorem SameShape.size {profile other : Profile α} (h : SameShape profile other) :
    other.tree.size = profile.tree.size := by
  rw [← CallTree.size_origins, h.origins, CallTree.size_origins]

theorem Sound.of_shape {profile other : Profile α} (hs : profile.Sound)
    (h : SameShape profile other) : other.Sound where
  methods := hs.methods.of_names h.names.symm
  bound hid := by
    obtain ⟨before, hbefore, horigin, -⟩ := h.node? hid
    obtain ⟨hmethod, hnodeKey, -, -⟩ := Node.of_origin horigin
    obtain ⟨record, hrecord, hkey⟩ := hs.bound hbefore
    obtain ⟨after, hafter, hkeys, -⟩ := Registry.record?_of_names h.names.symm hrecord
    exact ⟨after, hmethod ▸ hafter, by rw [hkeys, hkey, hnodeKey]⟩
  tree := by
    refine ⟨⟨fun hid hp => ?_⟩, ?_, fun hid => ?_⟩
    · obtain ⟨before, hbefore, horigin, -⟩ := h.node? hid
      exact hs.tree.parent_lt hbefore ((Node.of_origin horigin).2.2.1.trans hp)
    · rw [h.rootLinks, hs.tree.roots, CallTree.filed_congr h.origins]
    · obtain ⟨before, hbefore, -, hlinks⟩ := h.node? hid
      rw [← hlinks, hs.tree.links hbefore, CallTree.filed_congr h.origins]
  apart hi hj hparent hmethod := by
    obtain ⟨a, ha, hao, -⟩ := h.node? hi
    obtain ⟨b, hb, hbo, -⟩ := h.node? hj
    obtain ⟨hma, -, hpa, -⟩ := Node.of_origin hao
    obtain ⟨hmb, -, hpb, -⟩ := Node.of_origin hbo
    exact hs.apart ha hb (by rw [hpa, hparent, hpb]) (by rw [hma, hmethod, hmb])
  listed {id record} hid := by
    have hnodes := h.nodes id
    rw [hid] at hnodes
    cases hbefore : profile.methods.record? id with
    | none => rw [hbefore] at hnodes; cases hnodes
    | some before =>
        rw [hbefore] at hnodes
        simp only [Option.map_some, Option.some.injEq] at hnodes
        rw [hnodes, hs.listed hbefore, CallTree.boundTo_congr h.origins]

theorem sameShape_modifyNode {profile : Profile α} {id : Nat} {change : Node α → Node α}
    (horigin : ∀ node, (change node).origin = node.origin)
    (hlinks : ∀ node, (change node).links = node.links) :
    SameShape profile (profile.modifyNode id change) where
  names := rfl
  nodes _ := rfl
  origins := CallTree.origins_modify horigin
  rootLinks := rfl
  links other := by
    show ((profile.tree.modify id change).node? other).map _ = _
    rw [CallTree.node?_modify]
    split
    · rw [Option.map_map]
      congr 1
      funext node
      exact hlinks node
    · rfl

theorem sameShape_modifyMethod {profile : Profile α} {id : Nat}
    {change : MethodRecord α → MethodRecord α}
    (hkey : ∀ record, (change record).key = record.key)
    (hmethod : ∀ record, (change record).method = record.method)
    (hnodes : ∀ record, (change record).nodes = record.nodes) :
    SameShape profile (profile.modifyMethod id change) where
  names := Registry.names_modify hkey hmethod
  nodes other := by
    show ((profile.methods.modify id change).record? other).map _ = _
    rw [Registry.record?_modify]
    split
    · rw [Option.map_map]
      congr 1
      funext record
      exact hnodes record
    · rfl
  origins := rfl
  rootLinks := rfl
  links _ := rfl

theorem sameShape_enter {profile : Profile α} [Amount α] (id method : Nat) :
    SameShape profile (profile.enter id method) := by
  have hnode : SameShape profile (profile.modifyNode id Node.entered) :=
    sameShape_modifyNode (fun _ => rfl) fun _ => rfl
  exact hnode.trans (sameShape_modifyMethod (fun _ => rfl) (fun _ => rfl) fun _ => rfl)

theorem sameShape_settle {profile : Profile α} [Amount α] (id method : Nat)
    (selfTime waitTime totalTime : α) :
    SameShape profile (profile.settle id method selfTime waitTime totalTime) := by
  have hmethod : SameShape profile
      (profile.modifyMethod method (·.settled selfTime waitTime totalTime)) :=
    sameShape_modifyMethod (fun _ => rfl) (fun _ => rfl) fun _ => rfl
  exact hmethod.trans (sameShape_modifyNode (fun _ => rfl) fun _ => rfl)

/-! ## Looking for a child -/

/-- A parent that a node can be put under. -/
def HasParent (profile : Profile α) (parent : Option NodeId) : Prop :=
  ∀ p : Nat, parent = some p → p < profile.tree.size

theorem hasParent_none {profile : Profile α} : profile.HasParent none := by
  intro p hp
  cases hp

theorem hasParent_some {profile : Profile α} {id : Nat} (h : id < profile.tree.size) :
    profile.HasParent (some id) := by
  intro p hp
  cases hp
  exact h

theorem HasParent.fresh {profile : Profile α} [Amount α] {parent : Option NodeId}
    (h : profile.HasParent parent) (method : MethodId) (key : Key) (site : CallSite) :
    ∀ p : Nat, (Node.fresh method key parent site : Node α).parent = some p →
      p < profile.tree.size := h

theorem Sound.get?_filed {profile : Profile α} (hs : profile.Sound)
    {parent : Option NodeId} {key : Key} {id : Nat} :
    (profile.tree.filed parent).get? key = some id ↔
      ∃ node, profile.tree.node? id = some node ∧ node.parent = parent ∧
        node.key = key := by
  rw [Links.get?_eq_some_iff, CallTree.mem_filed]
  rintro ⟨ka, a⟩ ha ⟨kb, b⟩ hb (hkey : ka = kb)
  obtain ⟨na, hna, hpa, hka⟩ := CallTree.mem_filed.mp ha
  obtain ⟨nb, hnb, hpb, hkb⟩ := CallTree.mem_filed.mp hb
  obtain ⟨ra, hra, hkra⟩ := hs.bound hna
  obtain ⟨rb, hrb, hkrb⟩ := hs.bound hnb
  have hmethod : na.method = nb.method :=
    hs.methods.key_inj hra hrb (by rw [hkra, hkrb, hka, hkb, hkey])
  rw [hkey, hs.apart hna hnb (by rw [hpa, hpb]) hmethod]

/-- The node under a key is the one child, or root, that has the key. -/
theorem Sound.childOf?_eq_some_iff {profile : Profile α} (hs : profile.Sound)
    {parent : Option NodeId} (hparent : profile.HasParent parent) {key : Key} {id : Nat} :
    profile.tree.childOf? parent key = some id ↔
      ∃ node, profile.tree.node? id = some node ∧ node.parent = parent ∧
        node.key = key := by
  rw [← hs.get?_filed]
  cases parent with
  | none =>
      show profile.tree.rootLinks.get? key = some id ↔ _
      rw [hs.tree.roots]
  | some p =>
      obtain ⟨node, hnode⟩ := CallTree.exists_node? (hparent p rfl)
      show (profile.tree.node? p).bind (·.links.get? key) = some id ↔ _
      rw [hnode, Option.bind_some, hs.tree.links hnode]

/-! ## Growing -/

theorem attach_of_record {profile : Profile α} [Amount α] {parent : Option NodeId}
    {method : Nat} {site : CallSite} {record : MethodRecord α}
    (hrecord : profile.methods.record? method = some record) :
    profile.attach parent method site =
      { methods := profile.methods.modify method fun r =>
          { r with nodes := r.nodes.push profile.tree.size }
        tree := profile.tree.link (.fresh method record.key parent site) } := by
  rw [attach, hrecord]

theorem node?_attach {profile : Profile α} [Amount α] {parent : Option NodeId} {method : Nat}
    {record : MethodRecord α} (site : CallSite)
    (hrecord : profile.methods.record? method = some record)
    (hparent : profile.HasParent parent) :
    (profile.attach parent method site).tree.node? profile.tree.size =
      some (.fresh method record.key parent site) := by
  rw [attach_of_record hrecord]
  show (profile.tree.link _).node? _ = _
  rw [CallTree.node?_link (hparent.fresh method record.key site), if_pos rfl]

theorem child_of_record {profile : Profile α} [Amount α] {parent : Option NodeId}
    {method : Nat} {site : CallSite} {record : MethodRecord α}
    (hrecord : profile.methods.record? method = some record) :
    profile.child parent method site =
      match profile.tree.childOf? parent record.key with
      | some id => (profile, id)
      | none => (profile.attach parent method site, profile.tree.size) := by
  rw [child, hrecord]
  rfl

theorem names_push_node {methods : Registry α} {method : MethodId} {node : NodeId} :
    (methods.modify method fun r => { r with nodes := r.nodes.push node }).names =
      methods.names :=
  Registry.names_modify (fun _ => rfl) fun _ => rfl

theorem names_attach (profile : Profile α) [Amount α] (parent : Option NodeId)
    (method : MethodId) (site : CallSite) :
    (profile.attach parent method site).methods.names = profile.methods.names := by
  unfold attach
  cases profile.methods.record? method with
  | none => rfl
  | some record => exact names_push_node

/-- A node under a parent that has no such child yet keeps a profile sound. -/
theorem Sound.attach {profile : Profile α} [Amount α] (hs : profile.Sound)
    {parent : Option NodeId} {method : Nat} {record : MethodRecord α} (site : CallSite)
    (hrecord : profile.methods.record? method = some record)
    (hparent : profile.HasParent parent)
    (hnew : profile.tree.childOf? parent record.key = none) :
    (profile.attach parent method site).Sound := by
  rw [attach_of_record hrecord]
  have hfresh := hparent.fresh method record.key site
  have hnames : (profile.methods.modify method fun r =>
      { r with nodes := r.nodes.push profile.tree.size }).names = profile.methods.names :=
    names_push_node
  have hnone : (profile.tree.filed parent).get? record.key = none := by
    cases hget : (profile.tree.filed parent).get? record.key with
    | none => rfl
    | some id =>
        rw [(hs.childOf?_eq_some_iff hparent).mpr (hs.get?_filed.mp hget)] at hnew
        cases hnew
  have hapart : ∀ {j : Nat} {b : Node α}, profile.tree.node? j = some b →
      b.parent = parent → b.method ≠ method := by
    intro j b hj hbp hbm
    obtain ⟨rb, hrb, hkb⟩ := hs.bound hj
    rw [hbm, hrecord] at hrb
    cases hrb
    rw [(hs.childOf?_eq_some_iff hparent).mpr ⟨b, hj, hbp, hkb.symm⟩] at hnew
    cases hnew
  refine ⟨hs.methods.of_names hnames.symm, ?_, hs.tree.link hfresh rfl hnone, ?_, ?_⟩
  · intro id node hid
    rcases CallTree.node?_link_cases hfresh hid with ⟨-, rfl⟩ | ⟨before, hbefore, horigin, -⟩
    · obtain ⟨after, hafter, hkeys, -⟩ := Registry.record?_of_names hnames.symm hrecord
      exact ⟨after, hafter, hkeys⟩
    · obtain ⟨hm, hk, -, -⟩ := Node.of_origin horigin
      obtain ⟨old, hold, hkeyOld⟩ := hs.bound hbefore
      obtain ⟨after, hafter, hkeys, -⟩ := Registry.record?_of_names hnames.symm hold
      exact ⟨after, hm ▸ hafter, by rw [hkeys, hkeyOld, hk]⟩
  · intro i j a b hi hj hpab hmab
    rcases CallTree.node?_link_cases hfresh hi with ⟨rfl, rfl⟩ | ⟨a', ha', hao, -⟩ <;>
      rcases CallTree.node?_link_cases hfresh hj with ⟨rfl, rfl⟩ | ⟨b', hb', hbo, -⟩
    · rfl
    · obtain ⟨hm, -, hp, -⟩ := Node.of_origin hbo
      exact absurd (hm.trans hmab.symm) (hapart hb' (hp.trans hpab.symm))
    · obtain ⟨hm, -, hp, -⟩ := Node.of_origin hao
      exact absurd (hm.trans hmab) (hapart ha' (hp.trans hpab))
    · obtain ⟨hma, -, hpa, -⟩ := Node.of_origin hao
      obtain ⟨hmb, -, hpb, -⟩ := Node.of_origin hbo
      exact hs.apart ha' hb' (by rw [hpa, hpab, hpb]) (by rw [hma, hmab, hmb])
  · intro id after hid
    rw [Registry.record?_modify] at hid
    rw [CallTree.boundTo_link hfresh]
    split at hid
    · next heq =>
        subst heq
        rw [hrecord] at hid
        cases hid
        rw [if_pos (show (Node.fresh method record.key parent site : Node α).method = method
          from rfl), ← hs.listed hrecord]
        exact Array.toList_push
    · next hne =>
        rw [if_neg (show ¬(Node.fresh method record.key parent site : Node α).method = id
          from hne), List.append_nil]
        exact hs.listed hid

/-- A method that was not known keeps a profile sound; it has no nodes yet. -/
theorem Sound.learn {profile : Profile α} (hs : profile.Sound) {record : MethodRecord α}
    (hlocate : profile.methods.locate record.method = .free record.key)
    (hnodes : record.nodes = #[]) :
    Sound { profile with methods := profile.methods.push record } where
  methods := hs.methods.push hlocate
  bound hid := by
    obtain ⟨before, hbefore, hkey⟩ := hs.bound hid
    refine ⟨before, ?_, hkey⟩
    rw [Registry.record?_push, if_neg (Nat.ne_of_lt (Registry.record?_lt hbefore))]
    exact hbefore
  tree := hs.tree
  apart := hs.apart
  listed {id found} hid := by
    rw [Registry.record?_push] at hid
    split at hid
    · next heq =>
        cases hid
        rw [hnodes]
        refine (List.eq_nil_iff_forall_not_mem.mpr fun node hmem => ?_).symm
        obtain ⟨-, hbound⟩ := List.mem_filter.mp hmem
        rw [CallTree.origins_getElem?] at hbound
        cases hnode : profile.tree.node? node with
        | none => rw [hnode] at hbound; cases hbound
        | some found =>
            rw [hnode] at hbound
            obtain ⟨before, hbefore, -⟩ := hs.bound hnode
            have hmethod : found.method = id := by simpa [Node.origin] using hbound
            have hlt := Registry.record?_lt hbefore
            rw [hmethod, heq] at hlt
            exact Nat.lt_irrefl _ hlt
    · exact hs.listed hid

/-- Methods of which there are no nodes yet. -/
theorem sound_unlinked {methods : Registry α} (hs : methods.Sound)
    (hnodes : ∀ {id : Nat} {record : MethodRecord α}, methods.record? id = some record →
      record.nodes = #[]) : Sound (⟨methods, .empty⟩ : Profile α) where
  methods := hs
  bound hid := absurd (CallTree.node?_lt hid) (Nat.not_lt_zero _)
  tree := CallTree.linked_empty
  apart hid := absurd (CallTree.node?_lt hid) (Nat.not_lt_zero _)
  listed hid := by
    rw [hnodes hid]
    rfl

theorem sound_empty : (empty : Profile α).Sound :=
  sound_unlinked Registry.sound_empty fun hid => absurd (Registry.record?_lt hid) (Nat.not_lt_zero _)

end CallLedger.Profile
