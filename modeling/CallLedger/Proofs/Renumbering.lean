import Mathlib.Data.List.Forall2
import CallLedger.Proofs.Gathering
import CallLedger.Proofs.Filing

/-!
# Profiles whose nodes stand in other positions

A node is named by its position, which tells when it was made. Apart from the
order of siblings, which the links repeat, nothing that is reported depends on it.
Two profiles are renumbered when some nodes of the one stand for nodes of the other
one, as far as the links lead, and everything else is the same (`Renumbered`). Nodes
that are filed nowhere do not have to stand for any.

Records are compared but for what is only there while calls are open, or names
positions (`MethodRecord.lasting`). What takes in records does not look at that,
so it commutes with leaving it out.

Profiles that are renumbered can be grown side by side: each change of the one has
its counterpart, and nodes that stood for each other go on to do so
(`RenumberedWith`). In the end both list the same nodes (`Renumbered.dumpNodes_eq`).
-/

namespace CallLedger

/-- Members that stand at one place of two lists are members. -/
theorem forall₂_mem {β γ : Type} {r : β → γ → Prop} {xs : List β} {ys : List γ}
    (h : List.Forall₂ r xs ys) :
    List.Forall₂ (fun x y => x ∈ xs ∧ y ∈ ys ∧ r x y) xs ys := by
  obtain ⟨hlength, hall⟩ := List.forall₂_iff_zip.mp h
  refine List.forall₂_iff_zip.mpr ⟨hlength, fun hplace => ?_⟩
  obtain ⟨hx, hy⟩ := List.of_mem_zip hplace
  exact ⟨hx, hy, hall hplace⟩

theorem rel_imp {β γ : Type} {r later : β → γ → Prop} {a : Option β} {b : Option γ}
    (h : Option.Rel r a b) (hmore : ∀ {x : β} {y : γ}, r x y → later x y) :
    Option.Rel later a b := by
  cases h with
  | some hxy => exact .some (hmore hxy)
  | none => exact .none

theorem eq_none_iff_of_rel {β γ : Type} {r : β → γ → Prop} {a : Option β} {b : Option γ}
    (h : Option.Rel r a b) : a = none ↔ b = none := by
  cases h with
  | some hxy => exact iff_of_false nofun nofun
  | none => exact iff_of_true rfl rfl

theorem bind_eq_of_rel {β γ δ : Type} {r : β → γ → Prop} {a : Option β} {b : Option γ}
    {f : β → Option δ} {g : γ → Option δ} (h : Option.Rel r a b)
    (hsame : ∀ {x : β} {y : γ}, r x y → f x = g y) : a.bind f = b.bind g := by
  cases h with
  | some hxy => exact hsame hxy
  | none => rfl

/-- Two more positions that stand for each other. -/
def joined (same : NodeId → NodeId → Prop) (i j : NodeId) (x y : NodeId) : Prop :=
  same x y ∨ x = i ∧ y = j

/-! ## Links -/

namespace Links

variable {κ : Type} {same later : NodeId → NodeId → Prop} {links other : Links κ}

/-- The same keys in the same order, and what is filed under them stands for each other. -/
def Renumbered (same : NodeId → NodeId → Prop) (links other : Links κ) : Prop :=
  List.Forall₂ (fun a b => a.1 = b.1 ∧ same a.2 b.2) links.entries other.entries

theorem Renumbered.mono (h : Renumbered same links other)
    (hmore : ∀ {x y : NodeId}, same x y → later x y) : Renumbered later links other :=
  List.Forall₂.imp (fun _ _ hentry => ⟨hentry.1, hmore hentry.2⟩) h

theorem renumbered_empty : Renumbered same (empty : Links κ) empty := .nil

theorem Renumbered.targets (h : Renumbered same links other) :
    List.Forall₂ same links.targets other.targets := by
  unfold Links.targets
  rw [List.forall₂_map_left_iff, List.forall₂_map_right_iff]
  exact h.imp fun _ _ hentry => hentry.2

variable [DecidableEq κ]

theorem Renumbered.get? (h : Renumbered same links other) (key : κ) :
    Option.Rel same (links.get? key) (other.get? key) := by
  obtain ⟨entries⟩ := links
  obtain ⟨others⟩ := other
  change List.Forall₂ _ entries others at h
  unfold Links.get?
  induction h with
  | nil => exact .none
  | @cons a b entries others hentry _ ih =>
      simp only [List.find?_cons, hentry.1]
      split
      · exact .some hentry.2
      · exact ih

theorem Renumbered.insert (h : Renumbered same links other) (key : κ) {x y : NodeId}
    (hnew : same x y) : Renumbered same (links.insert key x) (other.insert key y) := by
  refine List.rel_append (List.rel_filter (fun a b hentry => ?_) h) (.cons ⟨rfl, hnew⟩ .nil)
  show decide (a.1 ≠ key) = true ↔ decide (b.1 ≠ key) = true
  rw [hentry.1]

end Links

/-! ## Nodes -/

variable {α : Type} {same later : NodeId → NodeId → Prop}

/-- The same node, with other positions for its neighbours. -/
structure Node.Renumbered (same : NodeId → NodeId → Prop) (node other : Node α) : Prop where
  method : node.method = other.method
  key : node.key = other.key
  parent : Option.Rel same node.parent other.parent
  measurement : node.measurement = other.measurement
  site : node.site = other.site
  links : node.links.Renumbered same other.links

theorem Node.Renumbered.mono {node other : Node α} (h : Node.Renumbered same node other)
    (hmore : ∀ {x y : NodeId}, same x y → later x y) : Node.Renumbered later node other where
  method := h.method
  key := h.key
  parent := rel_imp h.parent hmore
  measurement := h.measurement
  site := h.site
  links := h.links.mono hmore

/-! ## Records -/

/-- A record without what is there only while calls are open, and without positions. -/
def MethodRecord.lasting (record : MethodRecord α) : MethodRecord α :=
  { record with nodes := #[], visits := 0 }

namespace Registry

def lasting (methods : Registry α) : Registry α := ⟨methods.records.map MethodRecord.lasting⟩

variable {methods others : Registry α}

theorem record?_lasting (methods : Registry α) (id : MethodId) :
    methods.lasting.record? id = (methods.record? id).map MethodRecord.lasting :=
  Array.getElem?_map ..

theorem names_lasting (methods : Registry α) : methods.lasting.names = methods.names := by
  unfold lasting names
  rw [Array.map_map]
  rfl

theorem toList_lasting (methods : Registry α) :
    methods.lasting.records.toList = methods.records.toList.map MethodRecord.lasting :=
  Array.toList_map ..

theorem lasting_push (methods : Registry α) (record : MethodRecord α) :
    (methods.push record).lasting = methods.lasting.push record.lasting :=
  congrArg Registry.mk Array.map_push

theorem lasting_modify (methods : Registry α) (id : MethodId)
    {change after : MethodRecord α → MethodRecord α}
    (h : ∀ record, (change record).lasting = after record.lasting) :
    (methods.modify id change).lasting = methods.lasting.modify id after := by
  refine congrArg Registry.mk (Array.ext_getElem? fun i => ?_)
  show (methods.modify id change).lasting.record? i = (methods.lasting.modify id after).record? i
  rw [record?_modify, record?_lasting, record?_lasting, record?_modify]
  split
  · rw [Option.map_map, Option.map_map]
    exact congrArg (Option.map · _) (funext h)
  · rfl

theorem names_of_lasting (h : methods.lasting = others.lasting) : methods.names = others.names := by
  rw [← names_lasting methods, h, names_lasting]

/-- What lasts of the records is listed alike. -/
theorem listed_of_lasting [Amount α] (h : methods.lasting = others.lasting) :
    methods.records.toList.map DumpedMethod.ofRecord =
      others.records.toList.map DumpedMethod.ofRecord := by
  have hlisted : ∀ methods : Registry α, methods.records.toList.map DumpedMethod.ofRecord =
      methods.lasting.records.toList.map DumpedMethod.ofRecord := by
    intro methods
    rw [toList_lasting, List.map_map]
    rfl
  rw [hlisted methods, h, ← hlisted]

/-- Names and lists tell all that lasts. -/
theorem lasting_eq [Amount α] (hnames : methods.names = others.names)
    (hlisted : methods.records.toList.map DumpedMethod.ofRecord =
      others.records.toList.map DumpedMethod.ofRecord) : methods.lasting = others.lasting := by
  refine congrArg Registry.mk (Array.ext_getElem? fun i => ?_)
  show methods.lasting.record? i = others.lasting.record? i
  have hlist := congrArg (·[i]?) hlisted
  simp only [List.getElem?_map, Array.getElem?_toList] at hlist
  change (methods.record? i).map _ = (others.record? i).map _ at hlist
  rw [record?_lasting, record?_lasting]
  cases hmine : methods.record? i with
  | none =>
      rw [hmine] at hlist
      rw [Option.map_eq_none_iff.mp hlist.symm]
  | some record =>
      obtain ⟨other, hother, hkey, -⟩ := record?_of_names hnames hmine
      rw [hmine, hother, Option.map_some, Option.map_some, Option.some.injEq] at hlist
      rw [hother, Option.map_some, Option.map_some, Option.some.injEq]
      -- a list gives the number of a key only, and of a table its rows, which are all of it
      obtain ⟨_, _, _, _, _, _, _, _, _, ⟨_⟩⟩ := record
      obtain ⟨_, _, _, _, _, _, _, _, _, ⟨_⟩⟩ := other
      cases hkey
      cases hlist
      rfl

/-- Records of one method in two registries. -/
theorem record?_of_lasting (h : methods.lasting = others.lasting) {id : MethodId}
    {record : MethodRecord α} (hid : methods.record? id = some record) :
    ∃ other, others.record? id = some other ∧ other.lasting = record.lasting := by
  have hlasting := record?_lasting methods id
  rw [h, record?_lasting, hid] at hlasting
  exact Option.map_eq_some_iff.mp hlasting

/-- What is read off the lasting part of a record. -/
theorem map_of_lasting {β : Type} (h : methods.lasting = others.lasting)
    {part : MethodRecord α → β} (hpart : ∀ record, part record.lasting = part record)
    (id : MethodId) : (methods.record? id).map part = (others.record? id).map part := by
  have hlasting : ∀ methods : Registry α,
      (methods.record? id).map part = (methods.lasting.record? id).map part := by
    intro methods
    rw [record?_lasting, Option.map_map, show part ∘ MethodRecord.lasting = part from funext hpart]
  rw [hlasting methods, h, ← hlasting]

theorem lookupFrom_of_lasting {theirs same : Registry α} (h : methods.lasting = others.lasting)
    (ho : theirs.lasting = same.lasting) (id : MethodId) :
    methods.lookupFrom theirs id = others.lookupFrom same id := by
  have hfind : ∀ (methods theirs : Registry α), methods.lookupFrom theirs id =
      ((theirs.record? id).map (·.method)).bind methods.lookup := by
    intro methods theirs
    unfold Registry.lookupFrom
    cases theirs.record? id with
    | none => rfl
    | some record => rfl
  have hlookup : methods.lookup = others.lookup := by
    funext method
    unfold Registry.lookup
    rw [locate_congr (names_of_lasting h)]
  rw [hfind methods, hfind others, map_of_lasting ho (fun _ => rfl), hlookup]

variable [Amount α]

theorem adopt_lasting (methods : Registry α) (record : MethodRecord α) :
    methods.lasting.adopt record.lasting =
      ((methods.adopt record).1.lasting, (methods.adopt record).2) := by
  unfold adopt insert
  rw [locate_congr (names_lasting methods), show record.lasting.detached = record.detached from rfl]
  cases methods.locate record.detached.method with
  | found id => rfl
  | free key =>
      show (methods.lasting.push _, methods.lasting.size) = ((methods.push _).lasting, methods.size)
      rw [lasting_push, ← size_names, names_lasting, size_names]
      rfl

theorem adopt_of_lasting (h : methods.lasting = others.lasting) {record other : MethodRecord α}
    (hrecord : record.lasting = other.lasting) :
    (methods.adopt record).1.lasting = (others.adopt other).1.lasting ∧
      (methods.adopt record).2 = (others.adopt other).2 := by
  have hadopt := adopt_lasting methods record
  rw [h, hrecord, adopt_lasting, Prod.mk.injEq] at hadopt
  exact ⟨hadopt.1.symm, hadopt.2.symm⟩

theorem mergeRecord_lasting (methods : Registry α) (record : MethodRecord α) :
    methods.lasting.mergeRecord record.lasting = (methods.mergeRecord record).lasting := by
  have habsorb : ∀ found : MethodRecord α,
      (found.absorb record).lasting = found.lasting.absorb record.lasting := fun _ => rfl
  unfold mergeRecord
  rw [adopt_lasting]
  exact (lasting_modify _ _ habsorb).symm

theorem foldl_mergeRecord_lasting : ∀ (records : List (MethodRecord α)) (methods : Registry α),
    (records.map MethodRecord.lasting).foldl mergeRecord methods.lasting =
      (records.foldl mergeRecord methods).lasting := by
  intro records
  induction records with
  | nil => intro methods; rfl
  | cons record records ih =>
      intro methods
      rw [List.map_cons, List.foldl_cons, mergeRecord_lasting, ih]
      rfl

end Registry

/-! ## Profiles -/

namespace Profile

variable {profile other : Profile α}

/-- Some nodes of two profiles stand for each other, one for one: whatever is filed is among
them, and so is the parent of each of them. Everything else is the same. -/
structure Renumbered (same : NodeId → NodeId → Prop) (profile other : Profile α) : Prop where
  methods : profile.methods.lasting = other.methods.lasting
  nodes : ∀ {x y : NodeId}, same x y → ∃ a b, profile.tree.node? x = some a ∧
    other.tree.node? y = some b ∧ a.Renumbered same b
  roots : profile.tree.rootLinks.Renumbered same other.tree.rootLinks
  single : ∀ {x y x' y' : NodeId}, same x y → same x' y' → (x = x' ↔ y = y')

theorem Renumbered.lt (h : Renumbered same profile other) {x y : Nat} (hxy : same x y) :
    x < profile.tree.size ∧ y < other.tree.size := by
  obtain ⟨a, b, ha, hb, -⟩ := h.nodes hxy
  exact ⟨CallTree.node?_lt ha, CallTree.node?_lt hb⟩

theorem Renumbered.methodOf? (h : Renumbered same profile other) {x y : NodeId}
    (hxy : same x y) : profile.methodOf? x = other.methodOf? y := by
  obtain ⟨a, b, ha, hb, hab⟩ := h.nodes hxy
  rw [methodOf?_eq ha, methodOf?_eq hb, hab.method]

theorem Renumbered.hasParent (h : Renumbered same profile other) {parent peer : Option NodeId}
    (hparent : Option.Rel same parent peer) : profile.HasParent parent ∧ other.HasParent peer := by
  cases hparent with
  | none => exact ⟨hasParent_none, hasParent_none⟩
  | some hxy => exact ⟨hasParent_some (h.lt hxy).1, hasParent_some (h.lt hxy).2⟩

theorem Renumbered.eq_some_iff (h : Renumbered same profile other) {parent peer : Option NodeId}
    (hparent : Option.Rel same parent peer) {x y : NodeId} (hxy : same x y) :
    parent = some x ↔ peer = some y := by
  cases hparent with
  | none => exact iff_of_false nofun nofun
  | some hup => rw [Option.some.injEq, Option.some.injEq, h.single hup hxy]

theorem Renumbered.linksOf (h : Renumbered same profile other) {parent peer : Option NodeId}
    (hparent : Option.Rel same parent peer) :
    (profile.tree.linksOf parent).Renumbered same (other.tree.linksOf peer) := by
  cases hparent with
  | none => exact h.roots
  | some hxy =>
      obtain ⟨a, b, ha, hb, hab⟩ := h.nodes hxy
      rw [CallTree.linksOf_of_node? ha, CallTree.linksOf_of_node? hb]
      exact hab.links

theorem Renumbered.childOf? (h : Renumbered same profile other) {parent peer : Option NodeId}
    (hparent : Option.Rel same parent peer) (key : Key) :
    Option.Rel same (profile.tree.childOf? parent key) (other.tree.childOf? peer key) := by
  rw [CallTree.childOf?_eq_get?, CallTree.childOf?_eq_get?]
  exact (h.linksOf hparent).get? key

/-! ## The nodes that are listed -/

theorem Renumbered.walk (h : Renumbered same profile other) (hp : profile.tree.Branching)
    (hq : other.tree.Branching) {x : Nat} (hx : x < profile.tree.size) :
    ∀ {y : Nat}, same x y → List.Forall₂ same (profile.tree.walk x) (other.tree.walk y) := by
  induction x, hx using hp.children_induction with
  | step x hx ih =>
      intro y hxy
      have hchildren : List.Forall₂ same (profile.tree.children x) (other.tree.children y) := by
        rw [CallTree.children_eq_targets, CallTree.children_eq_targets]
        exact (h.linksOf (.some hxy)).targets
      rw [hp.walk_eq hx, hq.walk_eq (h.lt hxy).2, List.flatMap_def, List.flatMap_def]
      refine .cons hxy (List.rel_flatten ?_)
      rw [List.forall₂_map_left_iff, List.forall₂_map_right_iff]
      exact (forall₂_mem hchildren).imp fun child peer hchild => ih child hchild.1 hchild.2.2

theorem Renumbered.walkAll (h : Renumbered same profile other) (hp : profile.tree.Branching)
    (hq : other.tree.Branching) :
    List.Forall₂ same profile.tree.walkAll other.tree.walkAll := by
  unfold CallTree.walkAll
  rw [List.flatMap_def, List.flatMap_def]
  refine List.rel_flatten ?_
  rw [List.forall₂_map_left_iff, List.forall₂_map_right_iff]
  exact h.roots.targets.imp fun root peer hroot => h.walk hp hq (h.lt hroot).1 hroot

/-- Nodes that stand for each other stand in the same place of the list. -/
theorem Renumbered.idxOf? (h : Renumbered same profile other) {xs ys : List NodeId}
    (hlist : List.Forall₂ same xs ys) {x y : NodeId} (hxy : same x y) :
    xs.idxOf? x = ys.idxOf? y := by
  induction hlist with
  | nil => rfl
  | @cons a b xs ys hab _ ih =>
      rw [List.idxOf?_cons, List.idxOf?_cons, ih]
      have hhere : (a == x) = (b == y) := by
        rw [Bool.eq_iff_iff, beq_iff_eq, beq_iff_eq]
        exact h.single hab hxy
      rw [hhere]

theorem Renumbered.dumpNodes_eq [Amount α] (h : Renumbered same profile other)
    (hp : profile.tree.Branching) (hq : other.tree.Branching) :
    profile.dumpNodes = other.dumpNodes := by
  have hwalk := h.walkAll hp hq
  unfold dumpNodes
  rw [← List.forall₂_eq_eq_eq]
  refine List.rel_filterMap (fun x y hxy => ?_) hwalk
  obtain ⟨a, b, ha, hb, hab⟩ := h.nodes hxy
  rw [ha, hb, Option.map_some, Option.map_some]
  refine .some ?_
  have hparent : (a.parent.bind fun parent => profile.tree.walkAll.idxOf? parent) =
      b.parent.bind fun parent => other.tree.walkAll.idxOf? parent :=
    bind_eq_of_rel hab.parent fun hparent => h.idxOf? hwalk hparent
  unfold DumpedNode.ofNode
  rw [hab.method, hparent, hab.measurement, hab.site]

/-! ## Changes side by side -/

theorem Renumbered.with_methods (h : Renumbered same profile other) {methods others : Registry α}
    (hsame : methods.lasting = others.lasting) :
    Renumbered same { profile with methods := methods } { other with methods := others } :=
  ⟨hsame, h.nodes, h.roots, h.single⟩

theorem Renumbered.modifyNode (h : Renumbered same profile other) {x y : NodeId}
    (hxy : same x y) {change after : Node α → Node α}
    (hchange : ∀ {a b : Node α}, a.Renumbered same b → (change a).Renumbered same (after b)) :
    Renumbered same (profile.modifyNode x change) (other.modifyNode y after) where
  methods := h.methods
  nodes {x' y'} hxy' := by
    obtain ⟨a, b, ha, hb, hab⟩ := h.nodes hxy'
    show ∃ a b, (profile.tree.modify x change).node? x' = some a ∧
      (other.tree.modify y after).node? y' = some b ∧ a.Renumbered same b
    rw [CallTree.node?_modify, CallTree.node?_modify, ha, hb]
    by_cases hhere : x = x'
    · rw [if_pos hhere, if_pos ((h.single hxy hxy').mp hhere)]
      exact ⟨_, _, rfl, rfl, hchange hab⟩
    · rw [if_neg hhere, if_neg fun heq => hhere ((h.single hxy hxy').mpr heq)]
      exact ⟨a, b, rfl, rfl, hab⟩
  roots := h.roots
  single := h.single

/-- Linked side by side, the new nodes stand for each other. -/
theorem Renumbered.link (h : Renumbered same profile other) {node peer : Node α}
    (hnew : node.Renumbered same peer) {methods others : Registry α}
    (hsame : methods.lasting = others.lasting) :
    Renumbered (joined same profile.tree.size other.tree.size)
      ⟨methods, profile.tree.link node⟩ ⟨others, other.tree.link peer⟩ := by
  obtain ⟨hnode, hpeer⟩ := h.hasParent hnew.parent
  have hlast : joined same profile.tree.size other.tree.size profile.tree.size other.tree.size :=
    Or.inr ⟨rfl, rfl⟩
  refine ⟨hsame, ?_, ?_, ?_⟩
  · -- a node is the new one, or its parent, or neither, and its peer is the same
    intro x y hxy
    show ∃ a b, (profile.tree.link node).node? x = some a ∧
      (other.tree.link peer).node? y = some b ∧
        a.Renumbered (joined same profile.tree.size other.tree.size) b
    rw [CallTree.node?_link hnode, CallTree.node?_link hpeer]
    rcases hxy with hxy | ⟨rfl, rfl⟩
    · obtain ⟨a, b, ha, hb, hab⟩ := h.nodes hxy
      have hkept : a.Renumbered (joined same profile.tree.size other.tree.size) b :=
        hab.mono Or.inl
      rw [if_neg (Nat.ne_of_lt (h.lt hxy).1), if_neg (Nat.ne_of_lt (h.lt hxy).2), ha, hb]
      by_cases hhere : node.parent = some x
      · rw [if_pos hhere, if_pos ((h.eq_some_iff hnew.parent hxy).mp hhere), hnew.key]
        exact ⟨_, _, rfl, rfl, { hkept with links := hkept.links.insert _ hlast }⟩
      · rw [if_neg hhere, if_neg fun heq => hhere ((h.eq_some_iff hnew.parent hxy).mpr heq)]
        exact ⟨a, b, rfl, rfl, hkept⟩
    · rw [if_pos rfl, if_pos rfl]
      exact ⟨node, peer, rfl, rfl, hnew.mono Or.inl⟩
  · show (profile.tree.link node).rootLinks.Renumbered _ (other.tree.link peer).rootLinks
    have hkept : profile.tree.rootLinks.Renumbered (joined same profile.tree.size other.tree.size)
        other.tree.rootLinks := h.roots.mono Or.inl
    rw [CallTree.rootLinks_link, CallTree.rootLinks_link, hnew.key]
    by_cases hhere : node.parent = none
    · rw [if_pos hhere, if_pos ((eq_none_iff_of_rel hnew.parent).mp hhere)]
      exact hkept.insert _ hlast
    · rw [if_neg hhere, if_neg fun heq => hhere ((eq_none_iff_of_rel hnew.parent).mpr heq)]
      exact hkept
  · rintro x y x' y' (hxy | ⟨rfl, rfl⟩) (hxy' | ⟨rfl, rfl⟩)
    · exact h.single hxy hxy'
    · exact iff_of_false (Nat.ne_of_lt (h.lt hxy).1) (Nat.ne_of_lt (h.lt hxy).2)
    · exact iff_of_false (Nat.ne_of_gt (h.lt hxy').1) (Nat.ne_of_gt (h.lt hxy').2)
    · exact iff_of_true rfl rfl

theorem Renumbered.attach [Amount α] (h : Renumbered same profile other)
    {parent peer : Option NodeId} (hparent : Option.Rel same parent peer) {method : MethodId}
    {record : MethodRecord α} (hrecord : profile.methods.record? method = some record)
    (site : CallSite) :
    Renumbered (joined same profile.tree.size other.tree.size)
      (profile.attach parent method site) (other.attach peer method site) := by
  obtain ⟨found, hfound, hlasting⟩ := Registry.record?_of_lasting h.methods hrecord
  have hkey : record.lasting.key = found.lasting.key := by rw [hlasting]
  have hpushed : ∀ (methods : Registry α) (id : NodeId),
      (methods.modify method fun r => { r with nodes := r.nodes.push id }).lasting =
        methods.lasting.modify method fun r => r :=
    fun methods id => methods.lasting_modify method fun _ => rfl
  have hnew : Node.Renumbered same (.fresh method record.key parent site : Node α)
      (.fresh method found.key peer site) :=
    ⟨rfl, hkey, hparent, rfl, rfl, Links.renumbered_empty⟩
  rw [attach_of_record hrecord, attach_of_record hfound]
  refine h.link hnew ?_
  rw [hpushed, hpushed, h.methods]

/-- Renumbered profiles in which the given nodes, and perhaps more, stand for each other. -/
def RenumberedWith (same : NodeId → NodeId → Prop) (profile other : Profile α) : Prop :=
  ∃ later : NodeId → NodeId → Prop, (∀ {x y : NodeId}, same x y → later x y) ∧
    Renumbered later profile other

theorem Renumbered.renumberedWith (h : Renumbered same profile other) :
    RenumberedWith same profile other := ⟨same, fun hxy => hxy, h⟩

theorem RenumberedWith.mono (h : RenumberedWith later profile other)
    (hmore : ∀ {x y : NodeId}, same x y → later x y) : RenumberedWith same profile other := by
  obtain ⟨last, hlast, hrenumbered⟩ := h
  exact ⟨last, fun hxy => hlast (hmore hxy), hrenumbered⟩

/-- Steps that go side by side, each of them ready for its own. -/
theorem Renumbered.foldl {β γ : Type} {step : Profile α → β → Profile α}
    {peerStep : Profile α → γ → Profile α} (ready : (NodeId → NodeId → Prop) → β → γ → Prop)
    (hkeep : ∀ {same later : NodeId → NodeId → Prop} {a : β} {b : γ},
      (∀ {x y : NodeId}, same x y → later x y) → ready same a b → ready later a b)
    (hstep : ∀ {same : NodeId → NodeId → Prop} {profile other : Profile α} {a : β} {b : γ},
      Renumbered same profile other → ready same a b →
        RenumberedWith same (step profile a) (peerStep other b)) :
    ∀ {as : List β} {bs : List γ} {same : NodeId → NodeId → Prop} {profile other : Profile α},
      List.Forall₂ (ready same) as bs → Renumbered same profile other →
        RenumberedWith same (as.foldl step profile) (bs.foldl peerStep other) := by
  intro as
  induction as with
  | nil =>
      intro bs same profile other hready h
      cases hready
      exact h.renumberedWith
  | cons a as ih =>
      intro bs same profile other hready h
      cases hready with
      | cons hfirst hrest =>
          obtain ⟨later, hmore, hlater⟩ := hstep h hfirst
          exact (ih (hrest.imp fun _ _ => hkeep hmore) hlater).mono hmore

end Profile

end CallLedger
