import CallLedger.Proofs.Calling
import CallLedger.Proofs.Reprobing
import CallLedger.Proofs.Walk

/-!
# Profiles in good order

Much less than soundness is asked of a profile for its dump to make sense: its
keys come from growing, its rows are in order, every node has a method record
and is filed under its key, and what is filed under a node names the node as its
parent (`Profile.Filed`). It may hold a node that is filed nowhere. A dump that
lists two siblings of one method is loaded into such a profile, for the second
one takes the place of the first.

Attaching a node under any parent that is there keeps a profile in good order,
and so do learning a method and measuring. Recording and merging do nothing
else, so nothing needs to be known about the paths that a merge follows.
-/

namespace CallLedger

/-! ## Links -/

namespace Links

variable {κ : Type} [DecidableEq κ]

theorem mem_insert {links : Links κ} {key : κ} {target : Nat} {entry : κ × Nat} :
    entry ∈ (links.insert key target).entries ↔
      entry = (key, target) ∨ entry ∈ links.entries ∧ entry.1 ≠ key := by
  unfold insert erase
  rw [List.mem_append, List.mem_singleton, List.mem_filter, decide_eq_true_eq, or_comm]

theorem nodup_keys_insert {links : Links κ} (key : κ) (target : Nat)
    (h : (links.entries.map (·.1)).Nodup) :
    ((links.insert key target).entries.map (·.1)).Nodup := by
  unfold insert erase
  rw [List.map_append, List.nodup_append]
  refine ⟨(List.filter_sublist.map _).nodup h, List.nodup_singleton _, ?_⟩
  intro other hother last hlast heq
  obtain ⟨entry, hentry, rfl⟩ := List.mem_map.mp hother
  rw [List.map_singleton, List.mem_singleton] at hlast
  exact of_decide_eq_true (List.mem_filter.mp hentry).2 (heq.trans hlast)

end Links

/-! ## Call trees -/

namespace CallTree

variable {α : Type} {tree other : CallTree α}

/-- What is filed names its place as its parent, and is filed there under its key and no
other one is. -/
structure Filed (tree : CallTree α) : Prop extends Climbing tree where
  keyed : ∀ {parent : Option NodeId} {key : Key} {id : NodeId},
    (key, id) ∈ (tree.linksOf parent).entries →
      ∃ node, tree.node? id = some node ∧ node.parent = parent ∧ node.key = key
  apart : ∀ parent, ((tree.linksOf parent).entries.map (·.1)).Nodup

theorem Filed.branching (h : tree.Filed) : tree.Branching where
  toClimbing := h.toClimbing
  below {parent id} hid := by
    obtain ⟨⟨key, target⟩, hentry, rfl⟩ := List.mem_map.mp hid
    obtain ⟨node, hnode, hparent, -⟩ := h.keyed hentry
    exact ⟨node?_lt hnode, by rw [parent?_eq hnode, hparent]⟩
  nodup parent := by
    refine List.pairwise_map.mpr ?_
    refine (List.pairwise_map.mp (h.apart parent)).imp_of_mem fun {a b} ha hb hne heq => hne ?_
    obtain ⟨node, hnode, -, hkey⟩ := h.keyed ha
    obtain ⟨same, hsame, -, hsameKey⟩ := h.keyed hb
    rw [heq, hsame] at hnode
    cases hnode
    rw [← hkey, ← hsameKey]

/-- Siblings have different keys. -/
theorem Filed.target_inj (h : tree.Filed) {parent : Option NodeId} {x y : Nat} {a b : Node α}
    (hx : x ∈ (tree.linksOf parent).targets) (hy : y ∈ (tree.linksOf parent).targets)
    (ha : tree.node? x = some a) (hb : tree.node? y = some b) (hkey : a.key = b.key) : x = y := by
  obtain ⟨⟨keyX, _⟩, hentryX, rfl⟩ := List.mem_map.mp hx
  obtain ⟨⟨keyY, _⟩, hentryY, rfl⟩ := List.mem_map.mp hy
  obtain ⟨nodeX, hnodeX, -, rfl⟩ := h.keyed hentryX
  obtain ⟨nodeY, hnodeY, -, rfl⟩ := h.keyed hentryY
  simp only [] at ha hb
  rw [ha] at hnodeX
  rw [hb] at hnodeY
  cases hnodeX
  cases hnodeY
  exact congrArg Prod.snd (List.inj_on_of_nodup_map (h.apart parent) hentryX hentryY hkey)

theorem filed_empty : (empty : CallTree α).Filed where
  parent_lt hid := absurd (node?_lt hid) (Nat.not_lt_zero _)
  keyed {parent} key id hentry := by
    cases parent with
    | none => exact absurd hentry List.not_mem_nil
    | some p => exact absurd hentry List.not_mem_nil
  apart parent := by
    cases parent with
    | none => exact List.nodup_nil
    | some p => exact List.nodup_nil

/-- A node that is there has its origin for good. -/
theorem exists_node?_link {node : Node α}
    (hparent : ∀ p : Nat, node.parent = some p → p < tree.size) {id : Nat} {before : Node α}
    (h : tree.node? id = some before) :
    ∃ after, (tree.link node).node? id = some after ∧ after.origin = before.origin := by
  rw [node?_link hparent, if_neg (Nat.ne_of_lt (node?_lt h)), h]
  split
  · exact ⟨_, rfl, rfl⟩
  · exact ⟨before, rfl, rfl⟩

theorem Filed.link (h : tree.Filed) {node : Node α}
    (hparent : ∀ p : Nat, node.parent = some p → p < tree.size) (hlinks : node.links = .empty) :
    (tree.link node).Filed where
  toClimbing := h.toClimbing.link hparent
  keyed {parent key id} hentry := by
    have hold : (key, id) ∈ (tree.linksOf parent).entries →
        ∃ found, (tree.link node).node? id = some found ∧ found.parent = parent ∧
          found.key = key := by
      intro hmem
      obtain ⟨before, hbefore, hbp, hbk⟩ := h.keyed hmem
      obtain ⟨after, hafter, horigin⟩ := exists_node?_link hparent hbefore
      obtain ⟨-, hk, hp, -⟩ := Node.of_origin horigin
      exact ⟨after, hafter, hp.trans hbp, hk.trans hbk⟩
    rw [linksOf_link hparent] at hentry
    split at hentry
    · rw [hlinks] at hentry
      exact absurd hentry List.not_mem_nil
    · split at hentry
      · next hunder =>
          rcases Links.mem_insert.mp hentry with heq | ⟨hmem, -⟩
          · cases heq
            exact ⟨node, by rw [node?_link hparent, if_pos rfl], hunder, rfl⟩
          · exact hold hmem
      · exact hold hentry
  apart parent := by
    rw [linksOf_link hparent]
    split
    · rw [hlinks]
      exact List.nodup_nil
    · split
      · exact Links.nodup_keys_insert _ _ (h.apart parent)
      · exact h.apart parent

/-- Nodes with the same origins stand at the same positions. -/
theorem exists_node?_of_origins (h : tree.origins = other.origins) {id : Nat} {node : Node α}
    (hid : tree.node? id = some node) :
    ∃ found, other.node? id = some found ∧ found.origin = node.origin := by
  have horigin := congrArg (·[id]?) h
  simp only [origins_getElem?, hid, Option.map_some] at horigin
  exact Option.map_eq_some_iff.mp horigin.symm

theorem Filed.congr (h : tree.Filed) (horigins : other.origins = tree.origins)
    (hlinks : ∀ parent, other.linksOf parent = tree.linksOf parent) : other.Filed where
  parent_lt hid hp := by
    obtain ⟨before, hbefore, horigin⟩ := exists_node?_of_origins horigins hid
    exact h.parent_lt hbefore ((Node.of_origin horigin).2.2.1.trans hp)
  keyed hentry := by
    rw [hlinks] at hentry
    obtain ⟨node, hnode, hparent, hkey⟩ := h.keyed hentry
    obtain ⟨found, hfound, horigin⟩ := exists_node?_of_origins horigins.symm hnode
    obtain ⟨-, hk, hp, -⟩ := Node.of_origin horigin
    exact ⟨found, hfound, hp.trans hparent, hk.trans hkey⟩
  apart parent := by
    rw [hlinks]
    exact h.apart parent

end CallTree

/-! ## Profiles -/

namespace Profile

variable {α : Type} {profile : Profile α}

theorem SameShape.linksOf {other : Profile α} (h : SameShape profile other)
    (parent : Option NodeId) : other.tree.linksOf parent = profile.tree.linksOf parent := by
  cases parent with
  | none => exact h.rootLinks
  | some id => exact congrArg (·.getD .empty) (h.links id)

variable [Amount α]

structure Filed (profile : Profile α) : Prop where
  grown : profile.methods.Grown
  tidy : profile.methods.Tidy
  bound : ∀ {id : Nat} {node : Node α}, profile.tree.node? id = some node →
    ∃ record, profile.methods.record? node.method = some record ∧ record.key = node.key
  tree : profile.tree.Filed

theorem filed_empty : (empty : Profile α).Filed where
  grown := Registry.grown_empty
  tidy := Registry.tidy_empty
  bound hid := absurd (CallTree.node?_lt hid) (Nat.not_lt_zero _)
  tree := CallTree.filed_empty

theorem Filed.of_shape (h : profile.Filed) {other : Profile α} (hshape : SameShape profile other)
    (htidy : other.methods.Tidy) : other.Filed where
  grown := h.grown.of_names hshape.names
  tidy := htidy
  bound hid := by
    obtain ⟨before, hbefore, horigin, -⟩ := hshape.node? hid
    obtain ⟨hmethod, hnodeKey, -, -⟩ := Node.of_origin horigin
    obtain ⟨record, hrecord, hkey⟩ := h.bound hbefore
    obtain ⟨after, hafter, hkeys, -⟩ := Registry.record?_of_names hshape.names.symm hrecord
    exact ⟨after, hmethod ▸ hafter, by rw [hkeys, hkey, hnodeKey]⟩
  tree := h.tree.congr hshape.origins hshape.linksOf

/-! ## Growing -/

/-- A profile that has come out of another one in good order, with nothing lost. -/
structure Continues (profile after : Profile α) : Prop where
  filed : profile.Filed → after.Filed
  size_le : profile.tree.size ≤ after.tree.size

theorem Continues.refl (profile : Profile α) : Continues profile profile := ⟨id, Nat.le_refl _⟩

theorem Continues.trans {a b c : Profile α} (hab : Continues a b) (hbc : Continues b c) :
    Continues a c :=
  ⟨fun h => hbc.filed (hab.filed h), Nat.le_trans hab.size_le hbc.size_le⟩

theorem Continues.hasParent {after : Profile α} (h : Continues profile after)
    {parent : Option NodeId} (hparent : profile.HasParent parent) : after.HasParent parent :=
  fun p hp => Nat.lt_of_lt_of_le (hparent p hp) h.size_le

theorem continues_modifyNode {id : Nat} {change : Node α → Node α}
    (horigin : ∀ node, (change node).origin = node.origin)
    (hlinks : ∀ node, (change node).links = node.links) :
    Continues profile (profile.modifyNode id change) := by
  have hshape : SameShape profile (profile.modifyNode id change) :=
    sameShape_modifyNode horigin hlinks
  exact ⟨fun h => h.of_shape hshape h.tidy, Nat.le_of_eq hshape.size.symm⟩

theorem continues_modifyMethod {id : Nat} {change : MethodRecord α → MethodRecord α}
    (hkey : ∀ record, (change record).key = record.key)
    (hmethod : ∀ record, (change record).method = record.method)
    (hnodes : ∀ record, (change record).nodes = record.nodes)
    (hrows : ∀ record, record.allocations.Sorted → (change record).allocations.Sorted) :
    Continues profile (profile.modifyMethod id change) := by
  have hshape : SameShape profile (profile.modifyMethod id change) :=
    sameShape_modifyMethod hkey hmethod hnodes
  exact ⟨fun h => h.of_shape hshape (h.tidy.modify id hrows), Nat.le_of_eq hshape.size.symm⟩

theorem continues_enter (profile : Profile α) (id method : Nat) :
    Continues profile (profile.enter id method) := by
  have hnode : Continues profile (profile.modifyNode id Node.entered) :=
    continues_modifyNode (fun _ => rfl) fun _ => rfl
  exact hnode.trans
    (continues_modifyMethod (fun _ => rfl) (fun _ => rfl) (fun _ => rfl) fun _ h => h)

theorem continues_settle (profile : Profile α) (id method : Nat) (selfTime waitTime totalTime : α) :
    Continues profile (profile.settle id method selfTime waitTime totalTime) := by
  have hmethod : Continues profile
      (profile.modifyMethod method (·.settled selfTime waitTime totalTime)) :=
    continues_modifyMethod (fun _ => rfl) (fun _ => rfl) (fun _ => rfl) fun _ h => h
  exact hmethod.trans (continues_modifyNode (fun _ => rfl) fun _ => rfl)

theorem continues_entered {method : Method} {excluded : Bool} {methods : Registry α} {id : Nat}
    (hentered : profile.methods.Entered method excluded methods id) :
    Continues profile { profile with methods := methods } := by
  cases hentered with
  | known _ => exact Continues.refl _
  | @new record hmethod hlocate hunseen _ =>
      refine ⟨fun h => ⟨h.grown.push hlocate, h.tidy.push ?_, fun hid => ?_, h.tree⟩,
        Nat.le_refl _⟩
      · rw [hunseen.allocations]
        exact AllocationTable.sorted_empty
      · obtain ⟨known, hknown, hkey⟩ := h.bound hid
        refine ⟨known, ?_, hkey⟩
        rw [Registry.record?_push, if_neg (Nat.ne_of_lt (Registry.record?_lt hknown))]
        exact hknown

/-- A node may be attached wherever there is a parent for it. -/
theorem continues_attach {parent : Option NodeId} (method : Nat) (site : CallSite)
    (hparent : profile.HasParent parent) :
    Continues profile (profile.attach parent method site) := by
  cases hrecord : profile.methods.record? method with
  | none =>
      rw [attach, hrecord]
      exact Continues.refl _
  | some record =>
      have hfresh := hparent.fresh method record.key site
      refine ⟨fun h => ?_, ?_⟩
      · rw [attach_of_record hrecord]
        have hnames : (profile.methods.modify method fun r =>
            { r with nodes := r.nodes.push profile.tree.size }).names = profile.methods.names :=
          names_push_node
        refine ⟨h.grown.of_names hnames, h.tidy.modify _ fun _ hrows => hrows, ?_,
          h.tree.link hfresh rfl⟩
        intro id node hid
        have hknown : ∀ {i : Nat} {known : MethodRecord α},
            profile.methods.record? i = some known → ∃ after,
              (profile.methods.modify method fun r =>
                { r with nodes := r.nodes.push profile.tree.size }).record? i = some after ∧
              after.key = known.key := by
          intro i known hknown
          obtain ⟨after, hafter, hkeys, -⟩ := Registry.record?_of_names hnames.symm hknown
          exact ⟨after, hafter, hkeys⟩
        rcases CallTree.node?_link_cases hfresh hid with
          ⟨-, rfl⟩ | ⟨before, hbefore, horigin, -⟩
        · exact hknown hrecord
        · obtain ⟨hm, hk, -, -⟩ := Node.of_origin horigin
          obtain ⟨old, hold, hkeyOld⟩ := h.bound hbefore
          obtain ⟨after, hafter, hkeys⟩ := hknown hold
          exact ⟨after, hm ▸ hafter, by rw [hkeys, hkeyOld, hk]⟩
      · rw [size_attach parent site hrecord]
        exact Nat.le_succ _

theorem continues_child {parent : Option NodeId} (method : Nat) (site : CallSite)
    (hparent : profile.HasParent parent) :
    Continues profile (profile.child parent method site).1 := by
  unfold Profile.child
  simp only []
  split
  · exact Continues.refl _
  · exact continues_attach method site hparent

/-- A child that is found is there. -/
theorem Filed.childOf?_lt (h : profile.Filed) (parent : Option NodeId) {key : Key} {id : Nat}
    (hchild : profile.tree.childOf? parent key = some id) : id < profile.tree.size := by
  rw [CallTree.childOf?_eq_get?] at hchild
  obtain ⟨node, hnode, -⟩ := h.tree.keyed (Links.mem_of_get? hchild)
  exact CallTree.node?_lt hnode

/-! ## Merging -/

theorem continues_foldl {β : Type} {step : Profile α → β → Profile α} {items : List β}
    (ready : Profile α → β → Prop)
    (hkeep : ∀ {current after : Profile α} {item : β}, Continues current after →
      ready current item → ready after item)
    (hstep : ∀ {current : Profile α} {item : β}, item ∈ items → ready current item →
      Continues current (step current item)) :
    ∀ {profile : Profile α}, (∀ item ∈ items, ready profile item) →
      Continues profile (items.foldl step profile) := by
  induction items with
  | nil => intro profile _; exact Continues.refl _
  | cons item items ih =>
      intro profile hready
      have hfirst := hstep List.mem_cons_self (hready item List.mem_cons_self)
      refine hfirst.trans (ih (fun hmem => hstep (List.mem_cons_of_mem _ hmem)) ?_)
      exact fun later hlater => hkeep hfirst (hready later (List.mem_cons_of_mem _ hlater))

variable {other : Profile α}

/-- A copy of a node takes the next position. -/
theorem continues_copyNode {parent : Option NodeId} {node : Node α} {record : MethodRecord α}
    (hrecord : other.methods.record? node.method = some record)
    (hparent : profile.HasParent parent) :
    Continues profile (profile.copyNode other parent node) ∧
      (profile.copyNode other parent node).tree.size = profile.tree.size + 1 := by
  have hentered := profile.methods.adopt_entered record
  obtain ⟨found, hfound, -⟩ := hentered.exists_record
  have hadopted : Continues profile { profile with methods := (profile.methods.adopt record).1 } :=
    continues_entered hentered
  have hattached := hadopted.trans
    (continues_attach (profile.methods.adopt record).2 node.site (hadopted.hasParent hparent))
  have hsize : (Profile.attach { profile with methods := (profile.methods.adopt record).1 }
      parent (profile.methods.adopt record).2 node.site).tree.size = profile.tree.size + 1 :=
    size_attach parent node.site hfound
  rw [copyNode, hrecord]
  refine ⟨hattached.trans (continues_modifyNode (fun _ => rfl) fun _ => rfl), ?_⟩
  refine Eq.trans ?_ hsize
  exact SameShape.size (sameShape_modifyNode (fun _ => rfl) fun _ => rfl)

theorem continues_copyWithin (ho : other.Filed) :
    ∀ {levels : Nat} {profile : Profile α} {parent : Option NodeId} (source : Nat),
      profile.HasParent parent →
      Continues profile (copyWithin other levels profile parent source) := by
  intro levels
  induction levels with
  | zero => intro profile parent source _; exact Continues.refl _
  | succ levels ih =>
      intro profile parent source hparent
      rw [copyWithin]
      cases hnode : other.tree.node? source with
      | none => exact Continues.refl _
      | some node =>
          obtain ⟨record, hrecord, -⟩ := ho.bound hnode
          obtain ⟨hcopy, hsize⟩ := continues_copyNode hrecord hparent
          refine hcopy.trans (continues_foldl
            (fun current _ => current.HasParent (some profile.tree.size))
            (fun hgrown hready => hgrown.hasParent hready) (fun _ hready => ih _ hready)
            fun _ _ => hasParent_some ?_)
          rw [hsize]
          exact Nat.lt_succ_self _

theorem continues_copySubtree (ho : other.Filed) {parent : Option NodeId} (source : Nat)
    (hparent : profile.HasParent parent) :
    Continues profile (profile.copySubtree other parent source) :=
  continues_copyWithin ho source hparent

/-- The children of a node that both profiles have are there to be descended into. -/
theorem continues_copyMissing (ho : other.Filed) {target : Nat} :
    ∀ (sources : List NodeId) {profile : Profile α} (pairs : List (NodeId × NodeId)),
      profile.Filed → target < profile.tree.size →
      (∀ pair ∈ pairs, pair.1 < profile.tree.size) →
      Continues profile (copyMissing other target sources profile pairs).1 ∧
        ∀ pair ∈ (copyMissing other target sources profile pairs).2,
          pair.1 < (copyMissing other target sources profile pairs).1.tree.size := by
  intro sources
  induction sources with
  | nil => intro profile pairs _ _ hpairs; exact ⟨Continues.refl _, hpairs⟩
  | cons source sources ih =>
      intro profile pairs h htarget hpairs
      rw [copyMissing]
      split
      · next child hchild =>
          obtain ⟨key, -, hget⟩ := Option.bind_eq_some_iff.mp hchild
          refine ih _ h htarget fun pair hpair => ?_
          rcases List.mem_cons.mp hpair with rfl | hold
          · exact h.childOf?_lt (some target) hget
          · exact hpairs pair hold
      · have hcopy := continues_copySubtree ho source (hasParent_some htarget)
        obtain ⟨hrest, hlater⟩ := ih pairs (hcopy.filed h) (Nat.lt_of_lt_of_le htarget hcopy.size_le)
          fun pair hpair => Nat.lt_of_lt_of_le (hpairs pair hpair) hcopy.size_le
        exact ⟨hcopy.trans hrest, hlater⟩

theorem continues_addWithin (ho : other.Filed) :
    ∀ {levels : Nat} {profile : Profile α} {target : Nat} (source : Nat), profile.Filed →
      target < profile.tree.size →
      Continues profile (addWithin other levels profile target source) := by
  intro levels
  induction levels with
  | zero => intro profile target source _ _; exact Continues.refl _
  | succ levels ih =>
      intro profile target source h htarget
      rw [addWithin]
      cases hnode : other.tree.node? source with
      | none => exact Continues.refl _
      | some node =>
          have hadded : Continues profile (profile.modifyNode target fun mine =>
              { mine with measurement := mine.measurement.merge node.measurement }) :=
            continues_modifyNode (fun _ => rfl) fun _ => rfl
          obtain ⟨hcopied, hpairs⟩ := continues_copyMissing ho node.children [] (hadded.filed h)
            (Nat.lt_of_lt_of_le htarget hadded.size_le)
            fun _ hpair => absurd hpair List.not_mem_nil
          refine (hadded.trans hcopied).trans (continues_foldl
            (fun current (pair : NodeId × NodeId) =>
              current.Filed ∧ pair.1 < current.tree.size)
            (fun hgrown hready => ⟨hgrown.filed hready.1,
              Nat.lt_of_lt_of_le hready.2 hgrown.size_le⟩)
            (fun _ hready => ih _ hready.1 hready.2)
            fun pair hpair => ⟨hcopied.filed (hadded.filed h), hpairs pair hpair⟩)

theorem continues_mergeRoot (ho : other.Filed) (h : profile.Filed) (source : Nat) :
    Continues profile (profile.mergeRoot other source) := by
  unfold mergeRoot
  split
  · next mine hmine =>
      unfold mergeNode
      split
      · refine continues_addWithin ho source h ?_
        obtain ⟨key, -, hget⟩ := Option.bind_eq_some_iff.mp hmine
        exact h.childOf?_lt none hget
      · exact Continues.refl _
  · exact continues_copySubtree ho source hasParent_none

theorem continues_mergeMethod (record : MethodRecord α) :
    Continues profile (profile.mergeMethod record) := by
  have hadopted : Continues profile { profile with methods := (profile.methods.adopt record).1 } :=
    continues_entered (profile.methods.adopt_entered record)
  exact hadopted.trans (continues_modifyMethod (fun _ => rfl) (fun _ => rfl) (fun _ => rfl)
    fun _ hrows => hrows.merge _)

theorem continues_merge (ho : other.Filed) (h : profile.Filed) :
    Continues profile (profile.merge other) := by
  have hmethods : Continues profile (other.methods.records.foldl mergeMethod profile) := by
    rw [← Array.foldl_toList]
    exact continues_foldl (fun _ _ => True) (fun _ _ => trivial)
      (fun _ _ => continues_mergeMethod _) fun _ _ => trivial
  refine hmethods.trans (continues_foldl (fun current _ => current.Filed)
    (fun hgrown hready => hgrown.filed hready)
    (fun _ hready => continues_mergeRoot ho hready _) fun _ _ => hmethods.filed h)

end Profile

/-! ## Contexts -/

namespace Context

variable {α : Type} [Amount α]

/-- The profile is in good order, and every open call is at a node of it. -/
structure Filed (context : Context α) : Prop where
  profile : context.profile.Filed
  inside : ∀ call ∈ context.stack.openCalls, call.node < context.profile.tree.size

theorem Filed.continues {context : Context α} (h : Filed context) {profile : Profile α}
    (hgrown : context.profile.Continues profile) :
    Filed { context with profile := profile } where
  profile := hgrown.filed h.profile
  inside call hcall := Nat.lt_of_lt_of_le (h.inside call hcall) hgrown.size_le

theorem Filed.continues_enterNode {context : Context α} (h : Filed context) (method : Nat) :
    context.profile.Continues (context.enterNode method).1 := by
  rcases context.enterNode_cases method with
    ⟨top, -, -, heq⟩ | ⟨top, htop, -, heq⟩ | ⟨-, heq⟩
  · rw [heq]
    exact Profile.Continues.refl _
  · rw [heq]
    refine Profile.continues_child method _ (Profile.hasParent_some ?_)
    exact h.inside top.openCall (List.mem_map_of_mem (List.mem_of_mem_head? htop))
  · have hmarked : context.profile.Continues
        (context.profile.modifyMethod method fun r => { r with root := true }) :=
      Profile.continues_modifyMethod (fun _ => rfl) (fun _ => rfl) (fun _ => rfl) fun _ h => h
    rw [heq]
    exact hmarked.trans (Profile.continues_child method _ Profile.hasParent_none)

theorem Filed.restacked {context : Context α} (h : Filed context) {stack : Stack α}
    (hcalls : stack.openCalls = context.stack.openCalls) :
    Filed { context with stack := stack } where
  profile := h.profile
  inside call hcall := by
    rw [hcalls] at hcall
    exact h.inside call hcall

theorem Filed.openCall {context : Context α} (h : Filed context) (method : Nat) (event : Event α)
    (paused : Bool) : Filed (context.openCall method event paused) := by
  have hentered := h.continues (h.continues_enterNode method)
  have hpushed : Filed { context with
      profile := (context.stack.push (context.enterNode method).1 (context.enterNode method).2
        event.sample paused).2
      stack := (context.stack.push (context.enterNode method).1 (context.enterNode method).2
        event.sample paused).1 } := by
    cases hmethod : (context.enterNode method).1.methodOf? (context.enterNode method).2 with
    | none =>
        rw [Stack.push, hmethod]
        exact hentered
    | some found =>
        obtain ⟨hcalls, hprofile⟩ := context.stack.push_eq event.sample paused hmethod
        obtain ⟨node, hnode, -⟩ := Profile.methodOf?_eq_some hmethod
        have hgrown := (context.enterNode method).1.continues_enter
          (context.enterNode method).2 found
        refine ⟨?_, fun call hcall => ?_⟩
        · rw [hprofile]
          exact hgrown.filed hentered.profile
        · rw [hcalls] at hcall
          rw [hprofile]
          refine Nat.lt_of_lt_of_le ?_ hgrown.size_le
          rcases List.mem_cons.mp hcall with rfl | hold
          · exact CallTree.node?_lt hnode
          · exact hentered.inside call hold
  exact hpushed.restacked (Stack.openCalls_modifyTop _ fun _ => rfl)

theorem Filed.called {context : Context α} (h : Filed context) (event : Event α)
    (exclusions : Exclusions) (paused : Bool) : Filed (context.called event exclusions paused) := by
  cases hmethod : event.method? with
  | none =>
      rw [called_of_unnamed hmethod]
      exact h.restacked context.openCalls_pass
  | some method =>
      have hentered := context.lookup_entered event method exclusions
      have hknown : Filed (context.knowing (context.lookup event method exclusions).1) :=
        h.continues (Profile.continues_entered hentered)
      obtain ⟨record, hrecord, -⟩ := hentered.exists_record
      rw [called_of_named hmethod hrecord]
      split
      · exact hknown.restacked context.openCalls_pass
      · exact hknown.openCall _ event paused

theorem Filed.popped {context : Context α} (h : Filed context) (now : α) :
    Filed (context.popped now) := by
  rcases context.stack.pop_cases context.profile now with
    ⟨hcalls, hprofile⟩ | ⟨call, below, selfTime, waitTime, totalTime, hopen, -, hcalls, hprofile⟩
  · refine ⟨?_, fun call hcall => ?_⟩
    · show (context.stack.pop context.profile now).2.2.Filed
      rw [hprofile]
      exact h.profile
    · change call ∈ (context.stack.pop context.profile now).2.1.openCalls at hcall
      show _ < (context.stack.pop context.profile now).2.2.tree.size
      rw [hcalls] at hcall
      rw [hprofile]
      exact h.inside call hcall
  · have hgrown := context.profile.continues_settle call.node call.method selfTime waitTime
      totalTime
    refine ⟨?_, fun other hother => ?_⟩
    · show (context.stack.pop context.profile now).2.2.Filed
      rw [hprofile]
      exact hgrown.filed h.profile
    · change other ∈ (context.stack.pop context.profile now).2.1.openCalls at hother
      show _ < (context.stack.pop context.profile now).2.2.tree.size
      rw [hcalls] at hother
      rw [hprofile]
      refine Nat.lt_of_lt_of_le ?_ hgrown.size_le
      -- a caller that is credited stays at its node
      cases below with
      | nil => exact absurd hother List.not_mem_nil
      | cons caller callers =>
          rcases List.mem_cons.mp hother with rfl | hold
          · exact h.inside caller (by rw [hopen]; simp)
          · exact h.inside other (by rw [hopen]; simp [hold])

theorem Filed.allocated {context : Context α} (h : Filed context) (event : Event α) :
    Filed (context.allocated event) := by
  unfold Context.allocated
  split
  · split
    · exact h.continues (Profile.continues_modifyMethod (fun _ => rfl) (fun _ => rfl)
        (fun _ => rfl) fun _ hrows => hrows.add _ _ _)
    · exact h
  · exact h

/-- Recording and merging keep contexts in good order. -/
theorem law_filed (exclusions : Exclusions) : Law exclusions (Filed : Context α → Prop) where
  fresh _ _ _ := ⟨Profile.filed_empty, fun _ hcall => absurd hcall List.not_mem_nil⟩
  restacked h hcalls := h.restacked hcalls
  called event paused h := h.called event exclusions paused
  popped now h := h.popped now
  allocated event h := h.allocated event
  merge h ho _ _ := h.continues (Profile.continues_merge ho.profile h.profile)

end Context

end CallLedger
