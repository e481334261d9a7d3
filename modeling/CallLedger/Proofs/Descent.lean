import CallLedger.Proofs.Intake
import CallLedger.Proofs.Succession

/-!
# The descent of a merge

A merge goes down from a node and its counterpart. It adds the measurement, copies the children
that are missing with everything below them, and goes on with the others. All of this is a
sequence of steps, and it takes in every node of the subtree (`Sound.steps_addWithin`), for every
step leaves the places of the nodes that are still to come as they were: free, or held by the
same node. So what the places are at the start also tells in which order the nodes are come to.
Merging trees goes down root by root (`Sound.steps_mergeTree`).

The cut-off at as many levels as the other tree has nodes is never felt, because a child stands
after its parent.

The records of whole profiles are added first, by identity (`Adopts`). Merging the trees changes
nothing on records that are there but their lists of nodes.
-/

namespace CallLedger.Profile

variable {α : Type} [Amount α] {other profile after : Profile α} {place : NodeId → List Method}
  {held : NodeId → Bool} {ids : List NodeId} {stem base : List Method} {parent : Option NodeId}
  {source : Nat} {node : Node α} {record : MethodRecord α}

/-! ## Places that are held -/

/-- `held` tells of some nodes of another profile whether there is a node where they belong. -/
def Tells (place : NodeId → List Method) (profile : Profile α) (held : NodeId → Bool)
    (ids : List NodeId) : Prop :=
  ∀ id ∈ ids, held id = true ↔ profile.HasPath (place id)

omit [Amount α] in
theorem exists_tells (place : NodeId → List Method) (profile : Profile α) (ids : List NodeId) :
    ∃ held, Tells place profile held ids :=
  ⟨fun id => decide (profile.HasPath (place id)), fun _ _ => decide_eq_true_iff⟩

omit [Amount α] in
theorem Tells.missing_iff (h : Tells place profile held ids) {id : NodeId} (hid : id ∈ ids) :
    held id = false ↔ ¬ profile.HasPath (place id) := by
  rw [← h id hid, Bool.not_eq_true]

omit [Amount α] in
theorem Tells.subset (h : Tells place profile held ids) {part : List NodeId} (hsub : part ⊆ ids) :
    Tells place profile held part := fun id hid => h id (hsub hid)

/-- Nodes that are taken in change nothing about the places of others. -/
theorem Tells.keep (h : Tells place profile held ids) {taken : List NodeId}
    (hgains : Gains place other profile after taken)
    (hapart : ∀ x ∈ taken, ∀ id ∈ ids, place x ≠ place id) : Tells place after held ids := by
  intro id hid
  rw [h id hid, hgains.paths]
  refine (or_iff_left ?_).symm
  rintro ⟨x, hx, hsame⟩
  exact hapart x hx id hid hsame

/-- A node that is taken in where one was does not take any place. -/
theorem Tells.keep_held (h : Tells place profile held ids)
    (hgains : Gains place other profile after [source]) (hheld : profile.HasPath (place source)) :
    Tells place after held ids := by
  intro id hid
  rw [h id hid, hgains.paths]
  refine (or_iff_left_of_imp ?_).symm
  rintro ⟨x, hx, hsame⟩
  rw [← hsame, List.mem_singleton.mp hx]
  exact hheld

/-! ## Siblings -/

/-- A child of a node, or a root, that is below the point at which paths are exchanged. -/
structure Under (other : Profile α) (stem : List Method) (parent : Option NodeId) (id : Nat) :
    Prop where
  lt : id < other.tree.size
  parent? : other.tree.parent? id = parent
  stem : stem <:+ other.path id

section Siblings

omit [Amount α]

theorem Sound.under_child (ho : other.Sound) {child : NodeId} (hstem : stem <:+ other.path source)
    (hchild : child ∈ other.tree.children source) : other.Under stem (some source) child where
  lt := (ho.tree.branching.child_lt hchild).2
  parent? := ho.tree.branching.parent?_child hchild
  stem := hstem.trans (ho.path_suffix_child (ho.tree.branching.parent?_child hchild))

theorem Sound.under_root (ho : other.Sound) {root : NodeId} (hroot : root ∈ other.tree.roots) :
    other.Under [] none root where
  lt := (ho.tree.mem_roots.mp hroot).1
  parent? := (ho.tree.mem_roots.mp hroot).2
  stem := List.nil_suffix

theorem Under.mem_mergeOrder (ho : other.Sound) {id x : Nat} (h : other.Under stem parent id) :
    x ∈ other.tree.mergeOrder held id ↔ x ∈ other.tree.walk id :=
  (ho.tree.branching.mergeOrder_perm held h.lt).mem_iff

theorem Under.mem_walk_self (ho : other.Sound) {id : Nat} (h : other.Under stem parent id) :
    id ∈ other.tree.walk id := ho.tree.branching.mem_walk_self h.lt

/-- What is below different siblings belongs to different places. -/
theorem Under.grafted_apart (ho : other.Sound) {a b x y : Nat} (ha : other.Under stem parent a)
    (hb : other.Under stem parent b) (hne : a ≠ b) (hx : x ∈ other.tree.walk a)
    (hy : y ∈ other.tree.walk b) : other.grafted stem base x ≠ other.grafted stem base y := by
  intro hsame
  obtain ⟨hxsize, hxway⟩ := (ho.tree.mem_walk ha.lt).mp hx
  obtain ⟨hysize, hyway⟩ := (ho.tree.mem_walk hb.lt).mp hy
  have hpath := grafted_inj (ha.stem.trans ((ho.mem_walk_iff_suffix ha.lt hxsize).mp hx))
    (hb.stem.trans ((ho.mem_walk_iff_suffix hb.lt hysize).mp hy)) hsame
  obtain rfl := ho.path_inj hxsize hysize hpath
  exact hne (ho.tree.lineage_apart hxsize hxway hyway (ha.parent?.trans hb.parent?.symm))

end Siblings

/-- Taking in what is below some siblings changes nothing about the places below another one. -/
theorem Tells.keep_siblings (ho : other.Sound) {b : Nat}
    (h : Tells (other.grafted stem base) profile held (other.tree.walk b))
    (hb : other.Under stem parent b) {taken : List NodeId}
    (htaken : ∀ a ∈ taken, other.Under stem parent a ∧ a ≠ b)
    (hgains : Gains (other.grafted stem base) other profile after
      (taken.flatMap (other.tree.mergeOrder held))) :
    Tells (other.grafted stem base) after held (other.tree.walk b) := by
  refine h.keep hgains fun x hx y hy => ?_
  obtain ⟨a, ha, hx⟩ := List.mem_flatMap.mp hx
  obtain ⟨hunder, hne⟩ := htaken a ha
  exact hunder.grafted_apart ho hb hne ((hunder.mem_mergeOrder ho).mp hx) hy

theorem Tells.keep_sibling (ho : other.Sound) {a b : Nat}
    (h : Tells (other.grafted stem base) profile held (other.tree.walk b))
    (ha : other.Under stem parent a) (hb : other.Under stem parent b) (hne : a ≠ b)
    (hgains : Gains (other.grafted stem base) other profile after (other.tree.mergeOrder held a)) :
    Tells (other.grafted stem base) after held (other.tree.walk b) := by
  rw [← List.flatMap_singleton (other.tree.mergeOrder held) a] at hgains
  refine h.keep_siblings ho hb (fun x hx => ?_) hgains
  rw [List.mem_singleton.mp hx]
  exact ⟨ha, hne⟩

/-! ## Copying -/

omit [Amount α] in
/-- Below a place that is free all places are. -/
theorem Sound.free_of_mem_walk (hs : profile.Sound) (ho : other.Sound)
    (hfits : Fits (other.grafted stem base) other profile parent source node record)
    (hstem : stem <:+ other.path source)
    (hfree : ¬ profile.HasPath (other.grafted stem base source)) :
    ∀ x ∈ other.tree.walk source, ¬ profile.HasPath (other.grafted stem base x) := by
  intro x hx hpath
  have hsource := CallTree.node?_lt hfits.listed
  obtain ⟨hxsize, -⟩ := (ho.tree.mem_walk hsource).mp hx
  obtain ⟨way, hway⟩ := (ho.mem_walk_iff_suffix hsource hxsize).mp hx
  obtain ⟨rest, hrest⟩ := hstem
  have hbelow : other.grafted stem base x = way ++ other.grafted stem base source := by
    rw [grafted_eq hrest.symm, ← List.append_assoc]
    exact grafted_eq (by rw [← hway, ← hrest, List.append_assoc])
  rw [hbelow] at hpath
  exact hfree (hs.hasPath_of_append (hfits.leads ▸ List.cons_ne_nil _ _) hpath)

/-- Missing siblings are copied one after another under a node, for copying one leaves the places of
the others free. -/
theorem Sound.steps_copies (ho : other.Sound) {sources : List NodeId} {id : Nat}
    {step : Profile α → NodeId → Profile α}
    (hunder : ∀ child ∈ sources, other.Under stem parent child) (hnodup : sources.Nodup)
    {path : List Method}
    (hstep : ∀ child ∈ sources, ∀ {current : Profile α}, current.Sound → id < current.tree.size →
      current.path id = path → ¬ current.HasPath (other.grafted stem base child) →
      Steps (other.grafted stem base) other current (step current child)
        (other.tree.mergeOrder held child))
    (hs : profile.Sound) (hid : id < profile.tree.size) (hpath : profile.path id = path)
    (hfree : ∀ child ∈ sources, ¬ profile.HasPath (other.grafted stem base child)) :
    Steps (other.grafted stem base) other profile (sources.foldl step profile)
      (sources.flatMap (other.tree.mergeOrder held)) := by
  refine Steps.foldl step (fun child current => child ∈ sources ∧ id < current.tree.size ∧
      current.path id = path ∧ ¬ current.HasPath (other.grafted stem base child))
    (other.tree.mergeOrder held) ?_ hs
    (fun child hchild => ⟨hchild, hid, hpath, hfree child hchild⟩) ?_
  · rintro child current hcurrent ⟨hchild, hlt, hsame, hmissing⟩
    exact hstep child hchild hcurrent hlt hsame hmissing
  · refine hnodup.imp_of_mem fun {a b} ha hb hne => ?_
    intro current after hcurrent hgains hready
    obtain ⟨hchild, hlt, hsame, hmissing⟩ := hready
    have hsibling := hunder a ha
    have hown := hunder b hb
    refine ⟨hchild, Nat.lt_of_lt_of_le hlt hgains.grows.size_le, ?_, ?_⟩
    · rw [hgains.grows.path_eq hcurrent hgains.sound hlt, hsame]
    · rw [hgains.paths]
      rintro (hold | ⟨x, hx, hplace⟩)
      · exact hmissing hold
      · exact hsibling.grafted_apart ho hown hne ((hsibling.mem_mergeOrder ho).mp hx)
          (hown.mem_walk_self ho) hplace

theorem Sound.steps_copyWithin (ho : other.Sound) :
    ∀ {levels : Nat} {profile : Profile α} {parent : Option NodeId} {source : Nat} {node : Node α}
      {record : MethodRecord α}, profile.Sound →
      Room (other.grafted stem base) other profile parent source node record →
      stem <:+ other.path source → other.tree.size ≤ levels + source →
      (∀ x ∈ other.tree.walk source, held x = false) →
      Steps (other.grafted stem base) other profile
        (copyWithin other levels profile parent source) (other.tree.mergeOrder held source) := by
  intro levels
  induction levels with
  | zero =>
      intro profile parent source node record _ hroom _ hlevels
      have hsource := CallTree.node?_lt hroom.listed
      omega
  | succ levels ih =>
      intro profile parent source node record hs hroom hstem hlevels hmissing
      have hsource := CallTree.node?_lt hroom.listed
      obtain ⟨learned, mine, found, hcopying⟩ := hroom.copying hs
      have hcopy := hcopying.gains hroom.toFits hs
      have hlast : profile.tree.size < (profile.copyNode other parent node).tree.size := by
        rw [hcopying.size]
        exact Nat.lt_succ_self _
      have hchildren : node.children = other.tree.children source := by
        rw [CallTree.children, hroom.listed]
      have hunder : ∀ child ∈ other.tree.children source, other.Under stem (some source) child :=
        fun child => ho.under_child hstem
      have hself := ho.tree.branching.mem_walk_self hsource
      rw [copyWithin, hroom.listed, ho.tree.branching.mergeOrder_eq held hsource,
        CallTree.childOrder_missing (hmissing source hself), ← List.singleton_append]
      simp only []
      rw [hchildren]
      refine (Steps.copied hs hroom).followed ?_
      refine ho.steps_copies (fun child hchild => hunder child (List.mem_reverse.mp hchild))
        (List.nodup_reverse.mpr (ho.tree.branching.nodup_children source))
        (fun child hchild current hcurrent hlt hpath hfree => ?_) hcopy.sound hlast
        hcopying.path_copy fun child hchild => ?_
      · have hmem := List.mem_reverse.mp hchild
        have hafter := (ho.tree.branching.child_lt hmem).1
        obtain ⟨_, _, hfits⟩ := ho.fits_child hstem (hunder child hmem).parent? hlt hpath
        refine ih hcurrent ⟨hfits, hfree⟩ (hunder child hmem).stem (by omega) fun x hx => ?_
        exact hmissing x ((ho.tree.branching.walk_child_infix hsource hmem).subset hx)
      · -- nothing is below a node that has just been made
        obtain ⟨_, own, hfits⟩ := ho.fits_child hstem
          (hunder child (List.mem_reverse.mp hchild)).parent? hlast hcopying.path_copy
        have hplace : other.grafted stem base child =
            own.method :: other.grafted stem base source := by
          rw [hfits.leads, pathTo, hcopying.path_copy]
        rw [hcopying.hasPath_copy hs, hplace]
        exact not_or.mpr ⟨hroom.free_below hs _, (List.cons_ne_self _ _).symm⟩

theorem Sound.steps_copySubtree (ho : other.Sound) (hs : profile.Sound)
    (hroom : Room (other.grafted stem base) other profile parent source node record)
    (hstem : stem <:+ other.path source)
    (htells : Tells (other.grafted stem base) profile held (other.tree.walk source)) :
    Steps (other.grafted stem base) other profile (profile.copySubtree other parent source)
      (other.tree.mergeOrder held source) := by
  refine ho.steps_copyWithin hs hroom hstem (Nat.le_add_right _ _) fun x hx => ?_
  exact (htells.missing_iff hx).mpr (hs.free_of_mem_walk ho hroom.toFits hstem hroom.free x hx)

/-! ## Adding -/

/-- The children that are missing are copied, and the others come out paired with their
counterparts, the last one first. -/
theorem Sound.steps_copyMissing (ho : other.Sound) {target : Nat}
    (hstem : stem <:+ other.path source) :
    ∀ {sources : List NodeId} {profile : Profile α} (pairs : List (NodeId × NodeId)),
      profile.Sound → target < profile.tree.size →
      profile.path target = other.grafted stem base source → sources.Nodup →
      (∀ child ∈ sources, other.Under stem (some source) child) →
      (∀ child ∈ sources,
        Tells (other.grafted stem base) profile held (other.tree.walk child)) →
      ∃ found, found.map Prod.snd = (sources.filter held).reverse ∧
        (copyMissing other target sources profile pairs).2 = found ++ pairs ∧
        Steps (other.grafted stem base) other profile
          (copyMissing other target sources profile pairs).1
          ((sources.filter fun child => !held child).flatMap (other.tree.mergeOrder held)) ∧
        ∀ pair ∈ found, pair.1 < (copyMissing other target sources profile pairs).1.tree.size ∧
          (copyMissing other target sources profile pairs).1.path pair.1 =
            other.grafted stem base pair.2 := by
  intro sources
  induction sources with
  | nil =>
      intro profile pairs hs _ _ _ _ _
      exact ⟨[], rfl, rfl, .nothing hs, by simp⟩
  | cons child sources ih =>
      intro profile pairs hs htarget hpath hnodup hunder htells
      obtain ⟨hfresh, hrest⟩ := List.nodup_cons.mp hnodup
      have hchild := hunder child List.mem_cons_self
      have hothers : ∀ later ∈ sources, other.Under stem (some source) later :=
        fun later hlater => hunder later (List.mem_cons_of_mem _ hlater)
      have hown := htells child List.mem_cons_self
      have hself := hchild.mem_walk_self ho
      obtain ⟨node, record, hfits⟩ := ho.fits_child hstem hchild.parent? htarget hpath
      rw [copyMissing]
      cases hcase : (profile.keyFrom other child).bind
          (profile.tree.childOf? (some target)) with
      | some mine =>
          have hfind := (hs.counterpart_eq_some_iff hfits).mp hcase
          have hheld := (hown child hself).mpr ⟨mine, hfind⟩
          obtain ⟨found, hsnd, hpairs, hsteps, hfound⟩ :=
            ih ((mine, child) :: pairs) hs htarget hpath hrest hothers
              fun later hlater => htells later (List.mem_cons_of_mem _ hlater)
          simp only []
          refine ⟨found ++ [(mine, child)], ?_, ?_, ?_, ?_⟩
          · rw [List.map_append, hsnd, List.filter_cons_of_pos hheld, List.reverse_cons]
            rfl
          · rw [hpairs, List.append_assoc]
            rfl
          · rw [List.filter_cons_of_neg (by simp [hheld])]
            exact hsteps
          · intro pair hpair
            rcases List.mem_append.mp hpair with hmem | hmem
            · exact hfound pair hmem
            · rw [List.mem_singleton.mp hmem]
              refine ⟨Nat.lt_of_lt_of_le hfind.1 hsteps.gains.grows.size_le, ?_⟩
              rw [hsteps.gains.grows.path_eq hs hsteps.gains.sound hfind.1, hfind.2]
      | none =>
          have hfree := (hs.counterpart_eq_none_iff hfits).mp hcase
          have hmissing := (hown.missing_iff hself).mpr hfree
          have hcopied := ho.steps_copySubtree hs ⟨hfits, hfree⟩ hchild.stem hown
          have hcopy := hcopied.gains
          have htarget' := Nat.lt_of_lt_of_le htarget hcopy.grows.size_le
          have hpath' := hcopy.grows.path_eq hs hcopy.sound htarget
          obtain ⟨found, hsnd, hpairs, hsteps, hfound⟩ :=
            ih pairs hcopy.sound htarget' (hpath'.trans hpath) hrest hothers fun later hlater =>
              (htells later (List.mem_cons_of_mem _ hlater)).keep_sibling ho hchild
                (hothers later hlater) (fun heq => hfresh (heq ▸ hlater)) hcopy
          refine ⟨found, ?_, hpairs, ?_, hfound⟩
          · rw [hsnd, List.filter_cons_of_neg (by simp [hmissing])]
          · rw [List.filter_cons_of_pos (by simp [hmissing]), List.flatMap_cons]
            exact hcopied.followed hsteps

/-- Children are added to their counterparts one after another, for adding one leaves the others
where they are. -/
theorem Sound.steps_pairs (ho : other.Sound) {found : List (NodeId × NodeId)}
    {step : Profile α → NodeId × NodeId → Profile α}
    (hunder : ∀ pair ∈ found, other.Under stem parent pair.2)
    (hdistinct : (found.map Prod.snd).Nodup)
    (hstep : ∀ pair ∈ found, ∀ {current : Profile α}, current.Sound →
      pair.1 < current.tree.size → current.path pair.1 = other.grafted stem base pair.2 →
      Tells (other.grafted stem base) current held (other.tree.walk pair.2) →
      Steps (other.grafted stem base) other current (step current pair)
        (other.tree.mergeOrder held pair.2))
    (hs : profile.Sound)
    (hready : ∀ pair ∈ found, pair.1 < profile.tree.size ∧
      profile.path pair.1 = other.grafted stem base pair.2 ∧
      Tells (other.grafted stem base) profile held (other.tree.walk pair.2)) :
    Steps (other.grafted stem base) other profile (found.foldl step profile)
      (found.flatMap fun pair => other.tree.mergeOrder held pair.2) := by
  refine Steps.foldl step (fun pair current => pair ∈ found ∧ pair.1 < current.tree.size ∧
      current.path pair.1 = other.grafted stem base pair.2 ∧
      Tells (other.grafted stem base) current held (other.tree.walk pair.2))
    (fun pair => other.tree.mergeOrder held pair.2) ?_ hs
    (fun pair hpair => ⟨hpair, hready pair hpair⟩) ?_
  · rintro pair current hcurrent ⟨hpair, hlt, hsame, hkept⟩
    exact hstep pair hpair hcurrent hlt hsame hkept
  · refine (List.pairwise_map.mp hdistinct).imp_of_mem fun {a b} ha hb hne => ?_
    intro current after hcurrent hgains hbefore
    obtain ⟨hpair, hlt, hsame, hkept⟩ := hbefore
    refine ⟨hpair, Nat.lt_of_lt_of_le hlt hgains.grows.size_le, ?_,
      hkept.keep_sibling ho (hunder a ha) (hunder b hb) hne hgains⟩
    rw [hgains.grows.path_eq hcurrent hgains.sound hlt, hsame]

theorem Sound.steps_addWithin (ho : other.Sound) :
    ∀ {levels : Nat} {profile : Profile α} {target source : Nat},
      profile.Sound → source < other.tree.size → other.tree.size ≤ levels + source →
      stem <:+ other.path source → target < profile.tree.size →
      profile.path target = other.grafted stem base source →
      Tells (other.grafted stem base) profile held (other.tree.walk source) →
      Steps (other.grafted stem base) other profile (addWithin other levels profile target source)
        (other.tree.mergeOrder held source) := by
  intro levels
  induction levels with
  | zero => intro profile target source _ hsource hlevels; omega
  | succ levels ih =>
      intro profile target source hs hsource hlevels hstem htarget hpath htells
      obtain ⟨node, hnode⟩ := CallTree.exists_node? hsource
      have hadded := Steps.added hs hnode htarget hpath
      have hadd := hadded.gains
      have htarget' := Nat.lt_of_lt_of_le htarget hadd.grows.size_le
      have hpath' := hadd.grows.path_eq hs hadd.sound htarget
      have hchildren : node.children = other.tree.children source := by
        rw [CallTree.children, hnode]
      have hunder : ∀ child ∈ other.tree.children source, other.Under stem (some source) child :=
        fun child => ho.under_child hstem
      have hnodup := ho.tree.branching.nodup_children source
      have hself := ho.tree.branching.mem_walk_self hsource
      have hheld := (htells source hself).mpr ⟨target, htarget, hpath⟩
      have htold : ∀ child ∈ other.tree.children source, Tells (other.grafted stem base)
          (profile.modifyNode target fun mine =>
            { mine with measurement := mine.measurement.merge node.measurement })
          held (other.tree.walk child) := fun child hchild =>
        (htells.keep_held hadd ⟨target, htarget, hpath⟩).subset
          (ho.tree.branching.walk_child_infix hsource hchild).subset
      obtain ⟨found, hsnd, hpairs, hcopied, hfound⟩ :=
        ho.steps_copyMissing hstem [] hadd.sound htarget' (hpath'.trans hpath) hnodup hunder htold
      have hcopy := hcopied.gains
      have hmem : ∀ pair ∈ found,
          pair.2 ∈ other.tree.children source ∧ held pair.2 = true := fun pair hpair => by
        have hmap := List.mem_map_of_mem (f := Prod.snd) hpair
        rwa [hsnd, List.mem_reverse, List.mem_filter] at hmap
      rw [addWithin, hnode, ho.tree.branching.mergeOrder_eq held hsource,
        CallTree.childOrder_held hheld, List.flatMap_append, ← hsnd, List.flatMap_map,
        ← List.singleton_append]
      simp only []
      rw [hchildren, hpairs, List.append_nil]
      refine hadded.followed (hcopied.followed ?_)
      refine ho.steps_pairs (fun pair hpair => hunder _ (hmem pair hpair).1)
        (hsnd ▸ List.nodup_reverse.mpr (hnodup.filter _)) (fun pair hpair current hcurrent => ?_)
        hcopy.sound fun pair hpair => ?_
      · have hchild := (hmem pair hpair).1
        have hafter := (ho.tree.branching.child_lt hchild).1
        exact ih hcurrent (hunder _ hchild).lt (by omega) (hunder _ hchild).stem
      · -- the children that have been copied are other ones
        obtain ⟨hchild, hthere⟩ := hmem pair hpair
        refine ⟨(hfound pair hpair).1, (hfound pair hpair).2,
          (htold _ hchild).keep_siblings ho (hunder _ hchild) (fun a ha => ?_) hcopy⟩
        obtain ⟨hsibling, hmissing⟩ := List.mem_filter.mp ha
        refine ⟨hunder a hsibling, ?_⟩
        rintro rfl
        simp [hthere] at hmissing

/-! ## Whole trees -/

theorem Sound.steps_mergeRoot (ho : other.Sound) (hs : profile.Sound)
    (hroot : source ∈ other.tree.roots)
    (htells : Tells other.path profile held (other.tree.walk source)) :
    Steps other.path other profile (profile.mergeRoot other source)
      (other.tree.mergeOrder held source) := by
  have hbelongs : ∃ node record, Fits other.path other profile none source node record :=
    ho.fits_root hroot
  obtain ⟨node, record, hfits⟩ := hbelongs
  rw [← other.grafted_nil] at hfits htells ⊢
  rw [mergeRoot]
  cases hcase : (profile.keyFrom other source).bind profile.tree.root? with
  | some mine =>
      obtain ⟨hmine, hpath⟩ := (hs.counterpart_eq_some_iff hfits).mp hcase
      have hsame := hs.corresponds_of_path ho hmine hroot (other.grafted_nil ▸ hpath)
      simp only [mergeNode, hsame, if_true]
      exact ho.steps_addWithin hs (CallTree.node?_lt hfits.listed) (Nat.le_add_right _ _)
        List.nil_suffix hmine hpath htells
  | none =>
      exact ho.steps_copySubtree hs ⟨hfits, (hs.counterpart_eq_none_iff hfits).mp hcase⟩
        List.nil_suffix htells

/-- Merging the trees takes in all nodes, root by root. -/
theorem Sound.steps_mergeTree (ho : other.Sound) (hs : profile.Sound)
    (htells : Tells other.path profile held other.tree.walkAll) :
    Steps other.path other profile (profile.mergeTree other)
      (other.tree.roots.flatMap (other.tree.mergeOrder held)) := by
  refine Steps.foldl (fun current root => current.mergeRoot other root)
    (fun root current => root ∈ other.tree.roots ∧
      Tells other.path current held (other.tree.walk root)) (other.tree.mergeOrder held)
    ?_ hs ?_ ?_
  · rintro root current hcurrent ⟨hroot, htold⟩
    exact ho.steps_mergeRoot hcurrent hroot htold
  · exact fun root hroot => ⟨hroot, fun x hx =>
      htells x (List.mem_flatMap.mpr ⟨root, hroot, hx⟩)⟩
  · refine (ho.tree.branching.nodup none).imp_of_mem fun {a b} ha hb hne => ?_
    intro current after hcurrent hgains hready
    obtain ⟨hroot, htold⟩ := hready
    rw [← other.grafted_nil] at hgains htold ⊢
    exact ⟨hroot, htold.keep_sibling ho (ho.under_root ha) (ho.under_root hb) hne hgains⟩

theorem Sound.intake_mergeTree (ho : other.Sound) (hs : profile.Sound) :
    Intake other.path other profile (profile.mergeTree other) other.tree.walkAll := by
  obtain ⟨held, htells⟩ := exists_tells other.path profile other.tree.walkAll
  refine ⟨_, ?_, ho.steps_mergeTree hs htells⟩
  exact List.Perm.flatMap_left _ fun root hroot =>
    ho.tree.branching.mergeOrder_perm held (ho.tree.mem_roots.mp hroot).1

/-! ## The records -/

/-- A profile that has taken over some records of another one. -/
structure Adopts (profile after : Profile α) (records : List (MethodRecord α)) : Prop where
  sound : after.Sound
  grows : Grows profile after
  tree : after.tree = profile.tree
  knows : ∀ record ∈ records, ∃ id found, after.methods.record? id = some found ∧
    found.method = record.method

theorem Sound.adopts_mergeMethod (hs : profile.Sound) (record : MethodRecord α) :
    Adopts profile (profile.mergeMethod record) [record] := by
  have hentered := profile.methods.adopt_entered record
  obtain ⟨hlearned, hgrows⟩ := hs.knowing hentered
  obtain ⟨found, hfound, hmethod⟩ := hentered.exists_record
  unfold mergeMethod
  generalize profile.methods.adopt record = adopted at hlearned hgrows hfound ⊢
  obtain ⟨methods, id⟩ := adopted
  change methods.record? id = some found at hfound
  have hshape : SameShape { profile with methods := methods }
      (Profile.modifyMethod { profile with methods := methods } id (·.absorb record)) :=
    sameShape_modifyMethod (fun _ => rfl) (fun _ => rfl) fun _ => rfl
  have hafter : (methods.modify id (·.absorb record)).record? id = some (found.absorb record) := by
    rw [Registry.record?_modify, if_pos rfl, hfound]
    rfl
  refine ⟨hlearned.of_shape hshape, hgrows.trans hshape.grows, rfl, ?_⟩
  intro other hother
  rw [List.mem_singleton.mp hother]
  exact ⟨id, found.absorb record, hafter, hmethod⟩

omit [Amount α] in
theorem Adopts.trans {middle after : Profile α} {records more : List (MethodRecord α)}
    (h : Adopts profile middle records) (hmore : Adopts middle after more) :
    Adopts profile after (records ++ more) where
  sound := hmore.sound
  grows := h.grows.trans hmore.grows
  tree := hmore.tree.trans h.tree
  knows record hrecord := by
    rcases List.mem_append.mp hrecord with hold | hnew
    · obtain ⟨id, found, hfound, hmethod⟩ := h.knows record hold
      obtain ⟨later, hlater, -, hlaterMethod⟩ := hmore.grows.record? hfound
      exact ⟨id, later, hlater, hlaterMethod.trans hmethod⟩
    · exact hmore.knows record hnew

theorem Sound.adopts_foldl : ∀ {records : List (MethodRecord α)} {profile : Profile α},
    profile.Sound → Adopts profile (records.foldl mergeMethod profile) records := by
  intro records
  induction records with
  | nil => intro profile hs; exact ⟨hs, Grows.refl _, rfl, by simp⟩
  | cons record records ih =>
      intro profile hs
      have hfirst := hs.adopts_mergeMethod record
      exact hfirst.trans (ih hfirst.sound)

/-- Records that are marked as the exclusions say keep the order of the accounts. -/
theorem Ordered.mergeMethods {exclusions : Exclusions} {calls : List (OpenCall α)} :
    ∀ {records : List (MethodRecord α)} {profile : Profile α}, Ordered exclusions profile calls →
      (∀ record ∈ records, record.excluded = exclusions.contains record.method) →
      Ordered exclusions (records.foldl mergeMethod profile) calls := by
  intro records
  induction records with
  | nil => intro profile h _; exact h
  | cons record records ih =>
      intro profile h hexcluded
      have hentered := profile.methods.adopt_entered record
      rw [hexcluded record List.mem_cons_self] at hentered
      exact ih ((h.knowing hentered).1.note _ (·.absorb record) (fun _ => rfl) (fun _ => rfl)
        (fun _ => rfl) (fun _ => rfl) fun _ => rfl)
        fun later hlater => hexcluded later (List.mem_cons_of_mem _ hlater)

/-! ## Merging -/

/-- The two halves of a merge. -/
theorem Sound.merge_halves (hs : profile.Sound) (ho : other.Sound) :
    Adopts profile (other.methods.records.toList.foldl mergeMethod profile)
        other.methods.records.toList ∧
      Knows (other.methods.records.toList.foldl mergeMethod profile) other ∧
      Intake other.path other (other.methods.records.toList.foldl mergeMethod profile)
        (profile.merge other) other.tree.walkAll := by
  have hadopts : Adopts profile (other.methods.records.toList.foldl mergeMethod profile)
      other.methods.records.toList := hs.adopts_foldl
  refine ⟨hadopts, fun hid => hadopts.knows _ (Registry.mem_records.mpr ⟨_, hid⟩), ?_⟩
  rw [merge, ← Array.foldl_toList]
  exact ho.intake_mergeTree hadopts.sound

theorem Sound.merge (hs : profile.Sound) (ho : other.Sound) : (profile.merge other).Sound :=
  (hs.merge_halves ho).2.2.gains.sound

theorem Sound.grows_merge (hs : profile.Sound) (ho : other.Sound) :
    Grows profile (profile.merge other) := by
  obtain ⟨hadopts, -, hintake⟩ := hs.merge_halves ho
  exact hadopts.grows.trans hintake.gains.grows

/-- A merge only adds what the other profile has. -/
theorem Sound.hasPath_merge (hs : profile.Sound) (ho : other.Sound) (path : List Method) :
    (profile.merge other).HasPath path ↔ profile.HasPath path ∨ other.HasPath path := by
  obtain ⟨hadopts, -, hintake⟩ := hs.merge_halves ho
  rw [hintake.gains.hasPath_walkAll ho,
    hadopts.grows.hasPath_iff_of_tree hs hadopts.sound hadopts.tree]

theorem Ordered.merge {exclusions : Exclusions} {calls theirs : List (OpenCall α)}
    (h : Ordered exclusions profile calls) (ho : Ordered exclusions other theirs) :
    Ordered exclusions (profile.merge other) calls := by
  obtain ⟨-, -, hintake⟩ := h.sound.merge_halves ho.sound
  refine hintake.ordered ho (h.mergeMethods fun record hrecord => ?_)
  obtain ⟨id, hid⟩ := Registry.mem_records.mp hrecord
  exact ho.excluded hid

end CallLedger.Profile
