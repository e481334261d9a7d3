import CallLedger.Proofs.Probing
import CallLedger.Proofs.Searching
import CallLedger.Proofs.Shape

/-!
# Merging ends where candidates differ

A search goes around for ever only if the candidates of its method run in a circle of keys that are
all taken. When registries hold none but certain methods there are no more records than there are
methods. So a search among them ends if the first candidates of its method, one more than there are
methods, are different (`Key.Spread`), and that is a matter of the names alone.

Merging never leaves the methods that the two profiles had before. Every registry on the way holds
none but these (`Registry.Among`), every search is for one of them, and so all of them end.

What merging adds up are counts too, and the program keeps these in words of 64 bits, where they are
numbers without a bound here. The two are the same as long as the counts that come out are
(`Profile.CountsFit`): counts only grow, so if the last one fits, all before it did.
-/

namespace CallLedger

/-- The candidates of each of some methods differ for longer than all of the methods together can
keep a search going. -/
def Key.Spread (names : List Method) : Prop :=
  ∀ method ∈ names, ((List.range (names.length + 1)).map (Key.candidate method)).Nodup

instance (names : List Method) : Decidable (Key.Spread names) :=
  inferInstanceAs (Decidable (∀ method ∈ names, _))

/-- Every count of invocations, of objects and of bytes is one of 64 bits. -/
def Profile.CountsFit {α : Type} (profile : Profile α) : Prop :=
  (∀ record ∈ profile.methods.records.toList, record.measurement.called < 2 ^ 64 ∧
    ∀ row ∈ record.allocations.rows, row.count < 2 ^ 64 ∧ row.memory < 2 ^ 64) ∧
  ∀ node ∈ profile.tree.nodes.toList, node.measurement.called < 2 ^ 64

instance {α : Type} (profile : Profile α) : Decidable profile.CountsFit :=
  inferInstanceAs (Decidable (_ ∧ _))

/-- Every count in a session is one of 64 bits. -/
def Session.CountsFit {α : Type} (session : Session α) : Prop :=
  ∀ entry ∈ session.contexts.live, entry.2.profile.CountsFit

instance {α : Type} (session : Session α) : Decidable session.CountsFit :=
  inferInstanceAs (Decidable (∀ entry ∈ session.contexts.live, entry.2.profile.CountsFit))

/-- There is an outcome, and it has a property. -/
def Yields {β : Type} (outcome : Option β) (property : β → Prop) : Prop :=
  ∃ result, outcome = some result ∧ property result

section

variable {β γ : Type} {outcome : Option β} {property : β → Prop}

theorem yields_some {result : β} (h : property result) : Yields (some result) property :=
  ⟨result, rfl, h⟩

theorem Yields.bind {next : β → Option γ} {later : γ → Prop} (h : Yields outcome property)
    (hnext : ∀ result, property result → Yields (next result) later) :
    Yields (outcome >>= next) later := by
  obtain ⟨result, rfl, hresult⟩ := h
  exact hnext result hresult

theorem Yields.foldlM {step : γ → β → Option γ} {holds : γ → Prop} {items : List β}
    (hstep : ∀ item ∈ items, ∀ state, holds state → Yields (step state item) holds) :
    ∀ {state : γ}, holds state → Yields (items.foldlM step state) holds := by
  induction items with
  | nil => exact fun hstate => yields_some hstate
  | cons item items ih =>
      intro state hstate
      rw [List.foldlM_cons]
      exact (hstep item List.mem_cons_self state hstate).bind fun _ hnext =>
        ih (fun later hlater => hstep later (List.mem_cons_of_mem _ hlater)) hnext

end

variable {α : Type}

/-! ## Registries of certain methods -/

namespace Registry

variable {names : List Method} {methods others : Registry α}

/-- A registry that holds none but certain methods. -/
structure Among (names : List Method) (methods : Registry α) : Prop where
  sound : methods.Sound
  known : methods.identities ⊆ names

theorem Among.mem (h : methods.Among names) {id : Nat} {record : MethodRecord α}
    (hid : methods.record? id = some record) : record.method ∈ names :=
  h.known (mem_identities.mpr ⟨id, record, hid, rfl⟩)

theorem Among.of_names (h : methods.Among names) (hnames : methods.names = others.names) :
    others.Among names := by
  refine ⟨h.sound.of_names hnames, ?_⟩
  unfold identities
  rw [← hnames]
  exact h.known

/-- No method has two records. -/
theorem Among.size_le (h : methods.Among names) : methods.size ≤ names.length := by
  have hnodup : methods.identities.Nodup := by
    rw [identities_eq]
    exact List.pairwise_map.mpr h.sound.pairwise
  have hle := (List.subperm_of_subset hnodup h.known).length_le
  rwa [identities_eq, List.length_map, Array.length_toList] at hle

theorem Among.search_ends (h : methods.Among names) (hspread : Key.Spread names) {method : Method}
    (hmethod : method ∈ names) : methods.Ends method := by
  refine ends_of_nodup ((hspread method hmethod).sublist (List.Sublist.map _ ?_))
  exact List.range_sublist.mpr (Nat.succ_le_succ h.size_le)

theorem Among.push (h : methods.Among names) (record : MethodRecord α)
    (hlocate : methods.locate record.method = .free record.key) (hmethod : record.method ∈ names) :
    (methods.push record).Among names := by
  refine ⟨h.sound.push hlocate, ?_⟩
  rw [identities_push]
  exact List.append_subset.mpr ⟨h.known, List.forall_mem_singleton.mpr hmethod⟩

end Registry

namespace Searching

open Registry

variable {names : List Method} {methods others : Registry α}

theorem yields_search (h : methods.Among names) (hspread : Key.Spread names) {method : Method}
    (hmethod : method ∈ names) :
    Yields (methods.search method) fun located => methods.locate method = located := by
  obtain ⟨located, hlocated⟩ :=
    Option.ne_none_iff_exists'.mp (h.search_ends hspread hmethod)
  exact ⟨located, hlocated, (comesTo_locate methods method located hlocated).symm⟩

theorem yields_lookupFrom (h : methods.Among names) (hothers : others.Among names)
    (hspread : Key.Spread names) (id : MethodId) :
    Yields (lookupFrom methods others id) fun _ => True := by
  unfold lookupFrom lookup
  cases hrecord : others.record? id with
  | none => exact yields_some trivial
  | some record =>
      refine (yields_search h hspread (hothers.mem hrecord)).bind fun located _ => ?_
      cases located <;> exact yields_some trivial

theorem yields_insert (h : methods.Among names) (hspread : Key.Spread names)
    (record : MethodRecord α) (hmethod : record.method ∈ names) :
    Yields (insert methods record) fun entered => entered.1.Among names := by
  refine (yields_search h hspread hmethod).bind fun located hlocate => ?_
  cases located with
  | found id => exact yields_some h
  | free key =>
      exact yields_some (h.push { record with key := key } hlocate hmethod)

variable [Amount α] {profile other : Profile α}

theorem yields_adopt (h : methods.Among names) (hspread : Key.Spread names)
    {record : MethodRecord α} (hmethod : record.method ∈ names) :
    Yields (adopt methods record) fun entered => entered.1.Among names :=
  yields_insert h hspread record.detached hmethod

/-! ## Merging -/

section

variable (hspread : Key.Spread names) (hother : other.methods.Among names)
include hspread hother

omit [Amount α] in
theorem yields_methodFrom (h : profile.methods.Among names) (node : NodeId) :
    Yields (methodFrom profile other node) fun _ => True := by
  unfold methodFrom
  cases other.methodOf? node with
  | none => exact yields_some trivial
  | some method => exact yields_lookupFrom h hother hspread method

omit [Amount α] in
theorem yields_keyFrom (h : profile.methods.Among names) (node : NodeId) :
    Yields (keyFrom profile other node) fun _ => True :=
  (yields_methodFrom hspread hother h node).bind fun _ _ => yields_some trivial

theorem yields_copyNode (h : profile.methods.Among names) (parent : Option NodeId)
    (node : Node α) :
    Yields (copyNode profile other parent node) fun copied => copied.methods.Among names := by
  unfold copyNode
  cases hrecord : other.methods.record? node.method with
  | none => exact yields_some h
  | some record =>
      refine (yields_adopt h hspread (hother.mem hrecord)).bind
        fun entered hentered => yields_some ?_
      exact hentered.of_names
        (Profile.names_attach { profile with methods := entered.1 } parent entered.2 node.site).symm

theorem yields_copyWithin : ∀ (levels : Nat) {profile : Profile α} (parent : Option NodeId)
    (source : NodeId), profile.methods.Among names →
      Yields (copyWithin other levels profile parent source) fun copied =>
        copied.methods.Among names := by
  intro levels
  induction levels with
  | zero => exact fun _ _ h => yields_some h
  | succ levels ih =>
      intro profile parent source h
      unfold copyWithin
      cases other.tree.node? source with
      | none => exact yields_some h
      | some node =>
          exact (yields_copyNode hspread hother h parent node).bind fun copied hcopied =>
            Yields.foldlM (fun child _ copied hcopied => ih _ child hcopied) hcopied

theorem yields_copyMissing (target : NodeId) : ∀ (sources : List NodeId) {profile : Profile α}
    (pairs : List (NodeId × NodeId)), profile.methods.Among names →
      Yields (copyMissing other target sources profile pairs) fun copied =>
        copied.1.methods.Among names := by
  intro sources
  induction sources with
  | nil => exact fun _ h => yields_some h
  | cons source sources ih =>
      intro profile pairs h
      unfold copyMissing
      refine (yields_keyFrom hspread hother h source).bind fun key _ => ?_
      cases key.bind (profile.tree.childOf? (some target)) with
      | some child => exact ih _ h
      | none =>
          exact (yields_copyWithin hspread hother _ (some target) source h).bind
            fun copied hcopied => ih pairs hcopied

theorem yields_addWithin : ∀ (levels : Nat) {profile : Profile α} (target source : NodeId),
    profile.methods.Among names → Yields (addWithin other levels profile target source)
      fun added => added.methods.Among names := by
  intro levels
  induction levels with
  | zero => exact fun _ _ h => yields_some h
  | succ levels ih =>
      intro profile target source h
      unfold addWithin
      cases other.tree.node? source with
      | none => exact yields_some h
      | some node =>
          refine (yields_copyMissing hspread hother target node.children [] ?_).bind
            fun copied hcopied => ?_
          · exact h
          · exact Yields.foldlM (fun pair _ profile hprofile => ih pair.1 pair.2 hprofile) hcopied

omit [Amount α] in
theorem yields_corresponds (h : profile.methods.Among names) (target source : NodeId) :
    Yields (corresponds profile other target source) fun _ => True := by
  unfold corresponds
  cases profile.tree.node? target with
  | none => exact yields_some trivial
  | some mine =>
      cases other.tree.node? source with
      | none => exact yields_some trivial
      | some theirs =>
          refine (yields_lookupFrom h hother hspread theirs.method).bind fun method _ => ?_
          split
          · cases theirs.parent with
            | none => exact yields_some trivial
            | some parent =>
                exact (yields_methodFrom hspread hother h parent).bind
                  fun _ _ => yields_some trivial
          · exact yields_some trivial

theorem yields_mergeNode (h : profile.methods.Among names) (target source : NodeId) :
    Yields (mergeNode profile other target source) fun merged => merged.1.methods.Among names := by
  refine (yields_corresponds hspread hother h target source).bind fun same _ => ?_
  split
  · exact (yields_addWithin hspread hother _ target source h).bind
      fun _ hadded => yields_some hadded
  · exact yields_some h

theorem yields_mergeRoot (h : profile.methods.Among names) (source : NodeId) :
    Yields (mergeRoot profile other source) fun merged => merged.methods.Among names := by
  refine (yields_keyFrom hspread hother h source).bind fun key _ => ?_
  cases key.bind profile.tree.root? with
  | some mine =>
      exact (yields_mergeNode hspread hother h mine source).bind
        fun _ hmerged => yields_some hmerged
  | none => exact yields_copyWithin hspread hother _ none source h

theorem yields_mergeTree (h : profile.methods.Among names) :
    Yields (mergeTree profile other) fun merged => merged.methods.Among names :=
  Yields.foldlM (fun root _ _ hprofile => yields_mergeRoot hspread hother hprofile root) h

theorem yields_merge (h : profile.methods.Among names) :
    Yields (merge profile other) fun merged => merged.methods.Among names := by
  unfold merge
  rw [← Array.foldlM_toList]
  refine Yields.bind (Yields.foldlM (fun record hrecord profile hprofile => ?_) h)
    fun known hknown => yields_mergeTree hspread hother hknown
  obtain ⟨id, hid⟩ := Array.mem_iff_getElem?.mp (Array.mem_toList_iff.mp hrecord)
  refine (yields_adopt hprofile hspread (hother.mem hid)).bind
    fun entered hentered => yields_some ?_
  have habsorbed : (entered.1.modify entered.2 (·.absorb record)).names = entered.1.names := by
    refine names_modify ?_ ?_
    · exact fun _ => rfl
    · exact fun _ => rfl
  exact hentered.of_names habsorbed.symm

end

/-! ## Folding fibers -/

/-- A context whose methods are among certain ones. -/
def Within (names : List Method) (context : Context α) : Prop :=
  context.profile.methods.Among names

theorem yields_mergeAll (hspread : Key.Spread names) {context : Context α}
    {others : List (Context α)} (h : Within names context)
    (hothers : ∀ other ∈ others, Within names other) :
    Yields (mergeAll context others) (Within names) :=
  Yields.foldlM (fun other hmem _ hcontext =>
    (yields_merge hspread (hothers other hmem) hcontext).bind fun _ hmerged =>
      yields_some hmerged) h

omit [Amount α] in
theorem yields_modify {law : Context α → Prop} {table : ContextTable α} {handle : Nat}
    {change : Context α → Option (Context α)} (h : table.Everywhere fun _ => law)
    (hchange : ∀ context, law context → Yields (change context) law) :
    Yields (modify table handle change) fun changed => changed.Everywhere fun _ => law := by
  unfold modify
  cases hget : table.get? handle with
  | none => exact yields_some h
  | some context =>
      exact (hchange context (h _ _ hget)).bind fun _ hchanged =>
        yields_some (h.modify handle fun _ => hchanged)

theorem yields_foldThread (hspread : Key.Spread names) {table : ContextTable α}
    (h : table.Everywhere fun _ => Within names) (thread : UInt64) :
    Yields (foldThread table thread) fun folded => folded.Everywhere fun _ => Within names := by
  have hfibers := h.fibers thread
  unfold foldThread
  cases hcase : table.fibers thread with
  | nil => exact yields_some h
  | cons first others =>
      rw [hcase] at hfibers
      refine yields_modify (h.foldl_release others) fun context hcontext =>
        yields_mergeAll hspread hcontext fun other hother => ?_
      obtain ⟨entry, hentry, rfl⟩ := List.mem_map.mp hother
      exact hfibers entry (List.mem_cons_of_mem _ hentry)

/-- Folding ends where the candidates of all methods in the table differ for long enough. -/
theorem yields_foldFibers (hspread : Key.Spread names) {table : ContextTable α}
    (h : table.Everywhere fun _ => Within names) :
    Yields (foldFibers table) fun folded => folded.Everywhere fun _ => Within names :=
  Yields.foldlM (fun thread _ _ htable => yields_foldThread hspread htable thread) h

end Searching

end CallLedger
