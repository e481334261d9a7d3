import CallLedger.Proofs.Folding
import CallLedger.Proofs.Remerging
import CallLedger.Proofs.RoundTrip

/-!
# Merging commutes with dumping and loading

A profile that is loaded from its dump has its nodes in the order in which walks meet
them, where the original has them in the order of their first calls, and it lacks the
nodes that are filed nowhere. Place by place the loaded nodes stand for the listed ones
(`Loaded.renumbered`), so whatever is merged on one side can be merged on the other.

What folding the fibers of a table leaves depends on its contexts and their order, not
on the slots that they are in (`Exact.live_foldFibers`). A dump drops the contexts that
are not traced, and with them their threads, since whether a context is traced was asked
of the filter, which looks at the thread alone and cannot be changed any more once there
is a context (`Reachable.filtered`). The rest is loaded in its order, so both sides fold
contexts that do the same (`Reachable.merge_commutes`).
-/

namespace CallLedger

variable {α : Type} [Amount α]

/-! ## What was loaded is renumbered -/

namespace Profile

variable {profile after : Profile α}

/-- A node at a place of the list stands for the one that was listed there. -/
def listedAt (profile : Profile α) (x y : NodeId) : Prop := profile.tree.walkAll[y]? = some x

omit [Amount α] in
theorem listedAt_idxOf {x : NodeId} (hx : x ∈ profile.tree.walkAll) :
    profile.listedAt x (profile.tree.walkAll.idxOf x) :=
  List.getElem?_idxOf hx

/-- The node that was loaded for a listed one. -/
theorem Loaded.node? (hl : Loaded profile.methods profile.dumpNodes after) (h : profile.Filed)
    (hafter : after.Filed) {x y : Nat} (hxy : profile.listedAt x y) :
    ∃ a b, profile.tree.node? x = some a ∧ after.tree.node? y = some b ∧ a.key = b.key ∧
      b.listed = .ofNode profile.tree.walkAll a := by
  have hb := h.tree.branching
  obtain ⟨a, ha⟩ := CallTree.exists_node? (hb.lt_of_mem_walkAll (List.mem_of_getElem? hxy))
  have hlisted : after.tree.listed[y]? = some (.ofNode profile.tree.walkAll a) := by
    rw [hl.listed, dumpNodes_getElem? hb, hxy, Option.bind_some, ha]
    rfl
  rw [CallTree.listed_getElem?] at hlisted
  obtain ⟨b, hnode, heq⟩ := Option.map_eq_some_iff.mp hlisted
  have hmethod : b.method = a.method := congrArg DumpedNode.method heq
  obtain ⟨record, hrecord, hkey⟩ := h.bound ha
  obtain ⟨found, hfound, hsame, -⟩ := Registry.record?_of_names hl.names.symm hrecord
  obtain ⟨other, hother, hotherKey⟩ := hafter.bound hnode
  rw [hmethod, hfound] at hother
  cases hother
  exact ⟨a, b, ha, hnode, by rw [← hkey, ← hsame, hotherKey], heq⟩

theorem Loaded.linksOf (hl : Loaded profile.methods profile.dumpNodes after) (h : profile.Filed)
    (hafter : after.Filed) {parent : Option NodeId}
    (hparent : ∀ p : Nat, parent = some p → p ∈ profile.tree.walkAll) :
    (profile.tree.linksOf parent).Renumbered profile.listedAt
      (after.tree.linksOf (parent.map (profile.tree.walkAll.idxOf ·))) := by
  have htargets : List.Forall₂ profile.listedAt (profile.tree.linksOf parent).targets
      (after.tree.linksOf (parent.map (profile.tree.walkAll.idxOf ·))).targets := by
    rw [hl.targets_eq h parent hparent, List.forall₂_map_right_iff, List.forall₂_same]
    exact fun x hx => listedAt_idxOf ((h.tree.branching.targets_sublist hparent).subset hx)
  unfold Links.targets at htargets
  rw [List.forall₂_map_left_iff, List.forall₂_map_right_iff] at htargets
  refine (forall₂_mem htargets).imp ?_
  rintro ⟨key, x⟩ ⟨other, y⟩ ⟨hx, hy, hxy⟩
  refine ⟨?_, hxy⟩
  obtain ⟨a, b, ha, hb, hkey, -⟩ := hl.node? h hafter hxy
  obtain ⟨node, hnode, -, rfl⟩ := h.tree.keyed hx
  obtain ⟨found, hfound, -, rfl⟩ := hafter.tree.keyed hy
  simp only [] at ha hb
  rw [hnode, Option.some.injEq] at ha
  rw [hfound, Option.some.injEq] at hb
  rw [ha, hb]
  exact hkey

/-- What was loaded is what was dumped, with the nodes in the order of the list. -/
theorem Loaded.renumbered (hl : Loaded profile.methods profile.dumpNodes after)
    (h : profile.Filed) (hafter : after.Filed) : Renumbered profile.listedAt profile after where
  methods := Registry.lasting_eq hl.names.symm hl.records.symm
  nodes {x y} hxy := by
    obtain ⟨a, b, ha, hb, hkey, hlisted⟩ := hl.node? h hafter hxy
    have hmet : x ∈ profile.tree.walkAll := List.mem_of_getElem? hxy
    have hup : b.parent = a.parent.map (profile.tree.walkAll.idxOf ·) := by
      rw [← ofNode_parent h hmet ha, ← hlisted]
      rfl
    refine ⟨a, b, ha, hb, (congrArg DumpedNode.method hlisted).symm, hkey, ?_,
      (congrArg DumpedNode.measurement hlisted).symm, (congrArg DumpedNode.site hlisted).symm, ?_⟩
    · rw [hup]
      cases hp : a.parent with
      | none => exact .none
      | some p =>
          refine .some (listedAt_idxOf ?_)
          exact (h.tree.branching.mem_targets_of_mem_walkAll hmet).2 p
            (by rw [CallTree.parent?_eq ha, hp])
    · have hplace : profile.tree.walkAll.idxOf x = y := by
        obtain ⟨hy, rfl⟩ := List.getElem?_eq_some_iff.mp hxy
        exact h.tree.branching.nodup_walkAll.idxOf_getElem y hy
      have hlinks : (profile.tree.linksOf (some x)).Renumbered profile.listedAt
          (after.tree.linksOf ((some x).map (profile.tree.walkAll.idxOf ·))) :=
        hl.linksOf h hafter fun p hp => by
          cases hp
          exact hmet
      rw [Option.map_some, hplace, CallTree.linksOf_of_node? ha, CallTree.linksOf_of_node? hb]
        at hlinks
      exact hlinks
  roots := hl.linksOf h hafter fun p hp => absurd hp (Option.some_ne_none p).symm
  single {x y x' y'} hxy hxy' := by
    constructor
    · rintro rfl
      exact (List.getElem?_inj (List.getElem?_eq_some_iff.mp hxy).1
        h.tree.branching.nodup_walkAll).mp (hxy.trans hxy'.symm)
    · rintro rfl
      exact Option.some.inj (hxy.symm.trans hxy')

end Profile

/-! ## Folding as seen by the contexts -/

/-- Sorting by what is the same on both sides keeps places together. -/
theorem forall₂_mergeSort {β : Type} {r : β → β → Prop} {le : β → β → Bool}
    (hle : ∀ {a b c d : β}, r a c → r b d → le a b = le c d) {xs ys : List β}
    (h : List.Forall₂ r xs ys) : List.Forall₂ r (xs.mergeSort le) (ys.mergeSort le) := by
  obtain ⟨hlength, hall⟩ := List.forall₂_iff_zip.mp h
  have hpaired : ∀ a ∈ xs.zip ys, ∀ b ∈ xs.zip ys, le a.1 b.1 = le a.2 b.2 :=
    fun a ha b hb => hle (hall ha) (hall hb)
  have hleft : ((xs.zip ys).mergeSort fun a b => le a.1 b.1).map Prod.fst = xs.mergeSort le := by
    rw [List.map_mergeSort (s := le) fun _ _ _ _ => rfl, List.map_fst_zip (Nat.le_of_eq hlength)]
  have hright : ((xs.zip ys).mergeSort fun a b => le a.1 b.1).map Prod.snd = ys.mergeSort le := by
    rw [List.map_mergeSort hpaired, List.map_snd_zip (Nat.le_of_eq hlength.symm)]
  rw [← hleft, ← hright, List.forall₂_map_left_iff, List.forall₂_map_right_iff, List.forall₂_same]
  exact fun pair hpair => hall (List.mem_mergeSort.mp hpair)

namespace Context

/-- The contexts of a thread in the order of their fibers. -/
def fibersAmong (contexts : List (Context α)) (thread : UInt64) : List (Context α) :=
  (contexts.filter (·.key.thread = thread)).mergeSort fun a b => a.key.fiber ≤ b.key.fiber

/-- What a context is when fibers are folded: all of its thread if its fiber is the lowest. -/
def foldedAmong (contexts : List (Context α)) (context : Context α) : Option (Context α) :=
  match fibersAmong contexts context.key.thread with
  | [] => none
  | first :: others =>
    if first.key = context.key then some (others.foldl Context.merge first) else none

/-- What is left of contexts when fibers are folded. -/
def foldedAll (contexts : List (Context α)) : List (Context α) :=
  contexts.filterMap (foldedAmong contexts)

end Context

namespace ContextTable

variable {table : ContextTable α}

omit [Amount α] in
theorem map_fibers (table : ContextTable α) (thread : UInt64) :
    (table.fibers thread).map (·.2) = Context.fibersAmong (table.live.map (·.2)) thread := by
  unfold fibers Context.fibersAmong
  rw [List.filter_map]
  exact List.map_mergeSort fun _ _ _ _ => rfl

theorem foldedAmong_live {context : Context α} {first : Handle × Context α}
    {others : List (Handle × Context α)}
    (hfibers : table.fibers context.key.thread = first :: others) :
    Context.foldedAmong (table.live.map (·.2)) context =
      if first.2.key = context.key then
        some (others.foldl (fun context other => context.merge other.2) first.2)
      else none := by
  unfold Context.foldedAmong
  rw [← map_fibers, hfibers]
  simp only [List.map_cons, List.foldl_map]

/-- What a handle leads to when fibers have been folded. -/
theorem Exact.get?_foldFibers (h : table.Exact) (handle : Nat) :
    table.foldFibers.get? handle =
      (table.get? handle).bind (Context.foldedAmong (table.live.map (·.2))) := by
  refine Option.ext fun context => ?_
  rw [Option.bind_eq_some_iff]
  constructor
  · intro hget
    obtain ⟨before, hbefore, hkey⟩ := get?_of_foldFibers hget
    have hmem := (within_foldFibers before.key.thread handle context).mp
      (within_eq_some.mpr ⟨hget, by rw [hkey]⟩)
    cases hfibers : table.fibers before.key.thread with
    | nil =>
        rw [hfibers] at hmem
        exact absurd hmem List.not_mem_nil
    | cons first others =>
        rw [hfibers, folded, List.mem_singleton, Prod.mk.injEq] at hmem
        obtain ⟨rfl, rfl⟩ := hmem
        obtain ⟨hfirst, -⟩ := within_eq_some.mp (mem_fibers.mp (hfibers ▸ List.mem_cons_self))
        rw [hbefore, Option.some.injEq] at hfirst
        exact ⟨before, hbefore, by rw [foldedAmong_live hfibers, if_pos (by rw [hfirst])]⟩
  · rintro ⟨before, hbefore, hfolded⟩
    cases hfibers : table.fibers before.key.thread with
    | nil =>
        have hmem := mem_fibers.mpr (within_eq_some.mpr ⟨hbefore, rfl⟩)
        rw [hfibers] at hmem
        exact absurd hmem List.not_mem_nil
    | cons first others =>
        rw [foldedAmong_live hfibers] at hfolded
        split at hfolded
        · next hkey =>
            cases hfolded
            obtain ⟨hfirst, -⟩ :=
              within_eq_some.mp (mem_fibers.mp (hfibers ▸ List.mem_cons_self))
            rw [h.unique hfirst hbefore hkey.symm]
            refine (within_eq_some.mp ((within_foldFibers before.key.thread first.1 _).mpr ?_)).1
            rw [hfibers]
            exact List.mem_cons_self
        · cases hfolded

omit [Amount α] in
theorem live_contexts (table : ContextTable α) :
    table.live.map (·.2) = (List.range table.slots.size).filterMap table.get? := by
  unfold live
  rw [List.map_filterMap]
  refine List.filterMap_congr fun handle _ => ?_
  rw [Option.map_map]
  exact Option.map_id'

/-- Only the contexts matter for what is left when fibers are folded, and their order. -/
theorem Exact.live_foldFibers (h : table.Exact) :
    table.foldFibers.live.map (·.2) = Context.foldedAll (table.live.map (·.2)) := by
  rw [live_contexts, size_foldFibers, List.filterMap_congr fun handle _ => h.get?_foldFibers handle]
  unfold Context.foldedAll
  generalize Context.foldedAmong (table.live.map (·.2)) = fold
  rw [live_contexts, List.filterMap_filterMap]

end ContextTable

/-! ## Contexts that do the same -/

namespace Context

/-- Two contexts of one key with profiles that differ in the positions of nodes only. -/
structure Interchangeable (context peer : Context α) : Prop where
  key : context.key = peer.key
  profile : context.profile.Interchangeable peer.profile

variable {context peer : Context α} {contexts peers : List (Context α)}

theorem Interchangeable.ofContext_eq (h : context.Interchangeable peer) :
    DumpedContext.ofContext context = DumpedContext.ofContext peer := by
  unfold DumpedContext.ofContext
  rw [h.key, h.profile.listed_eq, h.profile.dumpNodes_eq]

theorem Interchangeable.foldl_merge (h : context.Interchangeable peer)
    (hothers : List.Forall₂ Interchangeable contexts peers) :
    (contexts.foldl Context.merge context).Interchangeable (peers.foldl Context.merge peer) := by
  induction hothers generalizing context peer with
  | nil => exact h
  | cons hfirst _ ih => exact ih ⟨h.key, h.profile.merge hfirst.profile⟩

theorem interchangeable_fibersAmong (h : List.Forall₂ Interchangeable contexts peers)
    (thread : UInt64) :
    List.Forall₂ Interchangeable (fibersAmong contexts thread) (fibersAmong peers thread) := by
  refine forall₂_mergeSort (fun ha hb => ?_) (List.rel_filter (fun context peer hsame => ?_) h)
  · rw [ha.key, hb.key]
  · show decide (context.key.thread = thread) = true ↔ decide (peer.key.thread = thread) = true
    rw [hsame.key]

/-- What is left of contexts that do the same does the same. -/
theorem interchangeable_foldedAll (h : List.Forall₂ Interchangeable contexts peers) :
    List.Forall₂ Interchangeable (foldedAll contexts) (foldedAll peers) := by
  refine List.rel_filterMap (fun context peer hsame => ?_) h
  have hfibers := interchangeable_fibersAmong h peer.key.thread
  unfold foldedAmong
  rw [hsame.key]
  generalize fibersAmong contexts peer.key.thread = fibers at hfibers
  generalize fibersAmong peers peer.key.thread = others at hfibers
  cases hfibers with
  | nil => exact .none
  | cons hfirst hrest =>
      simp only [hfirst.key]
      split
      · exact .some (hfirst.foldl_merge hrest)
      · exact .none

theorem map_ofContext_eq (h : List.Forall₂ Interchangeable contexts peers) :
    contexts.map DumpedContext.ofContext = peers.map DumpedContext.ofContext := by
  rw [← List.forall₂_eq_eq_eq, List.forall₂_map_left_iff, List.forall₂_map_right_iff]
  exact h.imp fun _ _ hsame => hsame.ofContext_eq

/-! ## Threads that are traced -/

theorem foldl_merge_keeps : ∀ (others : List (Context α)) (context : Context α),
    (others.foldl Context.merge context).key = context.key ∧
      (others.foldl Context.merge context).traced = context.traced := by
  intro others
  induction others with
  | nil => intro context; exact ⟨rfl, rfl⟩
  | cons other others ih => intro context; exact ih (context.merge other)

/-- Whether a context is traced is what a filter says of its thread. -/
def Filtered (filter : ThreadFilter) (context : Context α) : Prop :=
  context.traced = filter.traces context.key.thread

variable {filter : ThreadFilter}

/-- What is left of a thread is traced when the thread is. -/
theorem traced_foldedAmong (h : ∀ context ∈ contexts, context.Filtered filter)
    (hcontext : context ∈ contexts) {left : Context α}
    (hleft : foldedAmong contexts context = some left) : left.traced = context.traced := by
  unfold foldedAmong at hleft
  cases hfibers : fibersAmong contexts context.key.thread with
  | nil =>
      rw [hfibers] at hleft
      cases hleft
  | cons first others =>
      have hfirst : first ∈ fibersAmong contexts context.key.thread :=
        hfibers ▸ List.mem_cons_self
      obtain ⟨hmem, hthread⟩ := List.mem_filter.mp (List.mem_mergeSort.mp hfirst)
      rw [hfibers] at hleft
      simp only [] at hleft
      split at hleft
      · cases hleft
        rw [(foldl_merge_keeps others first).2, h first hmem, of_decide_eq_true hthread,
          ← h context hcontext]
      · cases hleft

omit [Amount α] in
/-- The fibers of a traced thread are traced. -/
theorem fibersAmong_filter (h : ∀ context ∈ contexts, context.Filtered filter)
    (hcontext : context ∈ contexts) (htraced : context.traced = true) :
    fibersAmong (contexts.filter (·.traced)) context.key.thread =
      fibersAmong contexts context.key.thread := by
  unfold fibersAmong
  rw [List.filter_filter]
  refine congrArg (List.mergeSort · _) (List.filter_congr fun other hother => ?_)
  by_cases hthread : other.key.thread = context.key.thread
  · rw [h other hother, hthread, ← h context hcontext, htraced, Bool.and_true]
  · rw [decide_eq_false hthread, Bool.false_and]

/-- Contexts that are not traced do not matter to those that are. -/
theorem filter_foldedAll (h : ∀ context ∈ contexts, context.Filtered filter) :
    (foldedAll contexts).filter (·.traced) = foldedAll (contexts.filter (·.traced)) := by
  unfold foldedAll
  rw [List.filter_filterMap, List.filterMap_filter]
  refine List.filterMap_congr fun context hcontext => ?_
  have hleft : (foldedAmong contexts context).filter (·.traced) =
      if context.traced then foldedAmong contexts context else none := by
    cases hfolded : foldedAmong contexts context with
    | none => exact (ite_self _).symm
    | some left => rw [Option.filter_some, traced_foldedAmong h hcontext hfolded]
  rw [hleft]
  split
  · next htraced =>
      unfold foldedAmong
      rw [fibersAmong_filter h hcontext htraced]
  · rfl

end Context

/-! ## Sessions -/

namespace Session

open ContextTable

variable {session : Session α}

theorem filtered_handle (hexact : session.contexts.Exact)
    (h : session.contexts.Everywhere fun _ context => context.Filtered session.filter)
    (event : Event α) :
    (session.handle event).contexts.Everywhere fun _ context =>
      context.Filtered session.filter := by
  cases hactive : session.phase.isActive with
  | false =>
      unfold Session.handle
      rw [hactive]
      exact h
  | true =>
      have hall : session.contexts.Attended fun _ _ context => context.Filtered session.filter := h
      have hactivated : ∃ handle, Activated session.contexts (session.handle event).contexts
          (fun _ _ context => context.Filtered session.filter) ⟨event.thread, event.fiber⟩
          handle := by
        refine activated_handle hactive hexact hall event ⟨fun hc => hc, fun hc => hc⟩
          (fun _ _ => rfl) (fun {_ context} hc _ => ?_) fun hc _ => hc
        unfold Context.Filtered
        obtain ⟨hkey, htraced⟩ := session.record_keeps event context
        rw [hkey, htraced]
        exact hc
      exact hactivated.choose_spec.attended

/-- Filters are only changed before there is a context. -/
theorem filtered_after (hexact : session.contexts.Exact)
    (hunused : session.phase = .idle → session.contexts = .empty)
    (h : session.contexts.Everywhere fun _ context => context.Filtered session.filter)
    (operation : Operation α) :
    (session.after operation).contexts.Everywhere fun _ context =>
      context.Filtered (session.after operation).filter := by
  have hall : session.contexts.Attended fun _ _ context => context.Filtered session.filter := h
  have hunwound := fun now => (attended_unwindAll session now ⟨fun hc => hc, fun hc => hc⟩
    (fun hc => hc) session.contexts.handles hexact hall).2.2
  have houtlasts : Outlasts session fun table =>
      table.Everywhere fun _ context => context.Filtered session.filter :=
    { here := h
      paused := fun _ => h.mapLive fun hc => hc
      resumed := fun _ => h.mapLive fun hc => hc
      unwound := hunwound
      unwoundFolded := fun now => Everywhere.foldFibers (hunwound now) fun hc _ => hc
      recorded := filtered_handle hexact h
      folded := fun _ => h.foldFibers fun hc _ => hc
      released := everywhere_releaseAll }
  rcases session.filter_after operation with hsame | ⟨hidle, hcontexts⟩
  · rw [hsame]
    exact houtlasts.after operation
  · rw [hcontexts, hunused hidle]
    exact everywhere_empty

theorem filtered_loaded {dump : Dump α} {loaded : Session α} (hload : ofDump dump = .ok loaded) :
    loaded.contexts.Everywhere fun _ context => context.Filtered loaded.filter := by
  obtain ⟨-, contexts, hcontexts, rfl⟩ := ofDump_eq_ok.mp hload
  refine everywhere_empty.foldl_insert fun context hcontext => ?_
  obtain ⟨dumped, -, hok⟩ := mem_of_mapM hcontexts context hcontext
  exact (DumpedContext.filed_of_load hok).1

theorem Reachable.filtered {dumps : Phase → Prop} (h : Reachable dumps session) :
    session.contexts.Everywhere fun _ context => context.Filtered session.filter := by
  induction h with
  | @made config session hmade =>
      unfold ofConfig at hmade
      split at hmade
      · cases hmade
        exact everywhere_empty
      · cases hmade
  | after h operation ih =>
      obtain ⟨excluded, hlawful⟩ := h.lawful Context.law_filed (survives_filed dumps)
      exact filtered_after h.exact hlawful.unused ih operation
  | loaded _ _ hload _ => exact filtered_loaded hload

/-- The dump of a merged session is made of what folding leaves of the traced contexts. -/
theorem dump_merged (hexact : session.contexts.Exact)
    (hfiltered : session.contexts.Everywhere fun _ context => context.Filtered session.filter) :
    { session with contexts := session.contexts.foldFibers }.dump.contexts =
      (Context.foldedAll (session.threads.map (·.2))).map .ofContext := by
  have htraced : ∀ table : ContextTable α,
      table.traced.map (·.2) = (table.live.map (·.2)).filter (·.traced) := by
    intro table
    unfold ContextTable.traced
    rw [List.filter_map]
    rfl
  have hall : ∀ context ∈ session.contexts.live.map (·.2), context.Filtered session.filter := by
    intro context hcontext
    obtain ⟨entry, hentry, rfl⟩ := List.mem_map.mp hcontext
    exact hfiltered _ _ (mem_live.mp hentry)
  have hleft : session.contexts.foldFibers.traced.map (·.2) =
      Context.foldedAll (session.threads.map (·.2)) := by
    rw [htraced, hexact.live_foldFibers, Context.filter_foldedAll hall, ← htraced]
    rfl
  rw [← hleft, List.map_map]
  rfl

/-- What is loaded does the same as what was dumped. -/
theorem interchangeable_loaded (h : ∀ entry ∈ session.threads, entry.2.profile.Filed)
    {loaded : Session α} (hload : ofDump session.dump = .ok loaded) :
    List.Forall₂ Context.Interchangeable (session.threads.map (·.2))
      (loaded.threads.map (·.2)) := by
  have hpieces := forall₂_of_mapM (threads_of_load hload)
  change List.Forall₂ _ (session.threads.map fun entry => DumpedContext.ofContext entry.2) _
    at hpieces
  rw [List.forall₂_map_left_iff] at hpieces ⊢
  refine (forall₂_mem hpieces).imp ?_
  rintro ⟨handle, context⟩ reloaded ⟨hentry, -, hok⟩
  have hfiled : context.profile.Filed := h _ hentry
  obtain ⟨profile, hprofile, rfl⟩ := DumpedContext.toContext_eq_ok.mp hok
  obtain ⟨after, hafter, hloaded⟩ := hfiled.loaded
  have hsame : profile = after := Except.ok.inj (hprofile.symm.trans hafter)
  have hgood := Profile.filed_of_load hafter
  rw [hsame]
  exact ⟨rfl, hfiled, hgood, _, hloaded.renumbered hfiled hgood⟩

theorem mergeFibers_eq_ok (hphase : session.phase.isActive = false) :
    session.mergeFibers = .ok { session with contexts := session.contexts.foldFibers } := by
  unfold Session.mergeFibers
  rw [hphase]
  rfl

/-- Outside a run, the dump of what is merged is the dump of what is dumped, loaded and then
merged. -/
theorem Reachable.merge_commutes {dumps : Phase → Prop} (h : Reachable dumps session)
    (hphase : session.phase.isActive = false) :
    ∃ merged loaded again, session.mergeFibers = .ok merged ∧
      ofDump session.dump = .ok loaded ∧ loaded.mergeFibers = .ok again ∧
      again.dump = merged.dump := by
  have hfiled : ∀ entry ∈ session.threads, entry.2.profile.Filed := fun entry hentry =>
    (h.filed _ _ (mem_live.mp (List.mem_filter.mp hentry).1)).profile
  obtain ⟨loaded, hload, -⟩ := reloaded_dump hfiled
  have hmerged := dump_merged h.exact h.filtered
  have hagain := dump_merged (exact_loaded h.exact hload) (filtered_loaded hload)
  have hcontexts : { loaded with contexts := loaded.contexts.foldFibers }.dump.contexts =
      { session with contexts := session.contexts.foldFibers }.dump.contexts := by
    rw [hmerged, hagain]
    exact (Context.map_ofContext_eq
      (Context.interchangeable_foldedAll (interchangeable_loaded hfiled hload))).symm
  obtain ⟨-, contexts, -, rfl⟩ := ofDump_eq_ok.mp hload
  refine ⟨_, _, _, mergeFibers_eq_ok hphase, hload, mergeFibers_eq_ok rfl, ?_⟩
  exact congrArg (Dump.mk dumpVersion programVersion session.config.measureMode) hcontexts

/-- Two fibers of one thread, of which the higher one came first, and another thread that the
filter keeps out. -/
theorem merge_commutes_filtered :
    ∃ session merged loaded again : Session Int,
      (unconfigured : Session Int).run
        [.setThreadFilter ⟨none, some [2]⟩, .start 0,
          .event (((Event.call ⟨.owner .plain, "A"⟩ "f").on 1 5).sampled 10),
          .event (((Event.call ⟨.owner .plain, "A"⟩ "g").on 2 0).sampled 15),
          .event (((Event.call ⟨.owner .plain, "A"⟩ "f").on 1 2).sampled 20),
          .event (((Event.call ⟨.owner .plain, "A"⟩ "g").on 1 2).sampled 25),
          .stop 50] = session ∧
      (session.contexts.live.map fun entry => (entry.2.key, entry.2.traced)) =
        [(⟨1, 5⟩, true), (⟨2, 0⟩, false), (⟨1, 2⟩, true)] ∧
      session.phase.isActive = false ∧ session.mergeFibers = .ok merged ∧
      ofDump session.dump = .ok loaded ∧ loaded.mergeFibers = .ok again ∧
      again.dump = merged.dump := by
  generalize hrun : Session.run (α := Int) _ _ = session
  have hlive : (session.contexts.live.map fun entry => (entry.2.key, entry.2.traced)) =
      [(⟨1, 5⟩, true), (⟨2, 0⟩, false), (⟨1, 2⟩, true)] := by
    rw [← hrun]
    decide +kernel
  have hphase : session.phase.isActive = false := by
    rw [← hrun]
    decide +kernel
  have hreachable : Reachable (fun _ => True) session :=
    hrun ▸ (reachable_unconfigured _).run _
  obtain ⟨merged, loaded, again, hcommutes⟩ := hreachable.merge_commutes hphase
  exact ⟨session, merged, loaded, again, rfl, hlive, hphase, hcommutes⟩

end Session

end CallLedger
