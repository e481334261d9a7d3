import CallLedger.Proofs.Lifecycle

/-!
# One context for one key

A key names one line of execution: no two live contexts should have it, and a lookup should find
the one that does (`Session.Identified`). What a lookup finds is always a live context of that key.
Whether it finds every one is settled where a session begins (`Session.identified_iff`). Recording
looks a key up before it makes a context, so nothing can go wrong in a session that was made.
Loading puts in what the dump lists without looking. When a dump lists a key twice both contexts
are live, and the index leads to the later one. Folding the fibers releases that one together with
the entry of the index, and the context that is left can no longer be found (`Session.lookup_lost`).
-/

namespace CallLedger

namespace ContextTable

variable {α : Type} {table : ContextTable α}

/-- The keys of the live contexts in the order of their slots. -/
def keys (table : ContextTable α) : List ContextKey := table.live.map (·.2.key)

theorem mem_keys {key : ContextKey} : key ∈ table.keys ↔
    ∃ (handle : Nat) (context : Context α), table.get? handle = some context ∧
      context.key = key := by
  unfold keys
  rw [List.mem_map]
  constructor
  · rintro ⟨⟨handle, context⟩, hmem, hkey⟩
    exact ⟨handle, context, mem_live.mp hmem, hkey⟩
  · rintro ⟨handle, context, hget, hkey⟩
    exact ⟨(handle, context), mem_live.mpr hget, hkey⟩

theorem Exact.mem_keys_iff (h : table.Exact) {key : ContextKey} :
    key ∈ table.keys ↔ (table.find? key).isSome = true := by
  rw [mem_keys, Option.isSome_iff_exists]
  exact exists_congr fun _ => h.find.symm

theorem keys_foldl_insert (contexts : List (Context α)) :
    (contexts.foldl ContextTable.insert .empty).keys = contexts.map (·.key) :=
  (List.map_map (g := Context.key)).symm.trans (congrArg _ live_foldl_insert)

/-- What the index leads to is there and has the key. -/
def Leads (table : ContextTable α) : Prop :=
  ∀ (key : ContextKey) (handle : Nat), table.find? key = some handle →
    ∃ context, table.get? handle = some context ∧ context.key = key

theorem Exact.leads (h : table.Exact) : table.Leads :=
  fun _ _ hfind => h.find.mp hfind

theorem Leads.insert (h : table.Leads) (context : Context α) : (table.insert context).Leads := by
  intro key handle hfind
  change (table.index.insert context.key table.slots.size).get? key = some handle at hfind
  rw [Links.get?_insert] at hfind
  split at hfind
  · next hkey =>
      cases hfind
      rw [get?_insert, if_pos rfl]
      exact ⟨context, rfl, hkey.symm⟩
  · obtain ⟨found, hget, hkey⟩ := h _ _ hfind
    rw [get?_insert, if_neg (Nat.ne_of_lt (get?_lt hget))]
    exact ⟨found, hget, hkey⟩

theorem Leads.foldl_insert : ∀ {contexts : List (Context α)} {table : ContextTable α},
    table.Leads → (contexts.foldl ContextTable.insert table).Leads := by
  intro contexts
  induction contexts with
  | nil => intro table h; exact h
  | cons context contexts ih => intro table h; exact ih (h.insert context)

/-- The entry of a key goes with any of its contexts, so no entry is left that leads nowhere. -/
theorem Leads.release (h : table.Leads) (handle : Nat) : (table.release handle).Leads := by
  cases hget : table.get? handle with
  | none =>
      unfold ContextTable.release
      rw [hget]
      exact h
  | some context =>
      intro key other hfind
      have hindex : (table.release handle).find? key =
          if key = context.key then none else table.find? key := by
        unfold ContextTable.release
        rw [hget]
        exact Links.get?_erase _ _ _
      rw [hindex] at hfind
      split at hfind
      · cases hfind
      · next hne =>
          obtain ⟨found, hfound, hkey⟩ := h _ _ hfind
          rw [get?_release, if_neg]
          · exact ⟨found, hfound, hkey⟩
          · rintro rfl
            rw [hget] at hfound
            cases hfound
            exact hne hkey.symm

theorem Leads.modify (h : table.Leads) (handle : Nat) {change : Context α → Context α}
    (hkey : ∀ context, (change context).key = context.key) : (table.modify handle change).Leads := by
  intro key other hfind
  obtain ⟨found, hfound, rfl⟩ := h _ _ hfind
  rw [get?_modify, hfound]
  split
  · exact ⟨change found, rfl, hkey found⟩
  · exact ⟨found, rfl, rfl⟩

end ContextTable

namespace Session

open ContextTable

variable {α : Type} {session : Session α}

/-- Live contexts and their keys go together one to one, and lookups know it. -/
structure Identified (session : Session α) : Prop where
  apart : session.contexts.keys.Nodup
  found : ∀ {thread fiber : UInt64} {handle : Nat},
    session.findThread thread fiber = some handle ↔
      ∃ context, session.thread handle = .ok context ∧ context.key = ⟨thread, fiber⟩

theorem identified_of_exact (h : session.contexts.Exact) : session.Identified where
  apart := List.pairwise_map.mpr h.pairwise_live
  found := by
    intro thread fiber handle
    refine h.find.trans (exists_congr fun context => ?_)
    rw [thread_eq_ok]

/-! ## From the beginning -/

variable [Amount α]

theorem exact_carried (h : session.contexts.Exact) (operations : List (Operation α)) :
    (session.carried operations).contexts.Exact := by
  induction operations using List.reverseRecOn with
  | nil => exact h
  | append_singleton operations operation ih =>
      unfold carried
      rw [List.foldl_append]
      change ((session.carried operations).carry operation).1.contexts.Exact
      rw [carry_fst fun _ => ih]
      exact exact_after ih operation

end Session

/-- The keys that a dump lists, as often as it lists them. -/
def Dump.keys {α : Type} (dump : Dump α) : List ContextKey :=
  dump.contexts.map fun dumped => ⟨dumped.thread, dumped.fiber⟩

namespace Beginning

variable {α : Type}

/-- The keys that a session begins with. -/
def keys : Beginning α → List ContextKey
  | .made _ => []
  | .loaded dump => dump.keys

variable [Amount α] {beginning : Beginning α} {first : Session α}

/-- A session holds at first what is listed, in that order. -/
theorem contexts_eq (h : beginning.session = .ok first) : ∃ contexts : List (Context α),
    first.contexts = contexts.foldl ContextTable.insert .empty ∧
      contexts.map (·.key) = beginning.keys := by
  cases beginning with
  | made config =>
      change Session.ofConfig config = .ok first at h
      unfold Session.ofConfig at h
      split at h
      · cases h
        exact ⟨[], rfl, rfl⟩
      · cases h
  | loaded dump =>
      change (Session.ofDump dump).mapError Error.dump = .ok first at h
      cases hload : Session.ofDump dump with
      | error cause => rw [hload] at h; cases h
      | ok loaded =>
          rw [hload] at h
          cases h
          obtain ⟨-, contexts, hcontexts, rfl⟩ := Session.ofDump_eq_ok.mp hload
          refine ⟨contexts, rfl, Session.map_of_mapM (fun {dumped loaded} hok => ?_) hcontexts⟩
          obtain ⟨profile, -, rfl⟩ := DumpedContext.toContext_eq_ok.mp hok
          rfl

end Beginning

namespace Session

open ContextTable

variable {α : Type} [Amount α] {beginning : Beginning α} {first : Session α}

theorem leads_carried (h : beginning.session = .ok first) (operations : List (Operation α)) :
    (first.carried operations).contexts.Leads := by
  induction operations using List.reverseRecOn with
  | nil =>
      obtain ⟨contexts, hcontexts, -⟩ := Beginning.contexts_eq h
      change first.contexts.Leads
      rw [hcontexts]
      exact exact_empty.leads.foldl_insert
  | append_singleton operations operation ih =>
      have hgrows := Grows.carried h operations
      unfold carried
      rw [List.foldl_append]
      change ((first.carried operations).carry operation).1.contexts.Leads
      generalize first.carried operations = session at hgrows ih
      by_cases hphase : session.phase = .finished
      · rw [carry_finished hphase]
        by_cases hmerge : operation = .mergeFibers
        · subst hmerge
          rw [after_mergeFibers, if_neg fun hactive => not_finished hactive hphase]
          exact foldFibers_keeps (fun handle hleads => Leads.release hleads handle)
            (fun handle _ hkey hleads => Leads.modify hleads handle hkey) ih
        · by_cases hteardown : operation = .teardown
          · subst hteardown
            exact exact_releaseAll.leads
          · rw [after_finished hphase hmerge hteardown]
            exact ih
      · rw [carry_fst fun hactive => hgrows.exact (not_finished hactive)]
        exact (exact_after (hgrows.exact hphase) operation).leads

/-- A lookup answers with a live context of the key. Lookups and keys are right at all times
when no key is listed twice where the session begins, and only then. -/
theorem identified_iff (h : beginning.session = .ok first) :
    (∀ (operations : List (Operation α)) (thread fiber : UInt64) (handle : Nat),
      (first.carried operations).findThread thread fiber = some handle →
        ∃ context, (first.carried operations).thread handle = .ok context ∧
          context.key = ⟨thread, fiber⟩) ∧
    ((∀ operations : List (Operation α), (first.carried operations).Identified) ↔
      beginning.keys.Nodup) := by
  obtain ⟨contexts, hcontexts, hkeys⟩ := Beginning.contexts_eq h
  refine ⟨fun operations thread fiber handle hfind => ?_, fun hall => ?_, fun hnodup => ?_⟩
  · obtain ⟨context, hget, hkey⟩ := leads_carried h operations _ _ hfind
    exact ⟨context, thread_eq_ok.mpr hget, hkey⟩
  · have hapart : first.contexts.keys.Nodup := (hall []).apart
    rwa [hcontexts, keys_foldl_insert, hkeys] at hapart
  · have hexact : first.contexts.Exact := by
      rw [hcontexts]
      exact exact_empty.foldl_insert (hkeys ▸ hnodup) fun _ _ => rfl
    exact fun operations => identified_of_exact (exact_carried hexact operations)

/-- Two fibers of a thread and one of another, the lower fiber listed after the other. -/
theorem identified_two_fibers : ∃ first : Session Int,
    (Beginning.loaded ⟨dumpVersion, programVersion, .wallTime,
      [⟨1, 2, [], []⟩, ⟨1, 0, [], []⟩, ⟨3, 0, [], []⟩]⟩).session = .ok first ∧
    first.findThread 1 0 = some 1 ∧ (first.carried [.mergeFibers]).Identified := by
  have hloaded : (Beginning.loaded ⟨dumpVersion, programVersion, .wallTime,
      [⟨1, 2, [], []⟩, ⟨1, 0, [], []⟩, ⟨3, 0, [], []⟩]⟩).session = .ok (Session.ofContexts .wallTime
        [.settled ⟨1, 2⟩ (.empty : Profile Int), .settled ⟨1, 0⟩ .empty,
          .settled ⟨3, 0⟩ .empty]) := rfl
  exact ⟨_, hloaded, by decide +kernel, (identified_iff hloaded).2.mpr (by decide) _⟩

/-- A dump that lists a key twice. Both contexts are live at first. When the fibers are folded
one is left, and looking up its key finds nothing. -/
theorem lookup_lost : ∃ first : Session Int,
    (Beginning.loaded ⟨dumpVersion, programVersion, .wallTime,
      [⟨1, 0, [], []⟩, ⟨1, 0, [], []⟩]⟩).session = .ok first ∧
    first.contexts.live = [(0, .settled ⟨1, 0⟩ .empty), (1, .settled ⟨1, 0⟩ .empty)] ∧
    (first.carried [.mergeFibers]).contexts.live = [(0, .settled ⟨1, 0⟩ .empty)] ∧
    (first.carried [.mergeFibers]).findThread 1 0 = none := by
  refine ⟨Session.ofContexts .wallTime [.settled ⟨1, 0⟩ .empty, .settled ⟨1, 0⟩ .empty], rfl, ?_⟩
  generalize hfirst : Session.ofContexts .wallTime _ = first
  have hlive : first.contexts.live =
      [(0, .settled ⟨1, 0⟩ .empty), (1, .settled ⟨1, 0⟩ (.empty : Profile Int))] := by
    rw [← hfirst]
    decide +kernel
  have hfibers : first.contexts.fibers 1 = first.contexts.live := by
    rw [fibers, hlive]
    exact List.mergeSort_of_pairwise (by decide)
  have hfolded : (first.carried [.mergeFibers]).contexts =
      (first.contexts.release 1).modify 0 (·.merge (.settled ⟨1, 0⟩ .empty)) := by
    have hfinished : first.phase.isActive = false := by rw [← hfirst]; rfl
    change (first.carry .mergeFibers).1.contexts = _
    rw [carry_finished (by rw [← hfirst]; rfl), after_mergeFibers,
      if_neg (Bool.eq_false_iff.mp hfinished)]
    change first.contexts.foldFibers = _
    rw [foldFibers, ContextTable.threads, hlive]
    change first.contexts.foldThread 1 = _
    rw [foldThread, hfibers, hlive]
    rfl
  refine ⟨hlive, ?_, ?_⟩
  · rw [hfolded, ← hfirst]
    decide +kernel
  · rw [findThread, hfolded, ← hfirst]
    decide +kernel

end Session

end CallLedger
