import CallLedger.Proofs.Folding
import CallLedger.Session.Stepwise

/-!
# Operations do not break off

Step by step an operation comes to what `Session.perform` says, or it is refused before its first
step (`Session.carry_eq`). A walk over handles goes through when every handle leads somewhere as
its turn comes, whatever was done under the others before (`Stepwise.forM_run`). Pauses only
change what is under a handle. The end of a run activates contexts by key, and here the index has
to be right, or activity might go to a slot that is empty. Folding releases contexts, but each
thread has handles of its own, and the one that everything is added to is not among those
that are released.
-/

namespace CallLedger

namespace ContextTable

variable {α : Type} {table other : ContextTable α}

/-- Tables are the same when the same contexts stand in the same slots. -/
theorem eq_of_get? (hsize : table.slots.size = other.slots.size)
    (hget : ∀ handle : Nat, table.get? handle = other.get? handle)
    (hindex : table.index = other.index) (hlast : table.last = other.last) : table = other := by
  have hslots : table.slots = other.slots := by
    refine Array.ext hsize fun i hi hj => ?_
    have hslot := hget i
    unfold get? at hslot
    rwa [Array.getElem?_eq_getElem hi, Array.getElem?_eq_getElem hj] at hslot
  obtain ⟨_, _, _⟩ := table
  obtain ⟨_, _, _⟩ := other
  cases hslots
  cases hindex
  cases hlast
  rfl

/-- Changing some slots, each once. -/
theorem foldl_modify (change : Context α → Context α) : ∀ {handles : List Handle}
    (table : ContextTable α), handles.Nodup →
    (handles.foldl (fun table handle => table.modify handle change) table).slots.size =
        table.slots.size ∧
      (handles.foldl (fun table handle => table.modify handle change) table).index =
        table.index ∧
      (handles.foldl (fun table handle => table.modify handle change) table).last = table.last ∧
      ∀ handle : Nat,
        (handles.foldl (fun table handle => table.modify handle change) table).get? handle =
          if handle ∈ handles then (table.get? handle).map change else table.get? handle := by
  intro handles
  induction handles with
  | nil => intro table _; exact ⟨rfl, rfl, rfl, fun _ => rfl⟩
  | cons first handles ih =>
      intro table hnodup
      obtain ⟨hfirst, hrest⟩ := List.nodup_cons.mp hnodup
      obtain ⟨hsize, hindex, hlast, hget⟩ := ih (table.modify first change) hrest
      refine ⟨hsize.trans Array.size_modify, hindex, hlast, fun handle => ?_⟩
      rw [List.foldl_cons, hget, get?_modify]
      by_cases hhere : first = handle
      · subst hhere
        rw [if_neg hfirst, if_pos rfl, if_pos List.mem_cons_self]
      · have hmem : handle ∈ first :: handles ↔ handle ∈ handles := by
          rw [List.mem_cons]
          exact or_iff_right fun heq => hhere heq.symm
        rw [if_neg hhere]
        simp only [hmem]

/-- Changing the context under every handle is changing every context. -/
theorem foldl_modify_handles (table : ContextTable α) (change : Context α → Context α) :
    table.handles.foldl (fun table handle => table.modify handle change) table =
      table.mapLive change := by
  obtain ⟨hsize, hindex, hlast, hget⟩ := foldl_modify change table table.nodup_live
  refine eq_of_get? (hsize.trans Array.size_map.symm) (fun handle => ?_) hindex hlast
  rw [handles, hget, get?_mapLive]
  split
  · rfl
  · next hnone =>
      cases hcase : table.get? handle with
      | none => rfl
      | some context => exact absurd (mem_handles.mpr ⟨context, hcase⟩) hnone

end ContextTable

/-! ## Walks -/

namespace Stepwise

open ContextTable

variable {α : Type} {session : Session α}

theorem run_bind {β γ : Type} {first : Stepwise α β} {next : β → Stepwise α γ} {value : β}
    {after : Session α} (h : first.run session = .ok value after) :
    (first >>= next).run session = (next value).run after := by
  show EStateM.bind first next session = _
  unfold EStateM.bind
  rw [show first session = .ok value after from h]
  rfl

theorem get_run (session : Session α) :
    (get : Stepwise α (Session α)).run session = .ok session session := rfl

theorem modify_run (change : Session α → Session α) (session : Session α) :
    (modify change : Stepwise α Unit).run session = .ok () (change session) := rfl

/-- A walk goes through when every step is ready for its turn, whatever was done before. -/
theorem forM_run {β : Type} {step : β → Stepwise α Unit} (ready : Session α → β → Prop)
    (move : Session α → β → Session α)
    (hstep : ∀ {session : Session α} {item : β}, ready session item →
      (step item).run session = .ok () (move session item))
    (hkeep : ∀ {session : Session α} {item later : β}, item ≠ later → ready session item →
      ready session later → ready (move session item) later) :
    ∀ (items : List β) (session : Session α), items.Nodup → (∀ item ∈ items, ready session item) →
      (items.forM step).run session = .ok () (items.foldl move session) := by
  intro items
  induction items with
  | nil => intro session _ _; rfl
  | cons item items ih =>
      intro session hnodup hready
      obtain ⟨hitem, hrest⟩ := List.nodup_cons.mp hnodup
      have hfirst := hready item List.mem_cons_self
      show (step item >>= fun _ => items.forM step).run session = _
      rw [run_bind (hstep hfirst), List.foldl_cons]
      refine ih _ hrest fun later hlater => ?_
      exact hkeep (fun heq => hitem (heq ▸ hlater)) hfirst
        (hready later (List.mem_cons_of_mem _ hlater))

theorem fetch_run {handle : Handle} {context : Context α}
    (h : session.contexts.get? handle = some context) :
    (fetch handle).run session = .ok context session := by
  unfold fetch
  rw [run_bind (get_run session), h]
  rfl

theorem alter_run {handle : Handle} {context : Context α}
    (h : session.contexts.get? handle = some context) (change : Context α → Context α) :
    (alter handle change).run session =
      .ok () { session with contexts := session.contexts.modify handle change } := by
  unfold alter
  rw [run_bind (fetch_run h)]
  rfl

/-- Changing nothing but the contexts, item by item. -/
theorem foldl_contexts {β : Type} (change : ContextTable α → β → ContextTable α) :
    ∀ (items : List β) (session : Session α),
      items.foldl (fun session item =>
          { session with contexts := change session.contexts item }) session =
        { session with contexts := items.foldl change session.contexts } := by
  intro items
  induction items with
  | nil => intro session; rfl
  | cons item items ih => intro session; exact ih _

/-- Changing the context under every handle in turn. -/
theorem forM_alter_run (session : Session α) (change : Context α → Context α) :
    (session.contexts.handles.forM (alter · change)).run session =
      .ok () { session with contexts := session.contexts.mapLive change } := by
  have hwalk := forM_run
    (fun session handle => ∃ context, session.contexts.get? handle = some context)
    (fun session handle => { session with contexts := session.contexts.modify handle change })
    (fun ⟨_, hget⟩ => alter_run hget change)
    (fun {session item later} hne _ ⟨context, hget⟩ =>
      ⟨context, by rw [get?_modify, if_neg hne, hget]⟩)
    session.contexts.handles session session.contexts.nodup_live
    fun handle hhandle => mem_handles.mp hhandle
  rw [hwalk, foldl_contexts (fun table handle => table.modify handle change),
    foldl_modify_handles]

/-! ## Folding fibers -/

/-- Contexts that are taken out are handed out, each that was there. -/
theorem takeOut_run : ∀ {entries : List (Handle × Context α)} {session : Session α},
    (entries.map (·.1)).Nodup →
    (∀ entry ∈ entries, session.contexts.get? entry.1 = some entry.2) →
    (takeOut (entries.map (·.1))).run session = .ok (entries.map (·.2)) { session with
      contexts := entries.foldl (fun table entry => table.release entry.1) session.contexts } := by
  intro entries
  induction entries with
  | nil => intro session _ _; rfl
  | cons entry entries ih =>
      intro session hnodup hget
      obtain ⟨hfirst, hrest⟩ := List.nodup_cons.mp hnodup
      have hlater : ∀ later ∈ entries,
          (session.contexts.release entry.1).get? later.1 = some later.2 := by
        intro later hmem
        rw [get?_release, if_neg ?_]
        · exact hget later (List.mem_cons_of_mem _ hmem)
        · exact fun heq => hfirst (List.mem_map.mpr ⟨later, hmem, heq.symm⟩)
      let released : Session α :=
        { session with contexts := session.contexts.release entry.1 }
      have hothers := ih hrest (show ∀ later ∈ entries,
        released.contexts.get? later.1 = some later.2 from hlater)
      rw [List.map_cons, takeOut, run_bind (get_run session), hget entry List.mem_cons_self]
      show (modify _ >>= fun _ => takeOut (entries.map (·.1)) >>= fun others =>
        return entry.2 :: others : Stepwise α _).run session = _
      rw [run_bind (modify_run _ session), run_bind hothers]
      rfl

variable [Amount α]

theorem foldGroup_run {thread : UInt64} {fibers : List (Handle × Context α)}
    (h : session.contexts.fibers thread = fibers) :
    (foldGroup (fibers.map (·.1))).run session =
      .ok () { session with contexts := session.contexts.foldThread thread } := by
  have hnodup := session.contexts.nodup_fibers thread
  have hget : ∀ entry ∈ fibers, session.contexts.get? entry.1 = some entry.2 := by
    intro entry hentry
    exact (within_eq_some.mp (mem_fibers.mp (h ▸ hentry))).1
  unfold ContextTable.foldThread
  rw [h] at hnodup ⊢
  match fibers with
  | [] => rfl
  | [first] =>
    show EStateM.Result.ok () session = .ok () { session with
      contexts := session.contexts.modify first.1 fun context => context }
    rw [modify_self]
  | first :: second :: rest =>
    obtain ⟨hfirst, hrest⟩ := List.nodup_cons.mp hnodup
    have hkept : ((second :: rest).foldl (fun table entry => table.release entry.1)
        session.contexts).get? first.1 = some first.2 := by
      rw [(foldl_release _ _).2, if_neg hfirst]
      exact hget first List.mem_cons_self
    have htaken := takeOut_run hrest fun entry hentry =>
      hget entry (List.mem_cons_of_mem _ hentry)
    show (takeOut ((second :: rest).map (·.1)) >>= fun others => alter first.1 fun context =>
      others.foldl Context.merge context).run session = _
    rw [run_bind htaken]
    refine Eq.trans (alter_run (show ContextTable.get? _ first.1 = some first.2 from hkept) _) ?_
    simp only [List.foldl_map]

theorem mergeFibers_run (h : session.phase.isActive = false) :
    (mergeFibers : Stepwise α Unit).run session =
      .ok () { session with contexts := session.contexts.foldFibers } := by
  have hwalk := forM_run
    (fun now thread => now.contexts.fibers thread = session.contexts.fibers thread)
    (fun now thread => { now with contexts := now.contexts.foldThread thread })
    (fun hfibers => foldGroup_run hfibers)
    (fun {now thread later} hne _ hlater => (fibers_congr (size_foldThread now.contexts thread)
      (within_foldThread_other hne.symm)).trans hlater)
    session.contexts.threads session (nodup_eraseDups _) fun _ _ => rfl
  unfold mergeFibers
  rw [run_bind (get_run session), h]
  refine hwalk.trans ?_
  rw [foldl_contexts ContextTable.foldThread]
  rfl

/-! ## Activity -/

theorem activate_run (session : Session α) (key : ContextKey) (now : α) :
    (activate key now).run session =
      .ok (session.contexts.activate key now session.filter
          session.config.initialStackCapacity).2
        { session with contexts := (session.contexts.activate key now session.filter
          session.config.initialStackCapacity).1 } := rfl

theorem unwind_run (hexact : session.contexts.Exact) (now : α) {handle : Handle}
    {context : Context α} (hget : session.contexts.get? handle = some context) :
    (unwind now handle).run session =
      .ok () { session with contexts := session.unwind now session.contexts handle } := by
  have hactivated := hexact.activate (attended_true _) (passes_true now) context.key
    session.filter session.config.initialStackCapacity fun _ _ => trivial
  obtain ⟨later, hlater, -⟩ := hactivated.keeps _ _ hget
  unfold unwind Session.unwind
  rw [run_bind (fetch_run hget), run_bind (activate_run session context.key now), hget,
    alter_run hlater]

theorem unwindAll_run (hexact : session.contexts.Exact) (now : α) :
    (session.contexts.handles.forM (unwind now)).run session = .ok () { session with
      contexts := session.contexts.handles.foldl (session.unwind now) session.contexts } := by
  have hkeep : ∀ {session : Session α} {handle later : Handle}, handle ≠ later →
      (session.contexts.Exact ∧ ∃ context, session.contexts.get? handle = some context) →
      (session.contexts.Exact ∧ ∃ context, session.contexts.get? later = some context) →
      (session.unwind now session.contexts handle).Exact ∧
        ∃ context, (session.unwind now session.contexts handle).get? later = some context := by
    intro session handle later _ ⟨hexact, _⟩ ⟨_, context, hget⟩
    obtain ⟨hdone, hkeeps, -⟩ := session.attended_unwind hexact (attended_true _) now
      (passes_true now) (fun _ => trivial) handle
    obtain ⟨found, hfound, -⟩ := hkeeps _ _ hget
    exact ⟨hdone, found, hfound⟩
  have hwalk := forM_run
    (fun session handle => session.contexts.Exact ∧
      ∃ context, session.contexts.get? handle = some context)
    (fun session handle => { session with contexts := session.unwind now session.contexts handle })
    (fun ⟨hexact, _, hget⟩ => unwind_run hexact now hget) hkeep
    session.contexts.handles session session.contexts.nodup_live
    fun handle hhandle => ⟨hexact, mem_handles.mp hhandle⟩
  have hfold : ∀ (handles : List Handle) (session : Session α),
      handles.foldl (fun session handle =>
          { session with contexts := session.unwind now session.contexts handle }) session =
        { session with contexts := handles.foldl (session.unwind now) session.contexts } := by
    intro handles
    induction handles with
    | nil => intro session; rfl
    | cons handle handles ih => intro session; exact ih _
  rw [hwalk, hfold]

/-! ## Operations -/

omit [Amount α] in
theorem pause_run (h : session.phase = .running) (now : α) :
    (pause now).run session = .ok () { session with
      contexts := session.contexts.mapLive (·.pause now), phase := .paused } := by
  unfold pause
  rw [run_bind (get_run session), h]
  dsimp only
  rw [run_bind (get_run session), run_bind (forM_alter_run session _)]
  rfl

theorem resume_run (h : session.phase = .paused) (now : α) :
    (resume now).run session = .ok () { session with
      contexts := session.contexts.mapLive (·.resume now), phase := .running } := by
  unfold resume
  rw [run_bind (get_run session), h]
  dsimp only
  rw [run_bind (get_run session), run_bind (forM_alter_run session _)]
  rfl

theorem stop_run (hactive : session.phase.isActive = true) (hexact : session.contexts.Exact)
    (now : α) :
    ∃ stopped, session.stop now = .ok stopped ∧ (stop now).run session = .ok () stopped := by
  let stopped : Session α := { session with
    contexts :=
      (session.contexts.handles.foldl (session.unwind now) session.contexts).resetLast
    phase := .finished }
  unfold stop Session.stop
  rw [if_pos hactive, run_bind (get_run session), if_pos hactive]
  refine ⟨_, rfl, ?_⟩
  rw [run_bind (get_run session), run_bind (unwindAll_run hexact now),
    run_bind (modify_run _ _), run_bind (get_run _)]
  show (if session.config.mergeFibers then mergeFibers else return ()).run stopped = _
  split
  · exact mergeFibers_run rfl
  · rfl

theorem handle_run (hexact : session.phase.isActive = true → session.contexts.Exact)
    (event : Event α) : (handle event).run session = .ok () (session.handle event) := by
  unfold handle Session.handle
  rw [run_bind (get_run session)]
  split
  · next hactive =>
      have hactivated := (hexact hactive).activate (attended_true _) (passes_true event.sample)
        ⟨event.thread, event.fiber⟩ session.filter session.config.initialStackCapacity
        fun _ _ => trivial
      obtain ⟨context, hget, -⟩ := hactivated.found
      rw [run_bind (activate_run session _ _), run_bind (get_run _)]
      exact alter_run hget _
  · rfl

end Stepwise

namespace Session

open Stepwise

variable {α : Type} [Amount α] {session : Session α}

/-- An operation comes to what it is said to come to, or it is refused before its first step. -/
theorem carry_eq (hexact : session.phase.isActive = true → session.contexts.Exact)
    (operation : Operation α) :
    session.carry operation =
      match session.perform operation with
      | .ok next => (next, none)
      | .error error => (session, some error) := by
  have hdone : ∀ {next : Session α}, session.perform operation = .ok next →
      (Stepwise.perform operation).run session = .ok () next →
      session.carry operation =
        match session.perform operation with
        | .ok next => (next, none)
        | .error error => (session, some error) := by
    intro next hperform hrun
    rw [carry, hrun, hperform]
  obtain ⟨config, filter, exclusions, contexts, phase⟩ := session
  cases operation with
  | setMeasureMode mode => cases phase <;> rfl
  | excludeMethod method => cases phase <;> rfl
  | setThreadFilter filter => cases phase <;> rfl
  | start now => cases phase <;> rfl
  | pause now =>
      cases phase with
      | running => exact hdone rfl (pause_run rfl now)
      | idle | paused | finished => rfl
  | resume now =>
      cases phase with
      | paused => exact hdone rfl (resume_run rfl now)
      | idle | running | finished => rfl
  | stop now =>
      cases hactive : phase.isActive with
      | true =>
          obtain ⟨stopped, hstop, hrun⟩ := stop_run hactive (hexact hactive) now
          exact hdone hstop hrun
      | false => cases phase <;> first | rfl | cases hactive
  | event event => exact hdone rfl (handle_run hexact event)
  | mergeFibers =>
      cases hactive : phase.isActive with
      | true => cases phase <;> first | rfl | cases hactive
      | false =>
          refine hdone ?_ (mergeFibers_run hactive)
          cases phase <;> first | rfl | cases hactive
  | teardown => rfl

/-- So a run that performs its operations step by step comes to the same session. -/
theorem carry_fst (hexact : session.phase.isActive = true → session.contexts.Exact)
    (operation : Operation α) : (session.carry operation).1 = session.after operation := by
  rw [carry_eq hexact, after]
  cases session.perform operation with
  | ok next => rfl
  | error error => rfl

end Session

end CallLedger
