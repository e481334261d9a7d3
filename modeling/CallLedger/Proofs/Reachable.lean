import CallLedger.Proofs.Laws
import CallLedger.Proofs.Operations
import CallLedger.Proofs.Tables
import CallLedger.Dump.Load

/-!
# Reachable sessions

A session comes about by being made, by any operation, and by loading the dump
of a session that came about before. A law that recording and merging keep in
every context (`Context.Law`) and that a dump gives back holds in every context
of every reachable session (`Reachable.lawful`).

Two facts about the life of a session carry this. While it runs, its exclusions
are fixed; before, it has no contexts that a new exclusion could put in the
wrong. And outside a run no call is open, for ending a run closes them all, so
contexts are only ever merged when nothing is open.
-/

namespace CallLedger.Session

variable {α : Type}

/-- What can come about when dumps are made and loaded in certain phases. -/
inductive Reachable [Amount α] (dumps : Phase → Prop) : Session α → Prop
  | made {config : Config} {session : Session α} (hmade : ofConfig config = .ok session) :
      Reachable dumps session
  | after {session : Session α} (h : Reachable dumps session) (operation : Operation α) :
      Reachable dumps (session.after operation)
  | loaded {session loaded : Session α} (h : Reachable dumps session)
      (hphase : dumps session.phase) (hload : ofDump session.dump = .ok loaded) :
      Reachable dumps loaded

/-- The session that the default configuration makes. -/
def unconfigured [Amount α] : Session α :=
  ⟨.default, Config.default.threadFilter, .empty, .empty, .idle⟩

theorem reachable_unconfigured [Amount α] (dumps : Phase → Prop) :
    Reachable dumps (unconfigured : Session α) :=
  .made (show ofConfig Config.default = .ok unconfigured from rfl)

theorem Reachable.run [Amount α] {dumps : Phase → Prop} :
    ∀ (operations : List (Operation α)) {session : Session α}, Reachable dumps session →
      Reachable dumps (session.run operations) := by
  intro operations
  induction operations with
  | nil => intro session h; exact h
  | cons operation operations ih => intro session h; exact ih (h.after operation)

/-- A law holds in every context, under the exclusions that the contexts were
recorded with, and nothing is open outside a run. -/
structure Lawful (laws : Exclusions → Context α → Prop) (excluded : Exclusions)
    (session : Session α) : Prop where
  exclusions : session.phase ≠ .finished → session.exclusions = excluded
  contexts : session.contexts.Everywhere fun _ => laws excluded
  settled : session.phase.isActive = false →
    session.contexts.Everywhere fun _ context => context.stack.frames = []
  unused : session.phase = .idle → session.contexts = .empty

theorem frames_modifyTop {stack : Stack α} {change : Frame α → Frame α}
    (h : stack.frames = []) : (stack.modifyTop change).frames = [] := by
  unfold Stack.modifyTop
  rw [h]
  exact h

variable [Amount α] {exclusions : Exclusions}

theorem steady_of_law {law : Context α → Prop} (h : Context.Law exclusions law) :
    ContextTable.Steady fun _ => law where
  switchIn now hc := h.switchIn now hc
  switchOut now hc := h.switchOut now hc
  fresh _ := h.fresh

/-! ## Ending a run -/

theorem Everywhere.unwind {law : Handle → Context α → Prop} {table : ContextTable α}
    (h : table.Everywhere law) (hlaw : ContextTable.Steady law) (session : Session α) (now : α)
    (handle : Nat) {after : Handle → Context α → Prop}
    (hafter : ∀ {other : Nat} {context : Context α}, law other context →
      other ≠ handle → after other context)
    (hunwind : ∀ {context : Context α}, law handle context →
      after handle (context.unwind now)) :
    (session.unwind now table handle).Everywhere after := by
  unfold Session.unwind
  cases hget : table.get? handle with
  | none =>
      intro other context hother
      refine hafter (h other context hother) fun heq => ?_
      rw [heq, hget] at hother
      cases hother
  | some context =>
      have hactive := h.activate hlaw context.key now session.filter
        session.config.initialStackCapacity
      intro other found hfound
      simp only [] at hfound
      rw [ContextTable.get?_modify] at hfound
      split at hfound
      · next heq =>
          obtain ⟨before, hbefore, rfl⟩ := Option.map_eq_some_iff.mp hfound
          subst heq
          exact hunwind (hactive _ _ hbefore)
      · next hne => exact hafter (hactive _ _ hfound) fun heq => hne heq.symm

theorem Everywhere.unwindAll {law : Context α → Prop} (hlaw : Context.Law exclusions law)
    (session : Session α) (now : α) : ∀ (handles : List Handle) {table : ContextTable α},
      (table.Everywhere fun _ => law) →
      (handles.foldl (session.unwind now) table).Everywhere fun _ => law := by
  intro handles
  induction handles with
  | nil => intro table h; exact h
  | cons handle handles ih =>
      intro table h
      refine ih (Everywhere.unwind h (steady_of_law hlaw) session now handle ?_ ?_)
      · exact fun hc _ => hc
      · exact fun hc => hlaw.unwind now hc

/-- When every context has been unwound, nothing is open. -/
theorem settled_unwindAll (session : Session α) (now : α) :
    ∀ (handles : List Handle) {table : ContextTable α},
      (table.Everywhere fun handle context => context.stack.frames ≠ [] → handle ∈ handles) →
      (handles.foldl (session.unwind now) table).Everywhere
        fun _ context => context.stack.frames = [] := by
  have hsteady : ∀ handles : List Handle, ContextTable.Steady
      fun handle (context : Context α) => context.stack.frames ≠ [] → handle ∈ handles := by
    intro handles
    refine ⟨fun now hc hopen => hc fun hnil => hopen ?_,
      fun now hc hopen => hc fun hnil => hopen ?_, fun _ _ _ _ hopen => absurd rfl hopen⟩
    · exact frames_modifyTop hnil
    · exact frames_modifyTop hnil
  intro handles
  induction handles with
  | nil =>
      intro table h handle context hget
      by_contra hopen
      exact List.not_mem_nil (h handle context hget hopen)
  | cons handle handles ih =>
      intro table h
      refine ih (Everywhere.unwind h (hsteady _) session now handle ?_ ?_)
      · intro other context hc hne hopen
        exact (List.mem_cons.mp (hc hopen)).resolve_left hne
      · intro context _ hopen
        exact absurd (context.frames_unwind now) hopen

/-! ## One operation -/

variable {laws : Exclusions → Context α → Prop} {session : Session α}

/-- What has been settled may be folded. -/
theorem everywhere_foldFibers {law : Context α → Prop} (hlaw : Context.Law exclusions law)
    {table : ContextTable α}
    (h : table.Everywhere fun _ context => law context ∧ context.stack.frames = []) :
    table.foldFibers.Everywhere fun _ context => law context ∧ context.stack.frames = [] :=
  h.foldFibers fun hc ho => ⟨hlaw.merge hc.1 ho.1 hc.2 ho.2, hc.2⟩

theorem Lawful.stop (h : Lawful laws exclusions session)
    (hlaw : Context.Law exclusions (laws exclusions)) (now : α) :
    Lawful laws exclusions (session.after (.stop now)) := by
  rw [after_stop]
  split
  · have hunwound := Everywhere.unwindAll hlaw session now session.contexts.handles h.contexts
    have hsettled := settled_unwindAll session now session.contexts.handles
      fun handle context hget _ => ContextTable.mem_handles.mpr ⟨context, hget⟩
    have hboth : ContextTable.Everywhere
        (session.contexts.handles.foldl (session.unwind now) session.contexts).resetLast
        fun _ context => laws exclusions context ∧ context.stack.frames = [] :=
      fun handle context hget => ⟨hunwound handle context hget, hsettled handle context hget⟩
    have hfinal : ContextTable.Everywhere (if session.config.mergeFibers then
        (session.contexts.handles.foldl (session.unwind now) session.contexts).resetLast.foldFibers
        else (session.contexts.handles.foldl (session.unwind now) session.contexts).resetLast)
        fun _ context => laws exclusions context ∧ context.stack.frames = [] := by
      split
      · exact everywhere_foldFibers hlaw hboth
      · exact hboth
    refine ⟨fun hphase => absurd rfl hphase, ?_, ?_, fun hphase => ?_⟩
    · exact fun handle context hget => (hfinal handle context hget).1
    · exact fun _ handle context hget => (hfinal handle context hget).2
    · cases hphase
  · exact h

/-- What recording keeps, an event keeps. -/
theorem lasting_record {law : Context α → Prop}
    (hlaw : Context.Lasting session.exclusions law) (event : Event α) {context : Context α}
    (hc : law context) : law (session.record event context) := by
  unfold Session.record
  split
  · split
    · exact hlaw.called event _ hc
    · exact hlaw.called event _ hc
    · exact hlaw.returned _ _ hc
    · exact hlaw.returned _ _ hc
    · exact hlaw.moved event hc
    · split
      · exact hlaw.allocated event hc
      · exact hc
  · exact hc

theorem Lawful.handle (h : Lawful laws exclusions session)
    (hlaw : Context.Law exclusions (laws exclusions)) (event : Event α) :
    Lawful laws exclusions (session.handle event) := by
  unfold Session.handle
  split
  · next hactive =>
      have hactivated := h.contexts.activate (steady_of_law hlaw) ⟨event.thread, event.fiber⟩
        event.sample session.filter session.config.initialStackCapacity
      refine ⟨h.exclusions, ?_, fun hidle => ?_, fun hidle => ?_⟩
      · refine hactivated.modify _ fun hget => lasting_record ?_ event (hactivated _ _ hget)
        rw [h.exclusions (not_finished hactive)]
        exact hlaw.toLasting
      · rw [hidle] at hactive
        cases hactive
      · change session.phase = .idle at hidle
        rw [hidle] at hactive
        cases hactive
  · exact h

theorem Lawful.mergeFibers (h : Lawful laws exclusions session)
    (hlaw : Context.Law exclusions (laws exclusions)) :
    Lawful laws exclusions (session.after .mergeFibers) := by
  rw [after_mergeFibers]
  split
  · exact h
  · next hinactive =>
      have hactive : session.phase.isActive = false := by simpa using hinactive
      have hfolded := everywhere_foldFibers hlaw fun handle context hget =>
        ⟨h.contexts handle context hget, h.settled hactive handle context hget⟩
      refine ⟨h.exclusions, fun handle context hget => (hfolded handle context hget).1,
        fun _ handle context hget => (hfolded handle context hget).2, fun hidle => ?_⟩
      show session.contexts.foldFibers = _
      rw [h.unused hidle]
      rfl

omit [Amount α] in
/-- A pause or its end, which all contexts see. -/
theorem Lawful.mapLive (h : Lawful laws exclusions session)
    (hactive : session.phase.isActive = true) {phase : Phase} (hphase : phase.isActive = true)
    {change : Context α → Context α}
    (hchange : ∀ {context : Context α}, laws exclusions context →
      laws exclusions (change context)) :
    Lawful laws exclusions
      { session with contexts := session.contexts.mapLive change, phase := phase } := by
  refine ⟨fun _ => h.exclusions fun hfinished => ?_, h.contexts.mapLive hchange,
    fun hsettled => ?_, fun hidle => ?_⟩
  · rw [hfinished] at hactive
    cases hactive
  · exact absurd (hsettled.symm.trans hphase) Bool.false_ne_true
  · change phase = .idle at hidle
    rw [hidle] at hphase
    cases hphase

theorem Lawful.after (h : Lawful laws exclusions session)
    (hlaw : ∀ exclusions, Context.Law exclusions (laws exclusions)) (operation : Operation α) :
    ∃ excluded, Lawful laws excluded (session.after operation) := by
  cases operation with
  | setMeasureMode mode =>
      rw [after_setMeasureMode]
      split
      · exact ⟨exclusions, h.exclusions, h.contexts, h.settled, h.unused⟩
      · exact ⟨exclusions, h⟩
  | excludeMethod method =>
      rw [after_excludeMethod]
      split
      · next hidle =>
          -- nothing has been recorded under the exclusions so far
          refine ⟨session.exclusions.insert method, fun _ => rfl, ?_, h.settled, h.unused⟩
          rw [h.unused hidle]
          exact ContextTable.everywhere_empty
      · exact ⟨exclusions, h⟩
  | setThreadFilter filter =>
      rw [after_setThreadFilter]
      split
      · exact ⟨exclusions, h.exclusions, h.contexts, h.settled, h.unused⟩
      · exact ⟨exclusions, h⟩
  | start now =>
      rw [after_start]
      split
      · next hidle =>
          exact ⟨exclusions, fun _ => h.exclusions (by rw [hidle]; decide), h.contexts,
            nofun, nofun⟩
      · exact ⟨exclusions, h⟩
  | pause now =>
      rw [after_pause]
      split
      · next hrunning =>
          exact ⟨exclusions, h.mapLive (by rw [hrunning]; rfl) rfl
            fun hc => (hlaw exclusions).pause now hc⟩
      · exact ⟨exclusions, h⟩
  | resume now =>
      rw [after_resume]
      split
      · next hpaused =>
          exact ⟨exclusions, h.mapLive (by rw [hpaused]; rfl) rfl
            fun hc => (hlaw exclusions).resume now hc⟩
      · exact ⟨exclusions, h⟩
  | stop now => exact ⟨exclusions, h.stop (hlaw exclusions) now⟩
  | event event => exact ⟨exclusions, h.handle (hlaw exclusions) event⟩
  | mergeFibers => exact ⟨exclusions, h.mergeFibers (hlaw exclusions)⟩
  | teardown =>
      exact ⟨exclusions, fun hphase => absurd rfl hphase, ContextTable.everywhere_releaseAll,
        fun _ => ContextTable.everywhere_releaseAll, nofun⟩

/-! ## Every session -/

/-- A dump gives back a context to which the law applies again. -/
def Survives (laws : Exclusions → Context α → Prop) (dumps : Phase → Prop) : Prop :=
  ∀ (phase : Phase) {exclusions : Exclusions} {context loaded : Context α}, dumps phase →
    laws exclusions context → (phase.isActive = false → context.stack.frames = []) →
    (DumpedContext.ofContext context).toContext = .ok loaded →
    laws exclusions loaded ∧ loaded.stack.frames = []

/-- What comes out of a traversal that succeeds came in piece by piece. -/
theorem forall₂_of_mapM {β γ ε : Type} {f : β → Except ε γ} : ∀ {inputs : List β}
    {outputs : List γ}, inputs.mapM f = .ok outputs →
      List.Forall₂ (fun input output => f input = .ok output) inputs outputs := by
  intro inputs
  induction inputs with
  | nil =>
      intro outputs h
      rw [List.mapM_nil] at h
      cases h
      exact .nil
  | cons first inputs ih =>
      intro outputs h
      rw [List.mapM_cons] at h
      cases hfirst : f first with
      | error error =>
          rw [hfirst] at h
          cases h
      | ok value =>
          rw [hfirst] at h
          change (inputs.mapM f >>= fun values => Except.ok (value :: values)) = _ at h
          cases hrest : inputs.mapM f with
          | error error =>
              rw [hrest] at h
              cases h
          | ok values =>
              rw [hrest] at h
              cases h
              exact .cons hfirst (ih hrest)

theorem mem_of_mapM {β γ ε : Type} {f : β → Except ε γ} {inputs : List β} {outputs : List γ}
    (h : inputs.mapM f = .ok outputs) :
    ∀ output ∈ outputs, ∃ input ∈ inputs, f input = .ok output := by
  have hpieces := forall₂_of_mapM h
  clear h
  induction hpieces with
  | nil => nofun
  | cons hfirst _ ih =>
      intro output hmem
      rcases List.mem_cons.mp hmem with rfl | hlater
      · exact ⟨_, List.mem_cons_self, hfirst⟩
      · obtain ⟨input, hinput, heq⟩ := ih output hlater
        exact ⟨input, List.mem_cons_of_mem _ hinput, heq⟩

theorem map_of_mapM {β γ δ ε : Type} {f : β → Except ε γ} {before : β → δ} {after : γ → δ}
    (hsame : ∀ {input : β} {output : γ}, f input = .ok output → after output = before input)
    {inputs : List β} {outputs : List γ} (h : inputs.mapM f = .ok outputs) :
    outputs.map after = inputs.map before := by
  have hpieces := forall₂_of_mapM h
  clear h
  induction hpieces with
  | nil => rfl
  | cons hfirst _ ih => rw [List.map_cons, List.map_cons, hsame hfirst, ih]

theorem Lawful.loaded (h : Lawful laws exclusions session) {dumps : Phase → Prop}
    (hsurvives : Survives laws dumps) (hphase : dumps session.phase) {loaded : Session α}
    (hload : ofDump session.dump = .ok loaded) : Lawful laws exclusions loaded := by
  unfold ofDump at hload
  rw [if_pos (show session.dump.version = dumpVersion from rfl)] at hload
  cases hcontexts : session.dump.contexts.mapM DumpedContext.toContext with
  | error error =>
      rw [hcontexts] at hload
      cases hload
  | ok contexts =>
      rw [hcontexts] at hload
      cases hload
      have hloaded : ∀ context ∈ contexts,
          laws exclusions context ∧ context.stack.frames = [] := by
        intro context hmem
        obtain ⟨dumped, hdumped, hok⟩ := mem_of_mapM hcontexts context hmem
        obtain ⟨⟨handle, before⟩, hentry, rfl⟩ := List.mem_map.mp hdumped
        have hget := ContextTable.mem_live.mp (List.mem_filter.mp hentry).1
        exact hsurvives _ hphase (h.contexts _ _ hget)
          (fun hactive => h.settled hactive _ _ hget) hok
      have hboth := ContextTable.everywhere_empty.foldl_insert hloaded
      exact ⟨fun hphase => absurd rfl hphase, fun handle context hget => (hboth _ _ hget).1,
        fun _ handle context hget => (hboth _ _ hget).2, nofun⟩

theorem Reachable.lawful {dumps : Phase → Prop}
    (hlaw : ∀ exclusions, Context.Law exclusions (laws exclusions))
    (hsurvives : Survives laws dumps) (h : Reachable dumps session) :
    ∃ excluded, Lawful laws excluded session := by
  induction h with
  | @made config session hmade =>
      unfold ofConfig at hmade
      split at hmade
      · cases hmade
        exact ⟨.empty, fun _ => rfl, ContextTable.everywhere_empty,
          fun _ => ContextTable.everywhere_empty, fun _ => rfl⟩
      · cases hmade
  | @after session h operation ih =>
      obtain ⟨excluded, hlawful⟩ := ih
      exact hlawful.after hlaw operation
  | loaded h hphase hload ih =>
      obtain ⟨excluded, hlawful⟩ := ih
      exact ⟨excluded, hlawful.loaded hsurvives hphase hload⟩

end CallLedger.Session
