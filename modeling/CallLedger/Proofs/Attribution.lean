import CallLedger.Proofs.Timeline
import CallLedger.Proofs.Moments

/-!
# Where the time of a run goes

A run is a timeline. Between two operations some time passes, of whatever sign. It is
spent, if the run is not paused, on the innermost open call of every context: as
self time where the context is the active one, as waiting time elsewhere. And it is
inclusive time of every node and every method that has an open call. When the run
is over, each node and each record shows the sum of these times, and nothing else
(`Session.Reachable.attributed`), however calls and returns, pauses and changes of
the active context were interleaved.

The invariant is that the account of every context is the time spent so far
(`Timed`). Time passes on the right lines (`Clocked.later`), and the operation that
comes then does not touch the account.
-/

namespace CallLedger

namespace Session

open ContextTable

variable {α : Type}

/-- The steps of a run: the session after every operation but the last, and the time to the
next one. -/
def steps [Amount α] : Session α → (now : α) → List (Moment α) → (stop : α) →
    List (Session α × α)
  | session, now, [], stop => [(session, stop - now)]
  | session, now, moment :: later, stop =>
    (session, moment.sample - now) ::
      steps (session.after moment.operation) moment.sample later stop

/-- The open invocations of a context. -/
def framesOf (session : Session α) (handle : Handle) : List (Frame α) :=
  ((session.contexts.get? handle).map (·.stack.frames)).getD []

variable [ExactAmount α]

/-- The time of the steps that were running, not paused, while something held. -/
def timeWhile (steps : List (Session α × α)) (holds : Session α → Bool) : α :=
  ((steps.filter fun step => step.1.phase = .running && holds step.1).map (·.2)).sum

/-- A context shows where the time of the steps went. -/
structure Attributed (steps : List (Session α × α)) (handle : Handle) (context : Context α) :
    Prop where
  selfTime : ∀ {id : NodeId} {node : Node α}, context.profile.tree.node? id = some node →
    node.measurement.selfTime = timeWhile steps fun session =>
      session.contexts.last = some handle && (session.framesOf handle).head?.any (·.node = id)
  waitTime : ∀ {id : NodeId} {node : Node α}, context.profile.tree.node? id = some node →
    node.measurement.waitTime = timeWhile steps fun session =>
      session.contexts.last ≠ some handle && (session.framesOf handle).head?.any (·.node = id)
  totalTime : ∀ {id : NodeId} {node : Node α}, context.profile.tree.node? id = some node →
    node.measurement.totalTime = timeWhile steps fun session =>
      (session.framesOf handle).any (·.node = id)
  methodTime : ∀ {id : MethodId} {record : MethodRecord α},
    context.profile.methods.record? id = some record →
      record.measurement.totalTime = timeWhile steps fun session =>
        (session.framesOf handle).any (·.method = id)

/-! ## Time spent so far -/

theorem timeWhile_append (steps more : List (Session α × α)) (holds : Session α → Bool) :
    timeWhile (steps ++ more) holds = timeWhile steps holds + timeWhile more holds := by
  rw [timeWhile, List.filter_append, List.map_append, List.sum_append]
  rfl

theorem timeWhile_single (session : Session α) (time : α) (holds : Session α → Bool) :
    timeWhile [(session, time)] holds =
      if session.phase = .running && holds session then time else 0 := by
  rw [timeWhile, List.filter_cons]
  split
  · exact List.sum_singleton
  · rfl

/-- What a context has spent on every line. -/
def spent (steps : List (Session α × α)) (handle : Handle) : Line → α := fun line =>
  timeWhile steps fun session =>
    accrues (session.contexts.last = some handle) (session.framesOf handle) line

theorem spent_append (steps more : List (Session α × α)) (handle : Handle) (line : Line) :
    spent (steps ++ more) handle line = spent steps handle line + spent more handle line :=
  timeWhile_append steps more _

/-- A context that was not there has spent nothing. -/
theorem spent_of_absent {steps : List (Session α × α)} {handle : Nat}
    (h : ∀ step ∈ steps, step.1.contexts.get? handle = none) : spent steps handle = 0 := by
  funext line
  show List.sum _ = 0
  rw [List.filter_eq_nil_iff.mpr]
  · rfl
  · intro step hstep
    have hframes : step.1.framesOf handle = [] := by
      rw [framesOf, h step hstep]
      rfl
    show ¬ (_ && accrues _ (step.1.framesOf handle) line) = true
    rw [hframes, accrues_nil, Bool.and_false]
    exact Bool.false_ne_true

/-! ## The invariant of a run -/

/-- The account of a context is the time it has spent. -/
def clockLaw (excluded : Exclusions) (now : α) (taken : List (Session α × α)) (paused : Bool) :
    Bool → Handle → Context α → Prop := fun active handle context =>
  context.Clocked excluded active now (spent taken handle) ∧ Pauses paused context.stack.frames

/-- In a run, at a moment, the account of every context is the time it has spent. -/
structure Timed (excluded : Exclusions) (now : α) (taken : List (Session α × α))
    (session : Session α) : Prop where
  active : session.phase.isActive = true
  fibers : session.config.mergeFibers = false
  exclusions : session.exclusions = excluded
  exact : session.contexts.Exact
  seen : ∀ step ∈ taken, Keeps step.1.contexts session.contexts
  attended : session.contexts.Attended (clockLaw excluded now taken session.isPaused)

variable {excluded : Exclusions} {now : α} {taken : List (Session α × α)} {session : Session α}

theorem Timed.later (h : Timed excluded now taken session) (later : α) :
    Timed excluded later (taken ++ [(session, later - now)]) session := by
  refine ⟨h.active, h.fibers, h.exclusions, h.exact, fun step hstep => ?_, ?_⟩
  · rcases List.mem_append.mp hstep with hold | hnew
    · exact h.seen step hold
    · rw [List.mem_singleton.mp hnew]
      exact Keeps.refl _
  · intro handle context hget
    obtain ⟨hclocked, hpauses⟩ := h.attended handle context hget
    refine ⟨?_, hpauses⟩
    have hlater := hclocked.later hpauses later
    have hspent : spent (taken ++ [(session, later - now)]) handle = fun line =>
        spent taken handle line +
          if !session.isPaused && accrues (session.contexts.last = some handle)
            context.stack.frames line then later - now else 0 := by
      funext line
      have hrunning : decide (session.phase = .running) = !session.isPaused := by
        have hactive := h.active
        unfold isPaused
        cases hphase : session.phase with
        | idle => rw [hphase] at hactive; cases hactive
        | running => rfl
        | paused => rfl
        | finished => rw [hphase] at hactive; cases hactive
      rw [spent_append]
      refine congrArg (spent taken handle line + ·) ?_
      refine (timeWhile_single _ _ _).trans ?_
      rw [hrunning, framesOf, hget]
      rfl
    rw [hspent]
    exact hlater

/-- A context that is not there yet has spent nothing. -/
theorem Timed.absent (h : Timed excluded now taken session) {handle : Nat}
    (hnone : session.contexts.get? handle = none) : spent taken handle = 0 := by
  refine spent_of_absent fun step hstep => ?_
  refine Option.eq_none_iff_forall_ne_some.mpr fun context hget => ?_
  obtain ⟨later, hlater, -⟩ := h.seen step hstep handle context hget
  rw [hnone] at hlater
  cases hlater

/-! ## One operation -/

theorem clockLaw_passes (excluded : Exclusions) (now : α) (taken : List (Session α × α))
    (paused : Bool) : Passes (clockLaw excluded now taken paused) now where
  switchIn {handle context} h := by
    refine ⟨h.1.switchIn, Pauses.modifyTop fun top htop => ?_⟩
    rw [← h.2 top htop, Frame.switchIn]
    split
    · rfl
    · rfl
  switchOut h := ⟨h.1.switchOut, Pauses.modifyTop fun top htop => h.2 top htop⟩

/-- What is recorded at a moment does not touch the account. -/
theorem clockLaw_record (hexclusions : session.exclusions = excluded) (event : Event α)
    {handle : Nat} {context : Context α}
    (h : clockLaw excluded event.sample taken session.isPaused true handle context) :
    clockLaw excluded event.sample taken session.isPaused true handle
      (session.record event context) := by
  obtain ⟨hclocked, hpauses⟩ := h
  unfold Session.record
  rw [hexclusions]
  split
  · split
    · exact hclocked.called hpauses
    · exact hclocked.called hpauses
    · exact hclocked.returned hpauses
    · exact hclocked.returned hpauses
    · exact ⟨hclocked.moved event, Pauses.modifyTop fun top htop => hpauses top htop⟩
    · split
      · refine ⟨hclocked.allocated event, ?_⟩
        unfold Context.allocated
        split
        · split
          · exact hpauses
          · exact hpauses
        · exact hpauses
      · exact ⟨hclocked, hpauses⟩
  · exact ⟨hclocked, hpauses⟩

theorem Timed.event {event : Event α} (h : Timed excluded event.sample taken session) :
    Timed excluded event.sample taken (session.handle event) := by
  have hfresh : ∀ {handle : Nat} {key : ContextKey} {traced : Bool} {capacity : Nat},
      session.contexts.get? handle = none →
        clockLaw excluded event.sample taken session.isPaused false handle
          (.fresh key traced capacity) := by
    intro handle key traced capacity hnone
    refine ⟨?_, nofun⟩
    rw [h.absent hnone]
    exact Context.clocked_fresh _ _ _ _ _ _
  have hactivated : ∃ handle, Activated session.contexts (session.handle event).contexts
      (clockLaw excluded event.sample taken session.isPaused) ⟨event.thread, event.fiber⟩ handle :=
    activated_handle h.active h.exact h.attended event
      (clockLaw_passes excluded event.sample taken session.isPaused) (fun _ => hfresh)
      (fun hown _ => clockLaw_record h.exclusions event hown) fun hother _ => hother
  obtain ⟨handle, hactivated⟩ := hactivated
  rw [handle_eq h.active]
  exact ⟨h.active, h.fibers, h.exclusions, hactivated.exact,
    fun step hstep => (h.seen step hstep).trans hactivated.keeps, hactivated.attended⟩

theorem Timed.pause (h : Timed excluded now taken session) :
    Timed excluded now taken (session.after (.pause now)) := by
  rw [after_pause]
  split
  · obtain ⟨hexact, hkeeps⟩ := h.exact.mapLive (·.pause now) fun _ => rfl
    refine ⟨rfl, h.fibers, h.exclusions, hexact,
      fun step hstep => (h.seen step hstep).trans hkeeps, ?_⟩
    refine h.attended.mapLive fun hlaw => ⟨hlaw.1.pause, Pauses.modifyTop fun top _ => ?_⟩
    unfold Frame.pause
    split
    · rfl
    · next hsince => exact Option.isSome_of_eq_some hsince
  · exact h

theorem Timed.resume (h : Timed excluded now taken session) :
    Timed excluded now taken (session.after (.resume now)) := by
  rw [after_resume]
  split
  · obtain ⟨hexact, hkeeps⟩ := h.exact.mapLive (·.resume now) fun _ => rfl
    refine ⟨rfl, h.fibers, h.exclusions, hexact,
      fun step hstep => (h.seen step hstep).trans hkeeps, ?_⟩
    refine h.attended.mapLive fun hlaw => ⟨hlaw.1.resume, Pauses.modifyTop fun top _ => ?_⟩
    unfold Frame.unpause
    split
    · rfl
    · next hnone => rw [hnone]; rfl
  · exact h

theorem Timed.moment {moment : Moment α} (h : Timed excluded moment.sample taken session) :
    Timed excluded moment.sample taken (session.after moment.operation) := by
  cases moment with
  | event raised => exact Timed.event h
  | pause now => exact h.pause
  | resume now => exact h.resume

/-- When the run is over, nothing is due, and the account is what was charged. -/
theorem Timed.stop (h : Timed excluded now taken session) {handle : Nat} {context : Context α}
    (hget : (session.after (.stop now)).contexts.get? handle = some context) :
    context.profile.charged = spent taken handle := by
  have hunwind : ∀ {handle : Nat} {context : Context α},
      clockLaw excluded now taken session.isPaused true handle context →
        clockLaw excluded now taken session.isPaused true handle (context.unwind now) := by
    intro handle context hlaw
    refine ⟨hlaw.1.unwind, ?_⟩
    rw [context.frames_unwind]
    exact nofun
  obtain ⟨-, -, hattended⟩ := attended_unwindAll session now
    (clockLaw_passes excluded now taken session.isPaused) hunwind session.contexts.handles
    h.exact h.attended
  rw [contexts_stop h.active h.fibers] at hget
  obtain ⟨hclocked, -⟩ := hattended handle context hget
  have hframes := settled_unwindAll session now session.contexts.handles
    (fun handle context hget _ => ContextTable.mem_handles.mpr ⟨context, hget⟩)
    handle context hget
  rw [← hclocked.account, Context.account, hframes]
  exact (add_zero _).symm

/-! ## Whole runs -/

theorem Timed.stopped (stop : α) : ∀ (moments : List (Moment α)) {session : Session α} {now : α}
    {taken : List (Session α × α)}, Timed excluded now taken session →
      ∀ {handle : Nat} {context : Context α},
        (session.run (moments.map Moment.operation ++ [.stop stop])).contexts.get? handle =
          some context →
        context.profile.charged = spent (taken ++ steps session now moments stop) handle := by
  intro moments
  induction moments with
  | nil =>
      intro session now taken h handle context hget
      exact (h.later stop).stop hget
  | cons moment moments ih =>
      intro session now taken h handle context hget
      rw [steps, List.append_cons]
      exact ih (h.later moment.sample).moment hget

/-- In every run of every session that can come about, time goes where it was spent. -/
theorem Reachable.attributed {dumps : Phase → Prop} (h : Reachable dumps session)
    (hidle : session.phase = .idle) (hfibers : session.config.mergeFibers = false) (start : α)
    (moments : List (Moment α)) (stop : α) {handle : Handle} {context : Context α}
    (hget : (session.recorded start moments stop).contexts.get? handle = some context) :
    Attributed (steps (session.after (.start start)) start moments stop) handle context := by
  have htimed : Timed session.exclusions start [] (session.after (.start start)) := by
    rw [h.started hidle]
    exact ⟨rfl, hfibers, rfl, exact_empty, fun _ hstep => absurd hstep List.not_mem_nil,
      everywhere_empty⟩
  have hcharged := Timed.stopped stop moments htimed hget
  rw [List.nil_append] at hcharged
  refine ⟨fun {id node} hnode => ?_, fun {id node} hnode => ?_, fun {id node} hnode => ?_,
    fun {id record} hrecord => ?_⟩
  · rw [← CallTree.cost_eq hnode]
    exact congrFun hcharged (.selfTime id)
  · rw [← CallTree.cost_eq hnode]
    simp only [ne_eq, decide_not]
    exact congrFun hcharged (.waitTime id)
  · rw [← CallTree.cost_eq hnode]
    exact congrFun hcharged (.totalTime id)
  · rw [← Registry.timeOf_eq hrecord]
    exact congrFun hcharged (.methodTime id)

/-- A pause that begins and ends while the first of two threads waits. -/
theorem attributed_overlapping :
    ∃ context node,
      ((unconfigured : Session Int).recorded 0
        [.event (((Event.call ⟨.owner .plain, "A"⟩ "f").on 1 0).sampled 10),
          .event (((Event.call ⟨.owner .plain, "A"⟩ "g").on 2 0).sampled 20),
          .pause 25, .resume 40, .event ((Event.returned.on 1 0).sampled 50)]
        60).contexts.get? 0 = some context ∧
      context.profile.tree.node? 0 = some node ∧ node.measurement = ⟨10, 15, 25, 1⟩ ∧
      Attributed (steps ((unconfigured : Session Int).after (.start 0)) 0
        [.event (((Event.call ⟨.owner .plain, "A"⟩ "f").on 1 0).sampled 10),
          .event (((Event.call ⟨.owner .plain, "A"⟩ "g").on 2 0).sampled 20),
          .pause 25, .resume 40, .event ((Event.returned.on 1 0).sampled 50)] 60) 0 context := by
  generalize hmoments : ([_, _, _, _, _] : List (Moment Int)) = moments
  have hshown : ((((unconfigured : Session Int).recorded 0 moments 60).contexts.get? 0).bind
      fun context => (context.profile.tree.node? 0).map (·.measurement)) =
        some ⟨10, 15, 25, 1⟩ := by
    rw [← hmoments]
    decide +kernel
  obtain ⟨context, hcontext, hmap⟩ := Option.bind_eq_some_iff.mp hshown
  obtain ⟨node, hnode, hcost⟩ := Option.map_eq_some_iff.mp hmap
  exact ⟨context, node, hcontext, hnode, hcost,
    (reachable_unconfigured fun _ => True).attributed rfl rfl 0 moments 60 hcontext⟩

end Session

end CallLedger
