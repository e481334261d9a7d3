import CallLedger.Proofs.Attribution
import CallLedger.Proofs.Lumping

/-!
# What a context owes to the others

What else runs beside a context, and when, decides how the time of the context is
split into self time and waiting time. It decides nothing else. Two runs with the
same pauses and the same events of one context leave the same records and the same
nodes there, for everyone who does not tell the two times apart
(`Session.Reachable.reads_alike`): where amounts are exact, as long as waiting counts
as work (`Session.Reachable.independent`), and for any amounts, those of binary
floating point among them, apart from the two times.

To a context a run looks like the run in which nothing else happens
(`Session.Reachable.view_recorded`). An event of another context makes it wait or ends
its wait, which the view does not show, and whatever does concern the context
changes the view by what the view itself shows, alike in both runs (`Alike`).
-/

namespace CallLedger

variable {α : Type}

/-- Pauses concern every context, and an event the one that it is raised on. -/
def Moment.concerns (key : ContextKey) : Moment α → Bool
  | .event raised => raised.key = key
  | .pause _ | .resume _ => true

variable [Amount α] (reading : Reading α)

/-! ## The view of a table -/

namespace ContextTable

variable {table after : ContextTable α} {key : ContextKey}

/-- How the context of a key reads. -/
def view (table : ContextTable α) (key : ContextKey) : Option (Context α) :=
  ((table.find? key).bind table.get?).map (Context.read reading)

theorem Exact.view_of_get (h : table.Exact) {handle : Nat} {context : Context α}
    (hget : table.get? handle = some context) :
    table.view reading context.key = some (context.read reading) := by
  rw [view, h.find.mpr ⟨context, hget, rfl⟩, Option.bind_some, hget, Option.map_some]

theorem Exact.view_eq_some (h : table.Exact) {seen : Context α}
    (hview : table.view reading key = some seen) :
    ∃ (handle : Nat) (context : Context α), table.find? key = some handle ∧
      table.get? handle = some context ∧ context.key = key ∧ context.read reading = seen := by
  obtain ⟨context, hbind, hseen⟩ := Option.map_eq_some_iff.mp hview
  obtain ⟨handle, hfind, hget⟩ := Option.bind_eq_some_iff.mp hbind
  obtain ⟨found, hfound, hkey⟩ := h.find.mp hfind
  rw [hget] at hfound
  cases hfound
  exact ⟨handle, context, hfind, hget, hkey, hseen⟩

/-- Of one key there is only this to be seen. -/
def seen (key : ContextKey) (shown : Option (Context α)) : Bool → Handle → Context α → Prop :=
  fun _ _ context => context.key = key → some (context.read reading) = shown

theorem seen_passes (key : ContextKey) (shown : Option (Context α)) (now : α) :
    Passes (seen reading key shown) now where
  switchIn {handle context} h hkey := by
    rw [context.read_switchIn]
    exact h hkey
  switchOut {handle context} h hkey := by
    rw [context.read_switchOut]
    exact h hkey

theorem Exact.attended_seen (h : table.Exact) (key : ContextKey) :
    table.Attended (seen reading key (table.view reading key)) := by
  rintro handle context hget rfl
  exact (h.view_of_get reading hget).symm

/-- A table that keeps the contexts shows what is to be seen in it. -/
theorem Exact.view_kept (h : table.Exact) (hafter : after.Exact) (hkeeps : Keeps table after)
    {shown : Option (Context α)} (hshown : shown.isSome = (table.view reading key).isSome)
    (hall : after.Attended (seen reading key shown)) : after.view reading key = shown := by
  cases hview : after.view reading key with
  | some found =>
      obtain ⟨handle, context, -, hget, hkey, hfound⟩ := hafter.view_eq_some reading hview
      rw [← hfound]
      exact hall handle context hget hkey
  | none =>
      cases hbefore : table.view reading key with
      | none =>
          rw [hbefore] at hshown
          exact (Option.isSome_eq_false_iff.mp hshown |> Option.isNone_iff_eq_none.mp).symm
      | some before =>
          obtain ⟨handle, context, -, hget, rfl, -⟩ := h.view_eq_some reading hbefore
          obtain ⟨later, hlater, hkey⟩ := hkeeps _ _ hget
          rw [← hkey, hafter.view_of_get reading hlater] at hview
          cases hview

theorem Exact.view_mapLive (h : table.Exact) (key : ContextKey)
    {change : Context α → Context α} (hkey : ∀ context, (change context).key = context.key)
    (hchange : ∀ context, (change context).read reading = change (context.read reading)) :
    (table.mapLive change).view reading key = (table.view reading key).map change := by
  obtain ⟨hexact, hkeeps⟩ := h.mapLive change hkey
  refine h.view_kept reading hexact hkeeps Option.isSome_map ?_
  refine (h.attended_seen reading key).mapLive fun {_ _ context} hseen hsame => ?_
  rw [← hseen ((hkey context).symm.trans hsame), hchange, Option.map_some]

end ContextTable

/-! ## What an operation shows -/

namespace Session

open ContextTable

variable {session other : Session α} {key : ContextKey}

/-- The context of an event shows what was recorded on what it showed before. -/
theorem view_own (hactive : session.phase.isActive = true) (h : session.contexts.Exact)
    (event : Event α) :
    (session.handle event).contexts.Exact ∧
      (session.handle event).contexts.view reading event.key =
        some ((session.record event ((session.contexts.view reading event.key).getD
          (.fresh event.key (session.filter.traces event.thread)
            session.config.initialStackCapacity))).read reading) := by
  generalize hbefore : (session.contexts.view reading event.key).getD _ = before
  have hall : session.contexts.Attended (seen reading event.key (some before)) := by
    intro handle context hget hkey
    rw [← hbefore, ← hkey, h.view_of_get reading hget, Option.getD_some]
  have hactivated : ∃ handle, Activated session.contexts (session.handle event).contexts
      (seen reading event.key (some ((session.record event before).read reading))) event.key
        handle := by
    refine activated_handle hactive h hall event (seen_passes reading event.key _ event.sample)
      (fun hnone _ _ => ?_) (fun {handle context} hseen hown _ => ?_)
      fun _ hforeign hkey => absurd hkey hforeign
    · rw [← hbefore, view, show session.contexts.find? event.key = none from hnone]
      exact congrArg some (Context.read_fresh reading _ _ _)
    · rw [← Option.some.inj (hseen hown)]
      exact congrArg some (session.read_record reading event (context.read_read reading).symm)
  obtain ⟨handle, hactivated⟩ := hactivated
  obtain ⟨context, hget, hkey⟩ := hactivated.found
  have hshown := hactivated.attended handle context hget hkey
  have hview := hactivated.exact.view_of_get reading hget
  rw [hkey, hshown] at hview
  exact ⟨hactivated.exact, hview⟩

/-- An event of another context is not to be seen. -/
theorem view_foreign (hactive : session.phase.isActive = true) (h : session.contexts.Exact)
    {event : Event α} (hforeign : event.key ≠ key) :
    (session.handle event).contexts.Exact ∧
      (session.handle event).contexts.view reading key = session.contexts.view reading key := by
  have hactivated : ∃ handle, Activated session.contexts (session.handle event).contexts
      (seen reading key (session.contexts.view reading key)) event.key handle := by
    refine activated_handle hactive h (h.attended_seen reading key) event
      (seen_passes reading key _ event.sample) (fun _ _ hkey => absurd hkey hforeign)
      (fun {handle context} _ hown hkey => ?_) fun hseen _ => hseen
    rw [session.key_record event context] at hkey
    exact absurd (hown.symm.trans hkey) hforeign
  obtain ⟨handle, hactivated⟩ := hactivated
  exact ⟨hactivated.exact,
    h.view_kept reading hactivated.exact hactivated.keeps rfl hactivated.attended⟩

/-- The end of a run closes what is open, as far as that is to be seen. -/
theorem view_stop (key : ContextKey) (hactive : session.phase.isActive = true)
    (hfibers : session.config.mergeFibers = false) (h : session.contexts.Exact) (now : α) :
    (session.after (.stop now)).contexts.Exact ∧
      (session.after (.stop now)).contexts.view reading key =
        (session.contexts.view reading key).map fun context =>
          (context.unwind now).read reading := by
  rw [contexts_stop hactive hfibers]
  have hpasses : Passes (fun (_ : Bool) (_ : Handle) (context : Context α) => context.key = key →
      some (((context.read reading).unwind now).read reading) =
        (session.contexts.view reading key).map fun context =>
          (context.unwind now).read reading) now := by
    refine ⟨fun {handle context} hlaw hkey => ?_, fun {handle context} hlaw hkey => ?_⟩
    · rw [context.read_switchIn]
      exact hlaw hkey
    · rw [context.read_switchOut]
      exact hlaw hkey
  -- to unwind twice is to unwind once, so closing a context keeps what it will come to
  have hunwound : ∀ context : Context α,
      (((context.unwind now).read reading).unwind now).read reading =
        ((context.read reading).unwind now).read reading := by
    intro context
    rw [← Context.read_unwind reading ((context.unwind now).read_read reading).symm now,
      Context.unwind_of_empty (context.frames_unwind now) now]
    exact Context.read_unwind reading (context.read_read reading).symm now
  obtain ⟨hexact, hkeeps, hattended⟩ := attended_unwindAll session now hpasses
    (fun {handle context} hlaw hkey => by
      rw [hunwound]
      exact hlaw hkey)
    session.contexts.handles h fun handle context hget hkey => by
      rw [← hkey, h.view_of_get reading hget, Option.map_some]
  have hframes := settled_unwindAll session now session.contexts.handles
    fun handle context hget _ => ContextTable.mem_handles.mpr ⟨context, hget⟩
  refine ⟨⟨hexact.find, nofun⟩, h.view_kept reading hexact hkeeps Option.isSome_map ?_⟩
  intro handle context hget hkey
  rw [← hattended handle context hget hkey,
    ← Context.read_unwind reading (context.read_read reading).symm now,
    Context.unwind_of_empty (hframes handle context hget)]

/-! ## Two runs -/

/-- Two sessions in a run that show the same of one context. -/
structure Alike (key : ContextKey) (session other : Session α) : Prop where
  config : session.config = other.config
  filter : session.filter = other.filter
  exclusions : session.exclusions = other.exclusions
  phase : session.phase = other.phase
  active : session.phase.isActive = true
  fibers : session.config.mergeFibers = false
  exact : session.contexts.Exact
  otherExact : other.contexts.Exact
  view : session.contexts.view reading key = other.contexts.view reading key

variable {reading}

theorem Alike.foreign (h : Alike reading key session other) {event : Event α}
    (hforeign : event.key ≠ key) : Alike reading key (session.handle event) other := by
  obtain ⟨hexact, hview⟩ := view_foreign reading h.active h.exact hforeign
  rw [handle_eq h.active]
  exact ⟨h.config, h.filter, h.exclusions, h.phase, h.active, h.fibers, hexact, h.otherExact,
    hview.trans h.view⟩

theorem Alike.own (h : Alike reading key session other) {event : Event α}
    (hown : event.key = key) :
    Alike reading key (session.handle event) (other.handle event) := by
  have hactive : other.phase.isActive = true := h.phase ▸ h.active
  obtain ⟨hexact, hview⟩ := view_own reading h.active h.exact event
  obtain ⟨hother, hsame⟩ := view_own reading hactive h.otherExact event
  have hrecord : ∀ context, session.record event context = other.record event context := by
    intro context
    unfold Session.record isPaused
    rw [h.config, h.exclusions, h.phase]
  rw [handle_eq h.active, handle_eq hactive]
  refine ⟨h.config, h.filter, h.exclusions, h.phase, h.active, h.fibers, hexact, hother, ?_⟩
  rw [← hown]
  refine (hview.trans ?_).trans hsame.symm
  rw [hown, h.view, h.filter, h.config, hrecord]

theorem Alike.mapLive (h : Alike reading key session other) (change : Context α → Context α)
    (hkey : ∀ context, (change context).key = context.key)
    (hchange : ∀ context, (change context).read reading = change (context.read reading))
    {phase : Phase} (hactive : phase.isActive = true) :
    Alike reading key
      { session with contexts := session.contexts.mapLive change, phase := phase }
      { other with contexts := other.contexts.mapLive change, phase := phase } := by
  refine ⟨h.config, h.filter, h.exclusions, rfl, hactive, h.fibers,
    (h.exact.mapLive change hkey).1, (h.otherExact.mapLive change hkey).1, ?_⟩
  show (session.contexts.mapLive change).view reading key =
    (other.contexts.mapLive change).view reading key
  rw [h.exact.view_mapLive reading key hkey hchange,
    h.otherExact.view_mapLive reading key hkey hchange, h.view]

theorem Alike.pause (h : Alike reading key session other) (now : α) :
    Alike reading key (session.after (.pause now)) (other.after (.pause now)) := by
  rw [after_pause, after_pause, ← h.phase]
  split
  · exact h.mapLive (·.pause now) (fun _ => rfl) (·.read_pause reading now) rfl
  · exact h

theorem Alike.resume (h : Alike reading key session other) (now : α) :
    Alike reading key (session.after (.resume now)) (other.after (.resume now)) := by
  rw [after_resume, after_resume, ← h.phase]
  split
  · exact h.mapLive (·.resume now) (fun _ => rfl) (·.read_resume reading now) rfl
  · exact h

theorem Alike.moment (h : Alike reading key session other) {moment : Moment α}
    (hconcerns : moment.concerns key = true) :
    Alike reading key (session.after moment.operation) (other.after moment.operation) := by
  cases moment with
  | event raised => exact h.own (of_decide_eq_true hconcerns)
  | pause now => exact h.pause now
  | resume now => exact h.resume now

theorem Alike.aside (h : Alike reading key session other) {moment : Moment α}
    (hforeign : moment.concerns key = false) :
    Alike reading key (session.after moment.operation) other := by
  cases moment with
  | event raised => exact h.foreign (of_decide_eq_false hforeign)
  | pause now => cases hforeign
  | resume now => cases hforeign

/-- What does not concern a context may as well not happen. -/
theorem Alike.run : ∀ (moments : List (Moment α)) {session other : Session α},
    Alike reading key session other →
      Alike reading key (session.run (moments.map Moment.operation))
        (other.run ((moments.filter (·.concerns key)).map Moment.operation)) := by
  intro moments
  induction moments with
  | nil => intro session other h; exact h
  | cons moment moments ih =>
      intro session other h
      cases hconcerns : moment.concerns key with
      | true =>
          rw [List.filter_cons_of_pos hconcerns]
          exact ih (h.moment hconcerns)
      | false =>
          rw [List.filter_cons_of_neg (Bool.eq_false_iff.mp hconcerns)]
          exact ih (h.aside hconcerns)

theorem Alike.stop (h : Alike reading key session other) (now : α) :
    (session.after (.stop now)).contexts.Exact ∧
      (session.after (.stop now)).contexts.view reading key =
        (other.after (.stop now)).contexts.view reading key := by
  obtain ⟨hexact, hview⟩ := view_stop reading key h.active h.fibers h.exact now
  obtain ⟨-, hsame⟩ := view_stop reading key (h.phase ▸ h.active) (h.config ▸ h.fibers)
    h.otherExact now
  refine ⟨hexact, hview.trans ?_⟩
  rw [h.view]
  exact hsame.symm

/-! ## Whole runs -/

/-- To a context a run looks like the run in which nothing else happens. -/
theorem Reachable.view_recorded (reading : Reading α) {dumps : Phase → Prop}
    (h : Reachable dumps session) (hidle : session.phase = .idle)
    (hfibers : session.config.mergeFibers = false) (start : α) (moments : List (Moment α))
    (stop : α) (key : ContextKey) :
    (session.recorded start moments stop).contexts.Exact ∧
      (session.recorded start moments stop).contexts.view reading key =
        (session.recorded start (moments.filter (·.concerns key)) stop).contexts.view reading
          key := by
  have hstarted : Alike reading key (session.after (.start start))
      (session.after (.start start)) := by
    rw [h.started hidle]
    exact ⟨rfl, rfl, rfl, rfl, rfl, hfibers, exact_empty, exact_empty, rfl⟩
  rw [recorded_eq, recorded_eq]
  exact (hstarted.run moments).stop stop

/-- In every run of every session that can come about, and whatever its amounts are, a context comes
out the same to everyone who does not tell its two times apart, whatever the other contexts do. -/
theorem Reachable.reads_alike (reading : Reading α) {dumps : Phase → Prop}
    (h : Reachable dumps session) (hidle : session.phase = .idle)
    (hfibers : session.config.mergeFibers = false) (start : α)
    {moments others : List (Moment α)} (stop : α) {key : ContextKey}
    (hsame : moments.filter (·.concerns key) = others.filter (·.concerns key))
    {handle : Handle} {context : Context α}
    (hfind : (session.recorded start moments stop).contexts.find? key = some handle)
    (hget : (session.recorded start moments stop).contexts.get? handle = some context) :
    ∃ (handle : Handle) (found : Context α),
      (session.recorded start others stop).contexts.find? key = some handle ∧
      (session.recorded start others stop).contexts.get? handle = some found ∧
      found.traced = context.traced ∧
      found.profile.read reading = context.profile.read reading := by
  obtain ⟨-, hmoments⟩ := h.view_recorded reading hidle hfibers start moments stop key
  obtain ⟨hexact, hothers⟩ := h.view_recorded reading hidle hfibers start others stop key
  have hview : (session.recorded start moments stop).contexts.view reading key =
      some (context.read reading) := by
    rw [view, hfind, Option.bind_some, hget, Option.map_some]
  rw [hmoments, hsame, ← hothers] at hview
  obtain ⟨handle, found, hfound, hcontext, -, hread⟩ := hexact.view_eq_some reading hview
  exact ⟨handle, found, hfound, hcontext, (congrArg Context.traced hread :),
    (congrArg Context.profile hread :)⟩

/-- In every run of every session that can come about, the other contexts decide how the time of
a context is split into self time and waiting time, and nothing else. -/
theorem Reachable.independent {α : Type} [ExactAmount α] {session : Session α}
    {dumps : Phase → Prop} (h : Reachable dumps session)
    (hidle : session.phase = .idle) (hfibers : session.config.mergeFibers = false)
    (start : α) {moments others : List (Moment α)} (stop : α) {key : ContextKey}
    (hsame : moments.filter (·.concerns key) = others.filter (·.concerns key))
    {handle : Handle} {context : Context α}
    (hfind : (session.recorded start moments stop).contexts.find? key = some handle)
    (hget : (session.recorded start moments stop).contexts.get? handle = some context) :
    ∃ (handle : Handle) (found : Context α),
      (session.recorded start others stop).contexts.find? key = some handle ∧
      (session.recorded start others stop).contexts.get? handle = some found ∧
      found.traced = context.traced ∧ found.profile.lumped = context.profile.lumped := by
  obtain ⟨handle, found, hfound, hcontext, htraced, hread⟩ :=
    h.reads_alike .lumped hidle hfibers start stop hsame hfind hget
  rw [Profile.read_lumped, Profile.read_lumped] at hread
  exact ⟨handle, found, hfound, hcontext, htraced, hread⟩

/-- One thread waits through a pause in the first run, and only at the end in the second one. -/
theorem independent_overlapping :
    ∃ context found : Context Int,
      ((unconfigured : Session Int).recorded 0
        [.event (((Event.call ⟨.owner .plain, "A"⟩ "f").on 1 0).sampled 10),
          .event (((Event.call ⟨.owner .plain, "A"⟩ "g").on 2 0).sampled 20),
          .pause 25, .resume 40, .event ((Event.returned.on 1 0).sampled 50)]
        60).contexts.get? 0 = some context ∧
      ((unconfigured : Session Int).recorded 0
        [.event (((Event.call ⟨.owner .plain, "A"⟩ "f").on 1 0).sampled 10),
          .pause 25, .resume 40, .event ((Event.returned.on 3 7).sampled 45),
          .event ((Event.returned.on 1 0).sampled 50)]
        60).contexts.get? 0 = some found ∧
      (context.profile.tree.node? 0).map (·.measurement) = some ⟨10, 15, 25, 1⟩ ∧
      (found.profile.tree.node? 0).map (·.measurement) = some ⟨20, 5, 25, 1⟩ ∧
      found.profile.lumped = context.profile.lumped := by
  generalize hmoments : ([_, _, _, _, _] : List (Moment Int)) = moments
  generalize hothers : ([_, _, _, _, _] : List (Moment Int)) = others
  have hsame : moments.filter (·.concerns ⟨1, 0⟩) = others.filter (·.concerns ⟨1, 0⟩) := by
    rw [← hmoments, ← hothers]
    rfl
  have hfind : ((unconfigured : Session Int).recorded 0 moments 60).contexts.find? ⟨1, 0⟩ =
      some 0 := by
    rw [← hmoments]
    decide +kernel
  have hfound : ((unconfigured : Session Int).recorded 0 others 60).contexts.find? ⟨1, 0⟩ =
      some 0 := by
    rw [← hothers]
    decide +kernel
  have hcost : (((unconfigured : Session Int).recorded 0 moments 60).contexts.get? 0).bind
      (fun context => (context.profile.tree.node? 0).map (·.measurement)) =
        some ⟨10, 15, 25, 1⟩ := by
    rw [← hmoments]
    decide +kernel
  have hother : (((unconfigured : Session Int).recorded 0 others 60).contexts.get? 0).bind
      (fun context => (context.profile.tree.node? 0).map (·.measurement)) =
        some ⟨20, 5, 25, 1⟩ := by
    rw [← hothers]
    decide +kernel
  obtain ⟨context, hcontext, hnode⟩ := Option.bind_eq_some_iff.mp hcost
  obtain ⟨handle, found, hhandle, hget, -, hlumped⟩ :=
    (reachable_unconfigured fun _ => True).independent rfl rfl 0 60 hsame hfind hcontext
  rw [hfound] at hhandle
  cases hhandle
  rw [hget, Option.bind_some] at hother
  exact ⟨context, found, hcontext, hget, hnode, hother, hlumped⟩

end Session

end CallLedger
