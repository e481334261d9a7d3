import CallLedger.Proofs.Lifecycle
import CallLedger.Proofs.Moments

/-!
# Which frames are paused and which wait

Only innermost frames ever do either. Between the start and the end of a run the innermost frame
of every context is paused if the run is, and it waits if its context is not the active one
(`Disciplined`). Dead time is held back in a frame only as long as it waits.

The clocks of a frame are set and cleared in many places, but each of these only decides how the
innermost frame stands from then on (`Frame.Stands`, `Stack.disciplined_modifyTop`). A call puts a
frame on top, whose caller is unpaused first. A return brings a caller back to the top, where it
is paused again if the run is. Activity is handed over in one place.

What became of the waits follows from the same steps. A frame that waits was innermost when an event
of another context came, its context has not been active since, and nothing but pauses has touched
it (`Session.Awaits`). So the event that makes the context active again ends just that wait.
-/

namespace CallLedger

variable {α : Type}

/-! ## One frame -/

/-- Whether a frame is paused and whether it waits. -/
structure Frame.Stands [Zero α] (paused waiting : Bool) (frame : Frame α) : Prop where
  paused : frame.pausedAt.isSome = paused
  waiting : frame.switchedAt.isSome = waiting
  switchDead : frame.switchedAt = none → frame.switchDead = 0

namespace Frame

variable [Amount α] {frame : Frame α} {paused waiting : Bool}

theorem Stands.pause (h : frame.Stands paused waiting) (now : α) :
    (frame.pause now).Stands true waiting := by
  unfold Frame.pause
  split
  · exact ⟨rfl, h.waiting, h.switchDead⟩
  · next hpaused => exact ⟨Option.isSome_of_eq_some hpaused, h.waiting, h.switchDead⟩

theorem Stands.unpause (h : frame.Stands paused waiting) (now : α) :
    (frame.unpause now).Stands false waiting := by
  unfold Frame.unpause
  split
  · exact ⟨rfl, h.waiting, h.switchDead⟩
  · next hpaused => exact ⟨by rw [hpaused]; rfl, h.waiting, h.switchDead⟩

theorem Stands.switchOut (h : frame.Stands paused waiting) (now : α) :
    (frame.switchOut now).Stands paused true := ⟨h.paused, rfl, nofun⟩

theorem Stands.switchIn (h : frame.Stands paused waiting) (now : α) :
    (frame.switchIn now).Stands paused false := by
  unfold Frame.switchIn
  split
  · exact ⟨h.paused, rfl, fun _ => rfl⟩
  · next hswitched => exact ⟨h.paused, by rw [hswitched]; rfl, h.switchDead⟩

/-- What a frame notes besides its clocks. -/
theorem Stands.of_clocks (h : frame.Stands paused waiting) {later : Frame α}
    (hpaused : later.pausedAt = frame.pausedAt) (hswitched : later.switchedAt = frame.switchedAt)
    (hdead : later.switchDead = frame.switchDead) : later.Stands paused waiting := by
  refine ⟨?_, ?_, fun hnone => ?_⟩
  · rw [hpaused, h.paused]
  · rw [hswitched, h.waiting]
  · rw [hdead, h.switchDead (hswitched ▸ hnone)]

theorem stands_opened (node : NodeId) (method : MethodId) (start : α) :
    (opened node method start).Stands false false := ⟨rfl, rfl, fun _ => rfl⟩

/-- A frame, at a moment when a wait of it began, and the frame it is while it waits. Only pauses
may have begun or ended since. -/
def Waits (frame : Frame α) (since : α) (later : Frame α) : Prop :=
  ∃ pausedAt deadTime,
    later = { frame.switchOut since with pausedAt := pausedAt, deadTime := deadTime }

theorem waits_switchOut (frame : Frame α) (now : α) : frame.Waits now (frame.switchOut now) :=
  ⟨_, _, rfl⟩

theorem Waits.pause {since : α} {later : Frame α} (h : frame.Waits since later) (now : α) :
    frame.Waits since (later.pause now) := by
  obtain ⟨pausedAt, deadTime, rfl⟩ := h
  unfold Frame.pause
  split <;> exact ⟨_, _, rfl⟩

theorem Waits.unpause {since : α} {later : Frame α} (h : frame.Waits since later) (now : α) :
    frame.Waits since (later.unpause now) := by
  obtain ⟨pausedAt, deadTime, rfl⟩ := h
  unfold Frame.unpause
  split <;> exact ⟨_, _, rfl⟩

/-- The end of a wait charges the time since it began, less the dead time that came up. -/
theorem Waits.switchIn {since : α} {later : Frame α} (h : frame.Waits since later) (now : α) :
    (later.switchIn now).switchedAt = none ∧
      (later.switchIn now).waitTime = frame.waitTime +
        (now - since - (later.deadUntil now - frame.deadUntil since)) := by
  obtain ⟨pausedAt, deadTime, rfl⟩ := h
  exact ⟨rfl, rfl⟩

end Frame

/-! ## One stack -/

section Frames

variable [Zero α] {paused active : Bool} {top : Frame α} {callers : List (Frame α)}

/-- The innermost frame is paused if the run is, and waits if the context is not active. No other
frame does either. -/
def Disciplined (paused active : Bool) (frames : List (Frame α)) : Prop :=
  ∀ (depth : Nat) (frame : Frame α), frames[depth]? = some frame →
    frame.Stands (paused && depth = 0) (!active && depth = 0)

theorem disciplined_nil : Disciplined paused active ([] : List (Frame α)) := nofun

theorem disciplined_cons : Disciplined paused active (top :: callers) ↔
    top.Stands paused (!active) ∧ ∀ caller ∈ callers, caller.Stands false false := by
  constructor
  · intro h
    refine ⟨by simpa using h 0 top rfl, fun caller hmem => ?_⟩
    obtain ⟨depth, hdepth⟩ := List.mem_iff_getElem?.mp hmem
    simpa using h (depth + 1) caller hdepth
  · rintro ⟨htop, hcallers⟩ depth frame hframe
    cases depth with
    | zero =>
        cases hframe
        simpa using htop
    | succ depth => simpa using hcallers frame (List.mem_of_getElem? hframe)

/-- Where nothing is paused or waits, every frame stands like a caller. -/
theorem disciplined_resting {frames : List (Frame α)} : Disciplined false true frames ↔
    ∀ frame ∈ frames, frame.Stands false false := by
  cases frames with
  | nil => simp [disciplined_nil]
  | cons top callers => simp [disciplined_cons]

end Frames

variable [Amount α] {paused active : Bool}

namespace Stack

variable {stack : Stack α}

/-- Whoever changes the innermost frame says how it stands then. -/
theorem disciplined_modifyTop (h : Disciplined paused active stack.frames)
    {change : Frame α → Frame α} {pausedLater activeLater : Bool}
    (hchange : ∀ {top : Frame α}, top.Stands paused (!active) →
      (change top).Stands pausedLater (!activeLater)) :
    Disciplined pausedLater activeLater (stack.modifyTop change).frames := by
  obtain ⟨frames, capacity⟩ := stack
  cases frames with
  | nil => exact disciplined_nil
  | cons top callers =>
      obtain ⟨htop, hcallers⟩ := disciplined_cons.mp h
      exact disciplined_cons.mpr ⟨hchange htop, hcallers⟩

theorem disciplined_pass (h : Disciplined paused active stack.frames) :
    Disciplined paused active stack.pass.frames :=
  disciplined_modifyTop h fun htop => htop.of_clocks rfl rfl rfl

/-- The caller is unpaused, and the callee is paused in its place if the run is. -/
theorem disciplined_push (h : Disciplined paused true stack.frames) (profile : Profile α)
    (node : NodeId) (now : α) :
    Disciplined paused true (stack.push profile node now paused).1.frames := by
  unfold push
  split
  · exact h
  · next method _ =>
      have hcallers := disciplined_resting.mp (disciplined_modifyTop h (·.unpause now))
      refine disciplined_cons.mpr ⟨?_, hcallers⟩
      have hopened : (Frame.opened node method now).Stands false false :=
        Frame.stands_opened node method now
      cases paused with
      | true => exact hopened.pause now
      | false => exact hopened

/-- A return leaves the innermost frame as it was, or brings its caller back, which is not
paused. -/
theorem disciplined_pop (h : Disciplined paused true stack.frames) (profile : Profile α)
    (now : α) : Disciplined paused true (stack.pop profile now).2.1.frames ∨
      Disciplined false true (stack.pop profile now).2.1.frames := by
  obtain ⟨frames, capacity⟩ := stack
  cases frames with
  | nil => exact Or.inl disciplined_nil
  | cons top callers =>
      obtain ⟨htop, hcallers⟩ := disciplined_cons.mp h
      unfold pop
      simp only []
      split
      · exact Or.inl (disciplined_cons.mpr ⟨htop.of_clocks rfl rfl rfl, hcallers⟩)
      · refine Or.inr (disciplined_modifyTop (disciplined_resting.mpr hcallers) ?_)
        exact fun hcaller => hcaller.of_clocks rfl rfl rfl

end Stack

/-! ## One context -/

namespace Context

variable {context : Context α}

theorem disciplined_openCall (h : Disciplined paused true context.stack.frames)
    (method : MethodId) (event : Event α) :
    Disciplined paused true (context.openCall method event paused).stack.frames :=
  Stack.disciplined_modifyTop (Stack.disciplined_push h _ _ event.sample) fun htop =>
    htop.of_clocks rfl rfl rfl

theorem disciplined_called (h : Disciplined paused true context.stack.frames) (event : Event α)
    (exclusions : Exclusions) :
    Disciplined paused true (context.called event exclusions paused).stack.frames := by
  unfold called
  split
  · exact Stack.disciplined_pass h
  · simp only []
    split
    · exact Stack.disciplined_pass h
    · exact disciplined_openCall (by exact h) _ event

/-- The caller is innermost again, and is paused again if the run is. -/
theorem disciplined_returned (h : Disciplined paused true context.stack.frames) (now : α) :
    Disciplined paused true (context.returned now paused).stack.frames := by
  have hpopped := Stack.disciplined_pop h context.profile now
  cases paused with
  | true =>
      rcases hpopped with hkept | hback
      · exact Stack.disciplined_modifyTop hkept (·.pause now)
      · exact Stack.disciplined_modifyTop hback (·.pause now)
  | false => exact hpopped.elim id id

theorem switchOut_of_empty (h : context.stack.frames = []) (now : α) :
    context.switchOut now = context := by
  obtain ⟨key, traced, profile, frames, capacity⟩ := context
  cases h
  rfl

theorem disciplined_moved (h : Disciplined paused active context.stack.frames) (event : Event α) :
    Disciplined paused active (context.moved event).stack.frames :=
  Stack.disciplined_modifyTop h fun htop => htop.of_clocks rfl rfl rfl

omit [Amount α] in
theorem stack_allocated (context : Context α) (event : Event α) :
    (context.allocated event).stack = context.stack := by
  unfold allocated
  split
  · split <;> rfl
  · rfl

end Context

theorem Session.disciplined_record {session : Session α} {context : Context α}
    (h : Disciplined session.isPaused true context.stack.frames) (event : Event α) :
    Disciplined session.isPaused true (session.record event context).stack.frames := by
  unfold Session.record
  split
  · split
    · exact Context.disciplined_called h event _
    · exact Context.disciplined_called h event _
    · exact Context.disciplined_returned h event.sample
    · exact Context.disciplined_returned h event.sample
    · exact Context.disciplined_moved h event
    · split
      · rw [Context.stack_allocated]
        exact h
      · exact h
  · exact h

/-! ## One table -/

namespace ContextTable

variable {table : ContextTable α} {handle : Nat} {context : Context α} {now : α}

/-- The law of discipline, in a run that is paused or not. -/
def discipline (paused : Bool) : Bool → Handle → Context α → Prop :=
  fun active _ context => Disciplined paused active context.stack.frames

theorem discipline_passes (paused : Bool) (now : α) :
    Passes (discipline (α := α) paused) now where
  switchIn h := Stack.disciplined_modifyTop h (·.switchIn now)
  switchOut h := Stack.disciplined_modifyTop h (·.switchOut now)

theorem last_activate (table : ContextTable α) (key : ContextKey) (now : α)
    (filter : ThreadFilter) (capacity : Nat) :
    (table.activate key now filter capacity).1.last =
      some (table.activate key now filter capacity).2 := by
  unfold ContextTable.activate
  cases hactive : table.active? key with
  | some last => exact (Option.filter_eq_some_iff.mp hactive).1
  | none => rfl

/-- Activity is handed over to the context of a key, if it has one. -/
theorem Exact.activate_snd (h : table.Exact) (hget : table.get? handle = some context)
    (key : ContextKey) (now : α) (filter : ThreadFilter) (capacity : Nat) :
    (table.activate key now filter capacity).2 = handle ↔ context.key = key := by
  obtain ⟨hexact, hkeeps, -, -, found, hfound, hkey⟩ :=
    h.activate table.attended_true (passes_true now) key filter capacity fun _ _ => trivial
  obtain ⟨later, hlater, hsame⟩ := hkeeps _ _ hget
  constructor
  · intro heq
    rw [heq, hlater, Option.some.injEq] at hfound
    rw [← hsame, hfound, hkey]
  · intro hown
    exact hexact.unique hlater hfound (hkey.trans (hown.symm.trans hsame.symm))

/-- Either the context of the key is active already, or activity is handed over to its slot, which
may be a new one. -/
theorem Exact.activate_cases (h : table.Exact) (key : ContextKey) (now : α)
    (filter : ThreadFilter) (capacity : Nat) :
    (table.last = some (table.activate key now filter capacity).2 ∧
      (table.activate key now filter capacity).1 = table) ∨
    ∃ before : ContextTable α, before.last = table.last ∧
      (∀ handle : Nat, before.get? handle = table.get? handle ∨ table.get? handle = none ∧
        handle = (table.activate key now filter capacity).2) ∧
      table.last ≠ some (table.activate key now filter capacity).2 ∧
      (table.activate key now filter capacity).1 =
        before.switchTo (table.activate key now filter capacity).2 now := by
  unfold ContextTable.activate
  cases hactive : table.active? key with
  | some last => exact Or.inl ⟨(Option.filter_eq_some_iff.mp hactive).1, rfl⟩
  | none =>
      right
      simp only [slotFor]
      cases hfind : table.find? key with
      | some slot =>
          refine ⟨table, rfl, fun _ => Or.inl rfl, fun hlast => ?_, rfl⟩
          obtain ⟨found, hfound, hkey⟩ := h.find.mp hfind
          rw [active?, hlast, Option.filter_some, hfound, Option.any_some,
            if_pos (decide_eq_true hkey)] at hactive
          cases hactive
      | none =>
          refine ⟨table.insert (.fresh key (filter.traces key.thread) capacity), rfl,
            fun handle => ?_, h.last_ne_size, rfl⟩
          rw [get?_insert]
          split
          · next heq => exact Or.inr ⟨heq ▸ table.get?_size, heq⟩
          · exact Or.inl rfl

/-- A slot that was not there before is that of the key. -/
theorem Exact.live_of_activate (h : table.Exact) {key : ContextKey} {now : α}
    {filter : ThreadFilter} {capacity : Nat}
    (hget : (table.activate key now filter capacity).1.get? handle = some context)
    (hother : (table.activate key now filter capacity).2 ≠ handle) :
    ∃ before, table.get? handle = some before := by
  rcases h.activate_cases key now filter capacity with
    ⟨-, hsame⟩ | ⟨before, hbefore, hkept, hlast, hswitched⟩
  · rw [hsame] at hget
    exact ⟨context, hget⟩
  · have hhere : before.get? handle = table.get? handle :=
      (hkept handle).resolve_right fun hnew => hother hnew.2.symm
    rw [hswitched, get?_switchTo (hbefore ▸ hlast), if_neg hother, hhere] at hget
    split at hget
    · obtain ⟨found, hfound, -⟩ := Option.map_eq_some_iff.mp hget
      exact ⟨found, hfound⟩
    · exact ⟨context, hget⟩

/-- What a change of activity does to the contexts that are there: the wait of one ends, and
that of another one begins. -/
theorem Exact.get?_activate (h : table.Exact) (hget : table.get? handle = some context)
    (key : ContextKey) (now : α) (filter : ThreadFilter) (capacity : Nat) :
    (table.activate key now filter capacity).1.get? handle = some
      (if context.key = key then
        if table.last = some handle then context else context.switchIn now
      else if table.last = some handle then context.switchOut now else context) := by
  have hown := h.activate_snd hget key now filter capacity
  rcases h.activate_cases key now filter capacity with
    ⟨hlast, hsame⟩ | ⟨before, hbefore, hkept, hlast, hswitched⟩
  · have hhere : table.last = some handle ↔ context.key = key := by
      rw [hlast, Option.some.injEq, hown]
    rw [hsame, hget]
    by_cases hkey : context.key = key
    · rw [if_pos hkey, if_pos (hhere.mpr hkey)]
    · rw [if_neg hkey, if_neg (mt hhere.mp hkey)]
  · have hhere : before.get? handle = some context := by
      rw [← hget]
      exact (hkept handle).resolve_right fun hnew => nomatch hnew.1.symm.trans hget
    rw [hswitched, get?_switchTo (hbefore ▸ hlast), hhere, hbefore]
    by_cases hkey : context.key = key
    · rw [hown.mpr hkey] at hlast ⊢
      rw [if_pos rfl, if_pos hkey, if_neg hlast]
      rfl
    · rw [if_neg (mt hown.mp hkey), if_neg hkey]
      split <;> rfl

end ContextTable

/-! ## One operation -/

namespace Session

open ContextTable

variable {session : Session α} {handle : Nat} {context : Context α}

/-- After an event the context of its key is the active one. -/
theorem last_handle (hactive : session.phase.isActive = true) (h : session.contexts.Exact)
    (event : Event α) (hget : session.contexts.get? handle = some context) :
    (session.handle event).contexts.last = some handle ↔ context.key = event.key := by
  rw [contexts_handle hactive]
  change (session.contexts.activate event.key event.sample _ _).1.last = _ ↔ _
  rw [last_activate, Option.some.injEq]
  exact h.activate_snd hget event.key event.sample _ _

/-- An event is recorded on its context, whose wait ends, and leaves the others alone, except that
the wait of the one that was active begins. -/
theorem get?_handle (hactive : session.phase.isActive = true) (h : session.contexts.Exact)
    (event : Event α) (hget : session.contexts.get? handle = some context) :
    (session.handle event).contexts.get? handle = some
      (if context.key = event.key then session.record event
        (if session.contexts.last = some handle then context
        else context.switchIn event.sample)
      else if session.contexts.last = some handle then context.switchOut event.sample
      else context) := by
  have hown := h.activate_snd hget event.key event.sample session.filter
    session.config.initialStackCapacity
  rw [contexts_handle hactive]
  change ((session.contexts.activate event.key event.sample _ _).1.modify
    (session.contexts.activate event.key event.sample _ _).2 _).get? handle = _
  rw [get?_modify, h.get?_activate hget]
  by_cases hkey : context.key = event.key
  · rw [if_pos (hown.mpr hkey), if_pos hkey, if_pos hkey]
    rfl
  · rw [if_neg (mt hown.mp hkey), if_neg hkey, if_neg hkey]

/-- What an event leaves waiting waited before, or it was active and another context came. -/
theorem waiting_handle (hactive : session.phase.isActive = true) (h : session.contexts.Exact)
    (event : Event α) (hget : (session.handle event).contexts.get? handle = some context)
    (hlast : (session.handle event).contexts.last ≠ some handle) :
    (session.contexts.get? handle = some context ∧ session.contexts.last ≠ some handle) ∨
      ∃ before, session.contexts.get? handle = some before ∧
        session.contexts.last = some handle ∧ before.key ≠ event.key ∧
        context = before.switchOut event.sample := by
  have hother : (session.contexts.activate event.key event.sample session.filter
      session.config.initialStackCapacity).2 ≠ handle := by
    intro heq
    rw [contexts_handle hactive] at hlast
    exact hlast ((last_activate _ _ _ _ _).trans (congrArg some heq))
  obtain ⟨before, hbefore⟩ : ∃ before, session.contexts.get? handle = some before := by
    rw [contexts_handle hactive, get?_modify] at hget
    change (if (session.contexts.activate event.key event.sample _ _).2 = handle then _ else _) =
      some context at hget
    rw [if_neg hother] at hget
    exact h.live_of_activate hget hother
  have hforeign : before.key ≠ event.key :=
    mt (h.activate_snd hbefore event.key event.sample _ _).mpr hother
  rw [get?_handle hactive h event hbefore, if_neg hforeign, Option.some.injEq] at hget
  split at hget
  · next hwas => exact Or.inr ⟨before, hbefore, hwas, hforeign, hget.symm⟩
  · next hwas => exact Or.inl ⟨hget ▸ hbefore, hwas⟩

/-- How a session that is under way came to be so. -/
inductive Proceeds (session : Session α) : Operation α → Session α → Prop
  | begun (hidle : session.phase = .idle) (now : α) :
      Proceeds session (.start now) { session with phase := .running }
  | observed (hactive : session.phase.isActive = true) (event : Event α) :
      Proceeds session (.event event) (session.handle event)
  | paused (hrunning : session.phase = .running) (now : α) :
      Proceeds session (.pause now)
        { session with contexts := session.contexts.mapLive (·.pause now), phase := .paused }
  | resumed (hpaused : session.phase = .paused) (now : α) :
      Proceeds session (.resume now)
        { session with contexts := session.contexts.mapLive (·.resume now), phase := .running }
  | ignored (hactive : session.phase.isActive = true) (operation : Operation α) :
      Proceeds session operation session

theorem proceeds_after {operation : Operation α}
    (hactive : (session.after operation).phase.isActive = true) :
    Proceeds session operation (session.after operation) := by
  obtain ⟨config, filter, exclusions, contexts, phase⟩ := session
  cases operation <;> cases phase <;> first
    | exact .begun rfl _
    | exact .observed rfl _
    | exact .paused rfl _
    | exact .resumed rfl _
    | exact .ignored rfl _
    | cases hactive

/-! ## Every run -/

/-- Since an event of another context came, a context in which a call was open has not been
active. -/
structure Leaves (first : Session α) (before : List (Operation α)) (event : Event α)
    (later : List (Operation α)) (handle : Handle) (top : Frame α) (callers : List (Frame α)) :
    Prop where
  active : (first.carried before).contexts.last = some handle
  foreign : ∃ context, (first.carried before).contexts.get? handle = some context ∧
    context.stack.frames = top :: callers ∧ context.key ≠ event.key
  since : ∀ during, during <+: later →
    (first.carried (before ++ .event event :: during)).contexts.last ≠ some handle

variable {first next : Session α} {before later operations : List (Operation α)}
  {event : Event α} {operation : Operation α} {top frame : Frame α} {callers : List (Frame α)}

theorem Leaves.extend (h : Leaves first before event later handle top callers)
    (hlast : (first.carried (before ++ .event event :: later ++ [operation])).contexts.last ≠
      some handle) : Leaves first before event (later ++ [operation]) handle top callers := by
  refine ⟨h.active, h.foreign, fun during hduring => ?_⟩
  rcases List.prefix_concat_iff.mp hduring with rfl | hearlier
  · rw [List.append_cons] at hlast
    simpa using hlast
  · exact h.since during hearlier

/-- The innermost call of a context that is not active has waited since an event of another context
came. -/
def Awaits (first : Session α) (operations : List (Operation α)) (handle : Handle)
    (frame : Frame α) (callers : List (Frame α)) : Prop :=
  ∃ before event later top, operations = before ++ .event event :: later ∧
    Leaves first before event later handle top callers ∧ top.Waits event.sample frame

/-- What holds at every moment of a run. -/
structure Overseen (first : Session α) (operations : List (Operation α)) (session : Session α) :
    Prop where
  frames : session.contexts.Attended (discipline session.isPaused)
  waits : ∀ {handle : Nat} {context : Context α} {frame : Frame α} {callers : List (Frame α)},
    session.contexts.get? handle = some context → context.stack.frames = frame :: callers →
      session.contexts.last ≠ some handle → Awaits first operations handle frame callers

theorem Awaits.extend (h : Awaits first operations handle frame callers)
    (hnext : first.carried (operations ++ [operation]) = next)
    (hlast : next.contexts.last ≠ some handle) :
    Awaits first (operations ++ [operation]) handle frame callers := by
  obtain ⟨before, event, later, top, rfl, hleaves, hwaits⟩ := h
  rw [← hnext] at hlast
  exact ⟨before, event, later ++ [operation], top, by simp, hleaves.extend hlast, hwaits⟩

/-- A pause, or the end of one, that all contexts see. -/
theorem Overseen.mapLive (h : Overseen first operations session)
    {change : Frame α → Frame α} {phase : Phase} {paused : Bool}
    (hpaused : decide (phase = .paused) = paused)
    (hstands : ∀ {frame : Frame α} {waiting : Bool}, frame.Stands session.isPaused waiting →
      (change frame).Stands paused waiting)
    (hwaits : ∀ {top frame : Frame α} {since : α}, top.Waits since frame →
      top.Waits since (change frame))
    (hnext : first.carried (operations ++ [operation]) = { session with
      contexts := session.contexts.mapLive fun context =>
        { context with stack := context.stack.modifyTop change }
      phase := phase }) :
    Overseen first (operations ++ [operation]) { session with
      contexts := session.contexts.mapLive fun context =>
        { context with stack := context.stack.modifyTop change }
      phase := phase } := by
  refine ⟨?_, fun {handle context frame callers} hget hframes hlast => ?_⟩
  · rw [isPaused, hpaused]
    exact h.frames.mapLive fun hcontext => Stack.disciplined_modifyTop hcontext hstands
  · rw [get?_mapLive] at hget
    obtain ⟨⟨key, traced, profile, frames, capacity⟩, hbefore, rfl⟩ :=
      Option.map_eq_some_iff.mp hget
    cases frames with
    | nil => cases hframes
    | cons waiting callers =>
        cases hframes
        have hawaits := (h.waits hbefore rfl hlast).extend hnext hlast
        obtain ⟨before, event, later, top, hsplit, hleaves, hwaiting⟩ := hawaits
        exact ⟨before, event, later, top, hsplit, hleaves, hwaits hwaiting⟩

theorem Overseen.observe (h : Overseen first operations session)
    (hsession : first.carried operations = session) (hactive : session.phase.isActive = true)
    (hexact : session.contexts.Exact)
    (hnext : first.carried (operations ++ [.event event]) = session.handle event) :
    Overseen first (operations ++ [.event event]) (session.handle event) := by
  refine ⟨?_, fun {handle context frame callers} hget hframes hlast => ?_⟩
  · have hphase : (session.handle event).isPaused = session.isPaused := by
      rw [handle_eq hactive]
      rfl
    rw [hphase]
    have hactivated := activated_handle hactive hexact h.frames event
      (discipline_passes session.isPaused event.sample) (fun _ _ => disciplined_nil)
      (fun hcontext _ => disciplined_record hcontext event) (fun hcontext _ => hcontext)
    obtain ⟨_, hactivated⟩ := hactivated
    exact hactivated.attended
  · rcases waiting_handle hactive hexact event hget hlast with
      ⟨hbefore, hwaited⟩ | ⟨left, hleft, hwas, hforeign, rfl⟩
    · exact (h.waits hbefore hframes hwaited).extend hnext hlast
    · -- the wait begins with this event
      obtain ⟨key, traced, profile, frames, capacity⟩ := left
      cases frames with
      | nil => cases hframes
      | cons top callers =>
          cases hframes
          refine ⟨operations, event, [], top, rfl, ⟨?_, ?_, ?_⟩, top.waits_switchOut _⟩
          · rw [hsession]
            exact hwas
          · rw [hsession]
            exact ⟨_, hleft, rfl, hforeign⟩
          · intro during hduring
            rw [List.prefix_nil.mp hduring, hnext]
            exact hlast

/-- What holds at a moment of a run holds at the next one. -/
theorem Overseen.proceed
    (h : session.phase.isActive = true → Overseen first operations session)
    (hsession : first.carried operations = session)
    (hexact : session.phase.isActive = true → session.contexts.Exact)
    (hunused : session.phase = .idle → session.contexts = .empty)
    (hproceeds : Proceeds session operation next)
    (hnext : first.carried (operations ++ [operation]) = next) :
    Overseen first (operations ++ [operation]) next := by
  cases hproceeds with
  | begun hidle now =>
      have hnone : ∀ handle : Nat, session.contexts.get? handle = none := by
        rw [hunused hidle]
        exact fun handle => rfl
      refine ⟨fun handle context hget => ?_, fun hget => ?_⟩
      · rw [hnone handle] at hget
        cases hget
      · rw [hnone] at hget
        cases hget
  | observed hactive event => exact (h hactive).observe hsession hactive (hexact hactive) hnext
  | paused hrunning now =>
      exact (h (by rw [hrunning]; rfl)).mapLive rfl (·.pause now) (·.pause now) hnext
  | resumed hpaused now =>
      exact (h (by rw [hpaused]; rfl)).mapLive rfl (·.unpause now) (·.unpause now) hnext
  | ignored hactive operation =>
      refine ⟨(h hactive).frames, fun hget hframes hlast => ?_⟩
      exact ((h hactive).waits hget hframes hlast).extend hnext hlast

theorem unused_after (hunused : session.phase = .idle → session.contexts = .empty)
    (hidle : (session.after operation).phase = .idle) :
    (session.after operation).contexts = .empty := by
  rw [phase_after, Phase.next_eq_idle] at hidle
  obtain ⟨hidle, hcommits⟩ := hidle
  have hcontexts := hunused hidle
  obtain ⟨config, filter, exclusions, contexts, phase⟩ := session
  cases hidle
  cases hcontexts
  cases operation <;> first | rfl | cases hcommits

theorem overseen_carried {beginning : Beginning α} (hbeginning : beginning.session = .ok first)
    (operations : List (Operation α)) :
    ((first.carried operations).phase.isActive = true →
      Overseen first operations (first.carried operations)) ∧
    ((first.carried operations).phase = .idle →
      (first.carried operations).contexts = .empty) := by
  induction operations using List.reverseRecOn with
  | nil =>
      cases beginning with
      | made config =>
          change ofConfig config = .ok first at hbeginning
          unfold ofConfig at hbeginning
          split at hbeginning
          · cases hbeginning
            exact ⟨nofun, fun _ => rfl⟩
          · cases hbeginning
      | loaded dump =>
          have hphase := Beginning.finished_loaded hbeginning
          change (first.phase.isActive = true → _) ∧ (first.phase = .idle → _)
          rw [hphase]
          exact ⟨nofun, nofun⟩
  | append_singleton operations operation ih =>
      have hexact := (Grows.carried hbeginning operations).exact
      have hnext : first.carried (operations ++ [operation]) =
          (first.carried operations).after operation := by
        rw [carried, List.foldl_append]
        exact carry_fst (fun hactive => hexact (not_finished hactive)) operation
      rw [hnext]
      refine ⟨fun hactive => ?_, unused_after ih.2⟩
      exact Overseen.proceed ih.1 rfl (fun hbefore => hexact (not_finished hbefore)) ih.2
        (proceeds_after hactive) hnext

/-! ## The end of a run -/

variable {table : ContextTable α} {other : Nat} {found : Context α}

/-- To unwind a context makes it the active one. -/
theorem last_unwind (h : table.Exact) (session : Session α) (now : α)
    (hget : table.get? handle = some context) :
    (session.unwind now table handle).last = some handle := by
  unfold Session.unwind
  rw [hget]
  show (table.activate context.key now _ _).1.last = _
  rw [last_activate, (h.activate_snd hget context.key now _ _).mpr rfl]

theorem get?_unwind (h : table.Exact) (session : Session α) (now : α)
    (hfound : table.get? other = some found) (hget : table.get? handle = some context) :
    (session.unwind now table other).get? handle = some
      (if other = handle then
        (if table.last = some handle then context else context.switchIn now).unwind now
      else if table.last = some handle then context.switchOut now else context) := by
  have hkey : context.key = found.key ↔ other = handle := by
    constructor
    · exact fun hsame => h.unique hget hfound hsame.symm
    · rintro rfl
      rw [hget, Option.some.injEq] at hfound
      rw [hfound]
  unfold Session.unwind
  rw [hfound]
  show ((table.activate found.key now session.filter
    session.config.initialStackCapacity).1.modify other (·.unwind now)).get? handle = _
  rw [get?_modify, h.get?_activate hget]
  by_cases hhere : other = handle
  · rw [if_pos hhere, if_pos hhere, if_pos (hkey.mpr hhere)]
    rfl
  · rw [if_neg hhere, if_neg hhere, if_neg (mt hkey.mp hhere)]

theorem unwind_of_none (session : Session α) (now : α) (hnone : table.get? other = none) :
    session.unwind now table other = table := by
  unfold Session.unwind
  rw [hnone]

theorem exact_unwind (h : table.Exact) (session : Session α) (now : α) (other : Nat) :
    (session.unwind now table other).Exact :=
  (attended_unwind session h table.attended_true now (passes_true now) (fun _ => trivial) other).1

/-- Once a context is unwound, the end of the run passes it by. -/
theorem get?_unwindAll_of_empty (session : Session α) (now : α)
    (hframes : context.stack.frames = []) :
    ∀ {handles : List Nat} {table : ContextTable α}, table.Exact →
      table.get? handle = some context → handle ∉ handles →
      (handles.foldl (session.unwind now) table).get? handle = some context := by
  intro handles
  induction handles with
  | nil => intro table _ hget _; exact hget
  | cons other handles ih =>
      intro table h hget hmem
      obtain ⟨hne, hrest⟩ := List.ne_and_not_mem_of_not_mem_cons hmem
      refine ih (exact_unwind h session now other) ?_ hrest
      cases hfound : table.get? other with
      | none => rw [unwind_of_none session now hfound, hget]
      | some found =>
          rw [get?_unwind h session now hfound hget, if_neg hne.symm,
            Context.switchOut_of_empty hframes, ite_self]

/-- A context that waits is switched in once, when its turn comes. -/
theorem get?_unwindAll_of_waiting (session : Session α) (now : α) :
    ∀ {handles : List Nat} {table : ContextTable α}, table.Exact →
      table.get? handle = some context → table.last ≠ some handle → handle ∈ handles →
      handles.Nodup → (handles.foldl (session.unwind now) table).get? handle =
        some ((context.switchIn now).unwind now) := by
  intro handles
  induction handles with
  | nil => intro table _ _ _ hmem; cases hmem
  | cons other handles ih =>
      intro table h hget hlast hmem hnodup
      obtain ⟨hfresh, hrest⟩ := List.nodup_cons.mp hnodup
      have hexact := exact_unwind h session now other
      rw [List.foldl_cons]
      by_cases hhere : other = handle
      · subst hhere
        refine get?_unwindAll_of_empty session now (Context.frames_unwind _ now) hexact ?_ hfresh
        rw [get?_unwind h session now hget hget, if_pos rfl, if_neg hlast]
      · have hlater := (List.mem_cons.mp hmem).resolve_left (Ne.symm hhere)
        cases hfound : table.get? other with
        | none =>
            rw [unwind_of_none session now hfound]
            exact ih h hget hlast hlater hrest
        | some found =>
            refine ih hexact ?_ ?_ hlater hrest
            · rw [get?_unwind h session now hfound hget, if_neg hhere, if_neg hlast]
            · rw [last_unwind h session now hfound]
              exact fun heq => hhere (Option.some.inj heq)

/-- The end of a run switches every context in that waits. The active one is switched out
first, if it is not the first one to be unwound. -/
theorem get?_unwindAll (h : table.Exact) (session : Session α) (now : α)
    (hget : table.get? handle = some context) :
    (table.handles.foldl (session.unwind now) table).get? handle = some
      ((if table.last = some handle then
          if table.handles.head? = some handle then context
          else (context.switchOut now).switchIn now
        else context.switchIn now).unwind now) := by
  have hmem : handle ∈ table.handles := mem_handles.mpr ⟨context, hget⟩
  have hnodup : table.handles.Nodup := table.nodup_live
  have hlive : ∀ other ∈ table.handles, ∃ found, table.get? other = some found :=
    fun other hother => mem_handles.mp hother
  by_cases hlast : table.last = some handle
  · rw [if_pos hlast]
    cases hhandles : table.handles with
    | nil =>
        rw [hhandles] at hmem
        cases hmem
    | cons first rest =>
        rw [hhandles] at hmem hnodup hlive
        obtain ⟨hfresh, hrest⟩ := List.nodup_cons.mp hnodup
        obtain ⟨found, hfound⟩ := hlive first List.mem_cons_self
        have hexact := exact_unwind h session now first
        have hafter := get?_unwind h session now hfound hget
        rw [if_pos hlast, if_pos hlast] at hafter
        rw [List.head?_cons, List.foldl_cons]
        by_cases hhere : first = handle
        · subst hhere
          rw [if_pos rfl] at hafter ⊢
          exact get?_unwindAll_of_empty session now (Context.frames_unwind _ now) hexact hafter
            hfresh
        · -- the first context becomes the active one, and this one waits from then on
          rw [if_neg hhere] at hafter
          rw [if_neg fun heq => hhere (Option.some.inj heq)]
          refine get?_unwindAll_of_waiting session now hexact hafter ?_
            ((List.mem_cons.mp hmem).resolve_left (Ne.symm hhere)) hrest
          rw [last_unwind h session now hfound]
          exact fun heq => hhere (Option.some.inj heq)
  · rw [if_neg hlast]
    exact get?_unwindAll_of_waiting session now h hget hlast hmem hnodup

/-! ## The discipline -/

/-- How frames are paused and wait at a moment of a run, and how waits begin and end. -/
structure Discipline (first : Session α) (operations : List (Operation α)) (session : Session α) :
    Prop where
  paused_iff : ∀ {handle depth : Nat} {context : Context α} {frame : Frame α},
    session.contexts.get? handle = some context → context.stack.frames[depth]? = some frame →
      (frame.pausedAt.isSome = true ↔ session.phase = .paused ∧ depth = 0)
  waits_iff : ∀ {handle depth : Nat} {context : Context α} {frame : Frame α},
    session.contexts.get? handle = some context → context.stack.frames[depth]? = some frame →
      (frame.switchedAt.isSome = true ↔ depth = 0 ∧ session.contexts.last ≠ some handle)
  switchDead : ∀ {handle depth : Nat} {context : Context α} {frame : Frame α},
    session.contexts.get? handle = some context → context.stack.frames[depth]? = some frame →
      frame.switchedAt = none → frame.switchDead = 0
  /-- What waits has done so since an event of another context came, and is charged from there on
  when the wait ends. -/
  since : ∀ {handle : Nat} {context : Context α} {frame : Frame α} {callers : List (Frame α)},
    session.contexts.get? handle = some context → context.stack.frames = frame :: callers →
      session.contexts.last ≠ some handle →
        ∃ before event later top, operations = before ++ .event event :: later ∧
          Leaves first before event later handle top callers ∧ top.Waits event.sample frame ∧
          ∀ now, (frame.switchIn now).switchedAt = none ∧
            (frame.switchIn now).waitTime = top.waitTime +
              (now - event.sample - (frame.deadUntil now - top.deadUntil event.sample))
  /-- An event ends the wait of its context, if that is not active, and nothing else ends one. -/
  switches : ∀ (event : Event α) {handle : Nat} {context : Context α},
    session.contexts.get? handle = some context →
      (session.handle event).contexts.get? handle = some
        (if context.key = event.key then session.record event
          (if session.contexts.last = some handle then context
          else context.switchIn event.sample)
        else if session.contexts.last = some handle then context.switchOut event.sample
        else context)
  attends : ∀ (event : Event α) {handle : Nat} {context : Context α},
    session.contexts.get? handle = some context →
      ((session.handle event).contexts.last = some handle ↔ context.key = event.key)
  /-- The end of the run ends one wait of every context, unless it begins with the active one. -/
  stops : ∀ (now : α) {handle : Nat} {context : Context α},
    session.contexts.get? handle = some context →
      (session.contexts.handles.foldl (session.unwind now) session.contexts).get? handle = some
        ((if session.contexts.last = some handle then
            if session.contexts.handles.head? = some handle then context
            else (context.switchOut now).switchIn now
          else context.switchIn now).unwind now)
  /-- While the run ends, the contexts that are not unwound yet keep to all this. -/
  stopping : ∀ (now : α) (done : List Handle),
    (done.foldl (session.unwind now) session.contexts).Attended (discipline session.isPaused)

theorem Overseen.toDiscipline (h : Overseen first operations session)
    (hactive : session.phase.isActive = true) (hexact : session.contexts.Exact) :
    Discipline first operations session := by
  have hstands : ∀ {handle depth : Nat} {context : Context α} {frame : Frame α},
      session.contexts.get? handle = some context → context.stack.frames[depth]? = some frame →
        frame.Stands (session.isPaused && depth = 0)
          (!decide (session.contexts.last = some handle) && depth = 0) :=
    fun hget hframe => h.frames _ _ hget _ _ hframe
  refine ⟨fun hget hframe => ?_, fun hget hframe => ?_, fun hget hframe => ?_,
    fun hget hframes hlast => ?_, fun event => get?_handle hactive hexact event,
    fun event => last_handle hactive hexact event,
    fun now => get?_unwindAll hexact session now, fun now done => ?_⟩
  · rw [(hstands hget hframe).paused]
    simp [isPaused]
  · rw [(hstands hget hframe).waiting]
    simp [and_comm]
  · exact (hstands hget hframe).switchDead
  · obtain ⟨before, event, later, top, hsplit, hleaves, hwaits⟩ := h.waits hget hframes hlast
    exact ⟨before, event, later, top, hsplit, hleaves, hwaits, hwaits.switchIn⟩
  · have hunwind : ∀ {handle : Handle} {context : Context α},
        discipline session.isPaused true handle context →
          discipline session.isPaused true handle (context.unwind now) := by
      intro handle context _
      rw [discipline, Context.frames_unwind]
      exact disciplined_nil
    exact (attended_unwindAll session now (discipline_passes _ now) hunwind done hexact
      h.frames).2.2

/-- Between the start and the end of every run, exactly the innermost frames of a paused run are
paused and exactly those of the contexts that are not active wait. -/
theorem disciplined {beginning : Beginning α} (hbeginning : beginning.session = .ok first)
    (operations : List (Operation α))
    (hactive : (first.carried operations).phase.isActive = true) :
    Discipline first operations (first.carried operations) :=
  ((overseen_carried hbeginning operations).1 hactive).toDiscipline hactive
    ((Grows.carried hbeginning operations).exact (not_finished hactive))

/-- A call inside another one is paused for a while, then left for another thread, and paused there
again. It waits since 20, and had been paused for 3 by then. -/
theorem disciplined_two_threads : ∃ session : Session Int,
    (Beginning.made Config.default).session = .ok (unconfigured : Session Int) ∧
    (unconfigured : Session Int).carried [.start 0,
      .event (((Event.call ⟨.owner .plain, "A"⟩ "f").on 1 0).sampled 5),
      .event (((Event.call ⟨.owner .plain, "A"⟩ "g").on 1 0).sampled 10), .pause 12, .resume 15,
      .event (((Event.call ⟨.owner .plain, "A"⟩ "f").on 2 0).sampled 20), .pause 25] = session ∧
    session.phase.isActive = true ∧ Discipline unconfigured [.start 0,
      .event (((Event.call ⟨.owner .plain, "A"⟩ "f").on 1 0).sampled 5),
      .event (((Event.call ⟨.owner .plain, "A"⟩ "g").on 1 0).sampled 10), .pause 12, .resume 15,
      .event (((Event.call ⟨.owner .plain, "A"⟩ "f").on 2 0).sampled 20), .pause 25] session ∧
    session.contexts.last = some 1 ∧
    (session.contexts.live.map fun entry => entry.2.stack.frames.map fun frame =>
      (frame.pausedAt, frame.switchedAt, frame.switchDead)) =
        [[(some 25, some 20, 3), (none, none, 0)], [(some 25, none, 0)]] := by
  generalize hrun : Session.carried (α := Int) _ _ = session
  have hactive : session.phase.isActive = true := by
    rw [← hrun]
    decide +kernel
  have hbeginning : (Beginning.made Config.default).session = .ok (unconfigured : Session Int) :=
    rfl
  refine ⟨session, hbeginning, rfl, hactive, ?_, ?_, ?_⟩
  · rw [← hrun] at hactive ⊢
    exact disciplined hbeginning _ hactive
  · rw [← hrun]
    decide +kernel
  · rw [← hrun]
    decide +kernel

end Session

end CallLedger
