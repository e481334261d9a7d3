import CallLedger.Proofs.Coherence

/-!
# Counters that stay small

A profiler keeps passes and visits in words of 32 bits. They are numbers without a bound here, and
the two are the same for the first `2 ^ 32` operations: all of them count some of the returns that a
stack is waiting for (`Stack.pending`), of which an operation adds one at most. Outside a run there
are none, so from there on the counters are bounded by the number of operations
(`Session.Reachable.counters_le`).

Invocations and allocated objects are counted in words of 64 bits, and these counts are never taken
back. They are added up by merging, and a profile may be merged with itself again and again.
Statements about their sums ask that the sums fit (`Profile.CountsFit`).
-/

namespace CallLedger

variable {α : Type}

/-! ## Stacks -/

namespace Stack

theorem passes_le_pending {frames : List (Frame α)} {frame : Frame α} (h : frame ∈ frames) :
    frame.passes ≤ pending frames := by
  induction frames with
  | nil => cases h
  | cons top rest ih =>
      rw [pending_cons]
      rcases List.mem_cons.mp h with rfl | hrest
      · omega
      · have := ih hrest
        omega

theorem length_le_pending (frames : List (Frame α)) : frames.length ≤ pending frames := by
  induction frames with
  | nil => exact Nat.le_refl _
  | cons top rest ih =>
      rw [pending_cons, List.length_cons]
      omega

theorem pending_modifyTop (stack : Stack α) {change : Frame α → Frame α}
    (h : ∀ frame, (change frame).passes = frame.passes) :
    pending (stack.modifyTop change).frames = pending stack.frames := by
  obtain ⟨frames, capacity⟩ := stack
  cases frames with
  | nil => rfl
  | cons top rest =>
      show pending (change top :: rest) = pending (top :: rest)
      rw [pending_cons, pending_cons, h]

theorem pending_pass_le (stack : Stack α) :
    pending stack.pass.frames ≤ pending stack.frames + 1 := by
  obtain ⟨frames, capacity⟩ := stack
  cases frames with
  | nil => exact Nat.zero_le _
  | cons top rest =>
      show pending ({ top with passes := top.passes + 1 } :: rest) ≤ pending (top :: rest) + 1
      simp only [pending_cons]
      omega

theorem pending_push_le [Amount α] (stack : Stack α) (profile : Profile α) (node : NodeId) (now : α)
    (paused : Bool) :
    pending (stack.push profile node now paused).1.frames ≤ pending stack.frames + 1 := by
  unfold push
  cases profile.methodOf? node with
  | none => exact Nat.le_succ _
  | some method =>
      have hpasses : (if paused then (Frame.opened node method now).pause now
          else Frame.opened node method now).passes = 0 := by
        cases paused with
        | false => rfl
        | true => exact (Frame.samePlace_pause _ now).passes
      show pending (_ :: (stack.unpause now).frames) ≤ _
      rw [pending_cons, hpasses, unpause,
        stack.pending_modifyTop fun frame => (frame.samePlace_unpause now).passes]
      omega

end Stack

/-! ## Contexts -/

namespace Context

/-- No more than so many returns are waited for. -/
def Pends (count : Nat) (context : Context α) : Prop :=
  Stack.pending context.stack.frames ≤ count

variable {count : Nat} {context : Context α}

theorem Pends.modifyTop (h : context.Pends count) {change : Frame α → Frame α}
    (hchange : ∀ frame, (change frame).passes = frame.passes) :
    Pends count { context with stack := context.stack.modifyTop change } :=
  (context.stack.pending_modifyTop hchange).trans_le h

theorem Pends.pass (h : context.Pends count) :
    Pends (count + 1) { context with stack := context.stack.pass } :=
  context.stack.pending_pass_le.trans (Nat.succ_le_succ h)

theorem Pends.mono (h : context.Pends count) : context.Pends (count + 1) :=
  Nat.le_succ_of_le h

variable [Amount α]

theorem steady_pends (count : Nat) :
    ContextTable.Steady fun _ (context : Context α) => context.Pends count where
  switchIn now h := h.modifyTop fun frame => (frame.samePlace_switchIn now).passes
  switchOut _ h := h.modifyTop fun _ => rfl
  fresh _ _ _ _ := Nat.zero_le _

theorem Pends.openCall (h : context.Pends count) (method : MethodId) (event : Event α)
    (paused : Bool) : (context.openCall method event paused).Pends (count + 1) := by
  refine Eq.trans_le (Stack.pending_modifyTop _ ?_) ?_
  · exact fun _ => rfl
  · exact (context.stack.pending_push_le _ _ _ _).trans (Nat.succ_le_succ h)

theorem Pends.called (h : context.Pends count) (event : Event α) (exclusions : Exclusions)
    (paused : Bool) : (context.called event exclusions paused).Pends (count + 1) := by
  unfold Context.called
  cases event.method? with
  | none => exact h.pass
  | some method =>
      simp only []
      generalize context.profile.methods.lookupOrCreate method _ _ exclusions = found
      have hknown : Pends count
          { context with profile := { context.profile with methods := found.1 } } := h
      split
      · exact hknown.pass
      · exact hknown.openCall _ _ _

theorem Pends.returned (h : context.Pends count) (now : α) (paused : Bool) :
    (context.returned now paused).Pends count := by
  have hpopped : Pends count (context.popped now) :=
    (Stack.pending_pop context.stack context.profile now).trans_le ((Nat.sub_le _ _).trans h)
  cases paused with
  | false => exact hpopped
  | true => exact hpopped.modifyTop fun frame => (frame.samePlace_pause now).passes

omit [Amount α] in
theorem Pends.allocated (h : context.Pends count) (event : Event α) :
    (context.allocated event).Pends count := by
  unfold Context.allocated
  split
  · split <;> exact h
  · exact h

omit [Amount α] in
theorem Pends.moved (h : context.Pends count) (event : Event α) :
    (context.moved event).Pends count := by
  refine h.modifyTop ?_
  exact fun _ => rfl

theorem Pends.record (h : context.Pends count) (session : Session α) (event : Event α) :
    (session.record event context).Pends (count + 1) := by
  unfold Session.record
  split
  · split
    · exact h.called _ _ _
    · exact h.called _ _ _
    · exact (h.returned _ _).mono
    · exact (h.returned _ _).mono
    · exact (h.moved _).mono
    · split
      · exact (h.allocated _).mono
      · exact h.mono
  · exact h.mono

end Context

/-! ## Sessions -/

namespace Session

variable [Amount α] {session : Session α} {count : Nat}

theorem pends_unwindAll (session : Session α) (now : α) : ∀ (handles : List Handle)
    {table : ContextTable α}, (table.Everywhere fun _ => Context.Pends count) →
      (handles.foldl (session.unwind now) table).Everywhere fun _ => Context.Pends count := by
  intro handles
  induction handles with
  | nil => exact fun h => h
  | cons handle handles ih =>
      intro table h
      refine ih (Everywhere.unwind h (Context.steady_pends count) session now handle
        (fun hcontext _ => hcontext) fun {context} _ => ?_)
      rw [Context.Pends, context.frames_unwind now]
      exact Nat.zero_le _

/-- An operation adds one return to wait for, at most. -/
theorem pends_after (h : session.contexts.Everywhere fun _ => Context.Pends count)
    (operation : Operation α) :
    (session.after operation).contexts.Everywhere fun _ => Context.Pends (count + 1) := by
  have hmono : ∀ {table : ContextTable α}, (table.Everywhere fun _ => Context.Pends count) →
      table.Everywhere fun _ => Context.Pends (count + 1) :=
    fun htable handle context hget => (htable handle context hget).mono
  have hunwound := fun now => pends_unwindAll session now session.contexts.handles h
  have houtlasts : Outlasts session fun table =>
      table.Everywhere fun _ => Context.Pends (count + 1) :=
    { here := hmono h
      paused := fun now => hmono
        (h.mapLive fun hc => hc.modifyTop fun frame => (frame.samePlace_pause now).passes)
      resumed := fun now => hmono
        (h.mapLive fun hc => hc.modifyTop fun frame => (frame.samePlace_unpause now).passes)
      unwound := fun now => hmono (hunwound now).resetLast
      unwoundFolded := fun now => hmono (ContextTable.Everywhere.foldFibers
        (ContextTable.Everywhere.resetLast (hunwound now)) fun hc _ => hc)
      recorded := fun event => by
        cases hactive : session.phase.isActive with
        | false =>
            rw [Session.handle, hactive]
            exact hmono h
        | true =>
            rw [contexts_handle hactive]
            have hactivated := h.activate (Context.steady_pends count)
              ⟨event.thread, event.fiber⟩ event.sample session.filter
              session.config.initialStackCapacity
            exact (hmono hactivated).modify _
              fun hget => (hactivated _ _ hget).record session event
      folded := fun _ => hmono (h.foldFibers fun hc _ => hc)
      released := ContextTable.everywhere_releaseAll }
  exact houtlasts.after operation

theorem pends_run : ∀ (operations : List (Operation α)) {session : Session α} {count : Nat},
    (session.contexts.Everywhere fun _ => Context.Pends count) →
      (session.run operations).contexts.Everywhere
        fun _ => Context.Pends (count + operations.length) := by
  intro operations
  induction operations with
  | nil => exact fun h => h
  | cons operation operations ih =>
      intro session count h
      have hrest := ih (pends_after h operation)
      rwa [Nat.add_assoc, Nat.add_comm 1] at hrest

/-- From a moment when nothing is open, no counter of what is open gets ahead of the operations. -/
theorem Reachable.counters_le {dumps : Phase → Prop} (h : Reachable dumps session)
    (hphase : session.phase.isActive = false) (operations : List (Operation α)) {handle : Nat}
    {context : Context α}
    (hget : (session.run operations).contexts.get? handle = some context) :
    (∀ frame ∈ context.stack.frames, frame.passes ≤ operations.length) ∧
    (∀ {id : Nat} {node : Node α}, context.profile.tree.node? id = some node →
      node.visits ≤ operations.length) ∧
    ∀ {id : Nat} {record : MethodRecord α}, context.profile.methods.record? id = some record →
      record.visits ≤ operations.length := by
  obtain ⟨excluded, hlawful⟩ := h.nested
  obtain ⟨later, hlater⟩ := (h.run operations).nested
  have hcoherent := (hlater.contexts handle context hget).toCoherent
  have hnothing : session.contexts.Everywhere fun _ => Context.Pends 0 := by
    intro handle context hget
    rw [Context.Pends, hlawful.settled hphase handle context hget]
    exact Nat.le_refl _
  have hpends := pends_run operations hnothing handle context hget
  rw [Nat.zero_add] at hpends
  have hlength := (Stack.length_le_pending context.stack.frames).trans hpends
  refine ⟨fun frame hframe => (Stack.passes_le_pending hframe).trans hpends,
    fun hnode => ?_, fun hrecord => ?_⟩
  · rw [hcoherent.nodeVisits hnode]
    exact List.countP_le_length.trans hlength
  · rw [hcoherent.methodVisits hrecord]
    exact List.countP_le_length.trans hlength

end Session

end CallLedger
