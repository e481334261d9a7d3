import CallLedger.Proofs.Nesting

/-!
# Frames, nodes and visits agree

Whether a return adds inclusive cost is read off two counters, so these have to count what is
open. Every frame is bound to a node of its method. The nodes go down the call tree from a root at
the bottom of the stack, and stay where a method calls itself (`Context.Coherent`). The visits of
a node and of a record are then the frames of that node and of that method, and no return finds a
counter at zero.

A run that ends handles returns until there is nothing left to answer one (`Context.Unwinds`).
How many that takes is known beforehand, and when it is done all counters are back at zero
(`Context.AtRest`), however the calls and returns of the run were paired.
-/

namespace CallLedger

variable {α : Type}

/-! ## Stacks -/

/-- A frame over another one is on its node, when they have one method, or on a child of that. -/
structure CallTree.Descends (tree : CallTree α) (upper lower : Frame α) : Prop where
  stays_iff : upper.node = lower.node ↔ upper.method = lower.method
  place : upper.node = lower.node ∨ upper.node ∈ tree.children lower.node

namespace Profile

variable {profile : Profile α}

/-- The frame below decides whether a call stays or goes on to a child. -/
theorem Stacked.descends {upper lower : Frame α} {rest : List (Frame α)}
    (h : profile.Stacked ((upper :: lower :: rest).map Frame.openCall)) (hs : profile.Sound)
    (hu : profile.Unstuttered) : profile.tree.Descends upper lower := by
  obtain ⟨hupper, hplace, hbelow⟩ := h
  obtain ⟨node, hnode, hmethod⟩ := methodOf?_eq_some hupper
  obtain ⟨under, hunder, hother⟩ := methodOf?_eq_some hbelow.1
  change profile.tree.node? upper.node = some node at hnode
  change profile.tree.node? lower.node = some under at hunder
  change node.method = upper.method at hmethod
  change under.method = lower.method at hother
  rcases hplace with hsame | hparent
  · have hstays : upper.node = lower.node := (Option.some.inj hsame).symm
    rw [hstays, hunder, Option.some.injEq] at hnode
    subst hnode
    exact ⟨iff_of_true hstays (hmethod.symm.trans hother), Or.inl hstays⟩
  · change profile.tree.parent? upper.node = some lower.node at hparent
    have habove : node.parent = some lower.node :=
      (CallTree.parent?_eq hnode).symm.trans hparent
    refine ⟨iff_of_false (fun hstays => ?_) (fun hsame => ?_), Or.inr ?_⟩
    · have hlt := hs.tree.parent_lt hnode habove
      rw [hstays] at hlt
      exact Nat.lt_irrefl _ hlt
    · exact hu.method_ne hs hnode habove hunder (hmethod.trans (hsame.trans hother.symm))
    · exact (hs.tree.mem_children (CallTree.node?_lt hunder)).mpr hparent

theorem Stacked.isChain (hs : profile.Sound) (hu : profile.Unstuttered) :
    ∀ {frames : List (Frame α)}, profile.Stacked (frames.map Frame.openCall) →
      frames.IsChain profile.tree.Descends := by
  intro frames
  induction frames with
  | nil => intro _; exact List.isChain_nil
  | cons upper rest ih =>
      intro h
      cases rest with
      | nil => exact List.isChain_singleton _
      | cons lower rest =>
          exact List.isChain_cons_cons.mpr ⟨h.descends hs hu, ih h.2.2⟩

theorem Stacked.getLast?_mem_roots (hs : profile.Sound) :
    ∀ {frames : List (Frame α)}, profile.Stacked (frames.map Frame.openCall) →
      ∀ {frame : Frame α}, frames.getLast? = some frame → frame.node ∈ profile.tree.roots := by
  intro frames
  induction frames with
  | nil => intro _ frame hlast; cases hlast
  | cons upper rest ih =>
      intro h frame hlast
      cases rest with
      | nil =>
          cases hlast
          obtain ⟨node, hnode, -⟩ := methodOf?_eq_some h.1
          exact hs.tree.mem_roots.mpr ⟨CallTree.node?_lt hnode, h.2.1.resolve_left nofun⟩
      | cons lower rest =>
          rw [List.getLast?_cons_cons] at hlast
          exact ih h.2.2 hlast

end Profile

/-! ## Coherence -/

namespace Context

variable {context : Context α}

/-- What stack, tree and counters have to do with each other. -/
structure Coherent (context : Context α) : Prop where
  bottom : ∀ {frame : Frame α}, context.stack.frames.getLast? = some frame →
    frame.node ∈ context.profile.tree.roots
  chain : context.stack.frames.IsChain context.profile.tree.Descends
  bound : ∀ frame ∈ context.stack.frames,
    context.profile.methodOf? frame.node = some frame.method
  nodeVisits : ∀ {id : Nat} {node : Node α}, context.profile.tree.node? id = some node →
    node.visits = context.stack.frames.countP (·.node = id)
  methodVisits : ∀ {id : Nat} {record : MethodRecord α},
    context.profile.methods.record? id = some record →
      record.visits = context.stack.frames.countP (·.method = id)
  /-- A return that closes a call finds neither of its counters at zero. -/
  counted : ∀ frame ∈ context.stack.frames, ∃ node record,
    context.profile.tree.node? frame.node = some node ∧
      context.profile.methods.record? frame.method = some record ∧
        0 < node.visits ∧ 0 < record.visits

theorem Nested.toCoherent {exclusions : Exclusions}
    (h : context.Nested exclusions) : context.Coherent where
  bottom := h.orderly.stacked.getLast?_mem_roots h.orderly.sound
  chain := h.orderly.stacked.isChain h.orderly.sound h.unstuttered
  bound frame hframe := h.orderly.stacked.methodOf? (List.mem_map_of_mem hframe)
  nodeVisits hid := by
    rw [h.orderly.nodeVisits hid, Stack.openCalls, List.countP_map]
    rfl
  methodVisits hid := by
    rw [h.orderly.methodVisits hid, Stack.openCalls, List.countP_map]
    rfl
  counted frame hframe := by
    have hopen : frame.openCall ∈ context.stack.openCalls := List.mem_map_of_mem hframe
    obtain ⟨node, hnode, hmethod⟩ :=
      Profile.methodOf?_eq_some (h.orderly.stacked.methodOf? hopen)
    change node.method = frame.method at hmethod
    obtain ⟨record, hrecord, -⟩ := h.orderly.sound.bound hnode
    refine ⟨node, record, hnode, hmethod ▸ hrecord, ?_, ?_⟩
    · rw [h.orderly.nodeVisits hnode]
      exact List.countP_pos_iff.mpr ⟨_, hopen, decide_eq_true rfl⟩
    · rw [h.orderly.methodVisits hrecord]
      exact List.countP_pos_iff.mpr ⟨_, hopen, decide_eq_true hmethod.symm⟩

/-- Nothing is open, and nothing is counted as open. -/
structure AtRest (context : Context α) : Prop where
  frames : context.stack.frames = []
  nodes : ∀ {id : Nat} {node : Node α}, context.profile.tree.node? id = some node →
    node.visits = 0
  records : ∀ {id : Nat} {record : MethodRecord α},
    context.profile.methods.record? id = some record → record.visits = 0

theorem Coherent.atRest (h : context.Coherent) (hframes : context.stack.frames = []) :
    context.AtRest where
  frames := hframes
  nodes hid := by
    rw [h.nodeVisits hid, hframes]
    rfl
  records hid := by
    rw [h.methodVisits hid, hframes]
    rfl

/-! ## Unwinding -/

variable [Amount α] {now : α}

/-- Returns are handled at one time, so many of them, until none is answered any more. -/
inductive Unwinds (now : α) : Context α → Nat → Context α → Prop
  | settled {context : Context α} (hnone : (context.stack.pop context.profile now).1 = none) :
      Unwinds now context 0 context
  | returned {context after : Context α} {frame : Frame α} {times : Nat}
      (hframe : (context.stack.pop context.profile now).1 = some frame)
      (hrest : Unwinds now (context.popped now) times after) :
      Unwinds now context (times + 1) after

/-- A return is answered as long as a frame is open. -/
theorem pop_eq_none_iff : (context.stack.pop context.profile now).1 = none ↔
    context.stack.frames = [] := by
  unfold Stack.pop
  cases context.stack.frames with
  | nil => exact iff_of_true rfl rfl
  | cons top rest =>
      refine iff_of_false ?_ (List.cons_ne_nil _ _)
      simp only []
      split <;> exact Option.some_ne_none _

theorem Unwinds.eq {after : Context α} {times : Nat} (h : Unwinds now context times after) :
    times = Stack.pending context.stack.frames ∧ after = context.unwind now := by
  induction h with
  | settled hnone =>
      have hframes := pop_eq_none_iff.mp hnone
      exact ⟨by rw [hframes]; rfl, (unwind_of_empty hframes now).symm⟩
  | @returned context after frame times hframe _ ih =>
      have hopen : context.stack.frames ≠ [] := by
        intro hframes
        rw [pop_eq_none_iff.mpr hframes] at hframe
        cases hframe
      have hpending : Stack.pending context.stack.frames ≠ 0 :=
        fun hzero => hopen (Stack.frames_eq_nil hzero)
      have hpop := Stack.pending_pop context.stack context.profile now
      obtain ⟨rfl, rfl⟩ := ih
      refine ⟨?_, (unwind_popped hopen now).symm⟩
      show Stack.pending (context.stack.pop context.profile now).2.1.frames + 1 = _
      omega

theorem unwinds_unwind (now : α) : ∀ {times : Nat} {context : Context α},
    times = Stack.pending context.stack.frames →
      Unwinds now context times (context.unwind now) := by
  intro times
  induction times with
  | zero =>
      intro context htimes
      have hframes := Stack.frames_eq_nil htimes.symm
      rw [unwind_of_empty hframes]
      exact .settled (pop_eq_none_iff.mpr hframes)
  | succ times ih =>
      intro context htimes
      have hopen : context.stack.frames ≠ [] := by
        intro hframes
        rw [hframes] at htimes
        cases htimes
      have hanswered : (context.stack.pop context.profile now).1 ≠ none :=
        mt pop_eq_none_iff.mp hopen
      obtain ⟨frame, hframe⟩ := Option.ne_none_iff_exists'.mp hanswered
      have hpop := Stack.pending_pop context.stack context.profile now
      rw [unwind_popped hopen]
      refine .returned hframe (ih ?_)
      show times = Stack.pending (context.stack.pop context.profile now).2.1.frames
      omega

/-- Unwinding ends, after as many returns as the frames and their passes take. -/
theorem unwinds_iff {after : Context α} {times : Nat} : Unwinds now context times after ↔
    times = (context.stack.frames.map fun frame => 1 + frame.passes).sum ∧
      after = context.unwind now := by
  have hsum : ∀ frames : List (Frame α),
      Stack.pending frames = (frames.map fun frame => 1 + frame.passes).sum := by
    intro frames
    induction frames with
    | nil => rfl
    | cons top rest ih => rw [Stack.pending_cons, ih, List.map_cons, List.sum_cons, Nat.add_comm 1]
  rw [← hsum]
  refine ⟨Unwinds.eq, ?_⟩
  rintro ⟨htimes, rfl⟩
  exact unwinds_unwind now htimes

end Context

/-! ## Every session -/

namespace Session

variable [Amount α]

/-- In every session that can come about the contexts are coherent, and unwinding one ends. A
session that is stopped leaves them all at rest. -/
theorem Reachable.coherent {dumps : Phase → Prop} {session : Session α}
    (h : Reachable dumps session) :
    (∀ {handle : Nat} {context : Context α}, session.contexts.get? handle = some context →
      context.Coherent ∧ ∀ (now : α) (times : Nat) (after : Context α),
        Context.Unwinds now context times after ↔
          times = (context.stack.frames.map fun frame => 1 + frame.passes).sum ∧
            after = context.unwind now) ∧
    ∀ now : α, session.phase.isActive = true →
      ∃ stopped, session.stop now = .ok stopped ∧
        stopped.contexts.Everywhere fun _ context => context.AtRest := by
  obtain ⟨excluded, hlawful⟩ := h.nested
  refine ⟨fun hget => ⟨(hlawful.contexts _ _ hget).toCoherent,
    fun now times after => Context.unwinds_iff⟩, fun now hactive => ?_⟩
  have hstopped := hlawful.stop (Context.nestedLaw excluded) now
  have hfinished : (session.after (.stop now)).phase.isActive = false := by
    rw [after_stop, if_pos hactive]
    rfl
  refine ⟨session.after (.stop now), ?_, fun handle context hget => ?_⟩
  · rw [after_stop, if_pos hactive, Session.stop, if_pos hactive]
  · exact (hstopped.contexts handle context hget).toCoherent.atRest
      (hstopped.settled hfinished handle context hget)

/-- A return too many at first, then a method that calls itself, a call that names no method, and
a call back from another one. It takes five returns to close the four calls. -/
theorem coherent_call_back : ∃ (session stopped : Session Int) (context : Context Int),
    (unconfigured : Session Int).run [.start 0, .event ((Event.returned.on 1 0).sampled 5),
      .event (((Event.call ⟨.owner .plain, "A"⟩ "f").on 1 0).sampled 10),
      .event (((Event.call ⟨.owner .plain, "A"⟩ "f").on 1 0).sampled 20),
      .event (((Event.bare .call).on 1 0).sampled 30),
      .event (((Event.call ⟨.owner .plain, "A"⟩ "g").on 1 0).sampled 40),
      .event (((Event.call ⟨.owner .plain, "A"⟩ "f").on 1 0).sampled 50)] = session ∧
    session.contexts.get? 0 = some context ∧
    (context.stack.frames.map fun frame => (frame.node, frame.method, frame.passes)) =
      [(2, 0, 0), (1, 1, 0), (0, 0, 1), (0, 0, 0)] ∧
    context.Coherent ∧ Context.Unwinds 60 context 5 (context.unwind 60) ∧
    session.stop 60 = .ok stopped ∧
    stopped.contexts.Everywhere fun _ context => context.AtRest := by
  generalize hrun : Session.run (α := Int) _ _ = session
  have hreachable : Reachable (fun _ => True) session :=
    hrun ▸ (reachable_unconfigured _).run _
  have hshown : (session.contexts.get? 0).map (fun context =>
      context.stack.frames.map fun frame => (frame.node, frame.method, frame.passes)) =
      some [(2, 0, 0), (1, 1, 0), (0, 0, 1), (0, 0, 0)] := by
    rw [← hrun]
    decide +kernel
  obtain ⟨context, hcontext, hframes⟩ := Option.map_eq_some_iff.mp hshown
  have hactive : session.phase.isActive = true := by
    rw [← hrun]
    decide +kernel
  have hcoherent := hreachable.coherent
  obtain ⟨stopped, hstopped, hrest⟩ := hcoherent.2 60 hactive
  obtain ⟨hhere, hunwinds⟩ := hcoherent.1 hcontext
  have hcount : (context.stack.frames.map fun frame => 1 + frame.passes) = [1, 1, 2, 1] := by
    have hpasses := congrArg (List.map fun entry : Nat × Nat × Nat => 1 + entry.2.2) hframes
    rw [List.map_map] at hpasses
    exact hpasses
  refine ⟨session, stopped, context, rfl, hcontext, hframes, hhere,
    (hunwinds 60 5 _).mpr ⟨?_, rfl⟩, hstopped, hrest⟩
  rw [hcount]
  rfl

end Session

end CallLedger
