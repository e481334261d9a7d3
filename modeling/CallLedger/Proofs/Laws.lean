import CallLedger.Context.Basic
import CallLedger.Proofs.OpenCalls

/-!
# Laws of a context

Whatever happens to a context is one of few things: its stack is touched in a
way that no open call notices, a call is opened, a frame is popped, an
allocation is noted, or another profile is added. A law that survives the first
four lasts as long as a context is recorded (`Context.Lasting`). One that
survives all five, and holds of a fresh context, holds of every context
(`Context.Law`), however the table of contexts moves activity around.

Nothing is asked of amounts here. A law may be about exact cost, or about the
shape of a profile, which is the same whatever the clock counts in.
-/

namespace CallLedger

variable {α : Type}

/-! ## Stacks -/

namespace Frame

/-- The source position that a frame has reached. -/
def site (frame : Frame α) : CallSite := ⟨frame.file, frame.line⟩

/-- Two states of a frame that differ in its clocks only. -/
structure SamePlace (frame later : Frame α) : Prop where
  openCall : later.openCall = frame.openCall
  passes : later.passes = frame.passes
  site : later.site = frame.site

theorem samePlace_pause (frame : Frame α) (now : α) : frame.SamePlace (frame.pause now) := by
  unfold pause
  split <;> exact ⟨rfl, rfl, rfl⟩

variable [Amount α]

theorem samePlace_unpause (frame : Frame α) (now : α) : frame.SamePlace (frame.unpause now) := by
  unfold unpause
  split <;> exact ⟨rfl, rfl, rfl⟩

theorem samePlace_switchIn (frame : Frame α) (now : α) :
    frame.SamePlace (frame.switchIn now) := by
  unfold switchIn
  split <;> exact ⟨rfl, rfl, rfl⟩

theorem samePlace_switchOut (frame : Frame α) (now : α) :
    frame.SamePlace (frame.switchOut now) := ⟨rfl, rfl, rfl⟩

end Frame

namespace Stack

theorem openCalls_modifyTop (stack : Stack α) {change : Frame α → Frame α}
    (h : ∀ frame, (change frame).openCall = frame.openCall) :
    (stack.modifyTop change).openCalls = stack.openCalls := by
  obtain ⟨frames, capacity⟩ := stack
  cases frames with
  | nil => rfl
  | cons top rest =>
      show (change top).openCall :: _ = top.openCall :: _
      rw [h]

theorem openCalls_credit [Amount α] (stack : Stack α) (total dead : α) :
    (stack.modifyTop (·.credit total dead)).openCalls = credited total stack.openCalls := by
  obtain ⟨frames, capacity⟩ := stack
  cases frames with
  | nil => rfl
  | cons top rest => rfl

/-- Opening a call at a node that is there. -/
theorem push_eq [Amount α] (stack : Stack α) {profile : Profile α} {node method : Nat} (now : α)
    (paused : Bool) (h : profile.methodOf? node = some method) :
    (stack.push profile node now paused).1.openCalls = ⟨node, method, 0⟩ :: stack.openCalls ∧
      (stack.push profile node now paused).2 = profile.enter node method := by
  unfold push
  rw [h]
  refine ⟨?_, rfl⟩
  show Frame.openCall (if paused then _ else _) :: (stack.unpause now).openCalls = _
  rw [show (stack.unpause now).openCalls = stack.openCalls from
    stack.openCalls_modifyTop fun frame => (frame.samePlace_unpause now).openCall]
  split
  · rw [(Frame.samePlace_pause _ now).openCall]
    rfl
  · rfl

/-- A return pays off a pass, or ends the innermost call. Of what the call took in
all, its body has what its callees and its waiting time leave over. -/
theorem pop_cases [Amount α] (stack : Stack α) (profile : Profile α) (now : α) :
    ((stack.pop profile now).2.1.openCalls = stack.openCalls ∧
      (stack.pop profile now).2.2 = profile) ∨
    ∃ call below selfTime waitTime totalTime, stack.openCalls = call :: below ∧
      selfTime = totalTime - call.childTime - waitTime ∧
      (stack.pop profile now).2.1.openCalls = credited totalTime below ∧
      (stack.pop profile now).2.2 =
        profile.settle call.node call.method selfTime waitTime totalTime := by
  obtain ⟨frames, capacity⟩ := stack
  unfold pop
  cases frames with
  | nil => exact Or.inl ⟨rfl, rfl⟩
  | cons top rest =>
      by_cases hpass : top.isPass
      · simp only [hpass, if_true]
        exact Or.inl ⟨rfl, trivial⟩
      · simp only [hpass]
        have hcall := (top.samePlace_unpause now).openCall
        simp only [Frame.openCall, OpenCall.mk.injEq] at hcall
        obtain ⟨hnode, hmethod, hchild⟩ := hcall
        refine Or.inr ⟨top.openCall, rest.map Frame.openCall, (top.unpause now).selfTime now,
          (top.unpause now).waitTime, (top.unpause now).totalTime now, rfl, ?_, ?_, ?_⟩
        · rw [Frame.selfTime, hchild]
          rfl
        · exact openCalls_credit _ _ _
        · show profile.settle (top.unpause now).node (top.unpause now).method _ _ _ = _
          rw [hnode, hmethod]
          rfl

theorem pending_cons (top : Frame α) (rest : List (Frame α)) :
    pending (top :: rest) = top.passes + 1 + pending rest := rfl

/-- Every return takes one of the returns that a stack is waiting for. -/
theorem pending_pop [Amount α] (stack : Stack α) (profile : Profile α) (now : α) :
    pending (stack.pop profile now).2.1.frames = pending stack.frames - 1 := by
  obtain ⟨frames, capacity⟩ := stack
  unfold pop
  cases frames with
  | nil => rfl
  | cons top rest =>
      by_cases hpass : top.isPass
      · simp only [hpass, if_true]
        have hpos : 0 < top.passes := by simpa [Frame.isPass] using hpass
        simp only [pending_cons]
        omega
      · simp only [hpass]
        have hzero : top.passes = 0 := by simpa [Frame.isPass] using hpass
        have hcredit : ∀ total dead : α, pending (({ frames := rest, capacity } :
            Stack α).modifyTop (·.credit total dead)).frames = pending rest := by
          intro total dead
          cases rest with
          | nil => rfl
          | cons caller callers => rfl
        refine (hcredit _ _).trans ?_
        simp only [pending_cons, hzero]
        omega

theorem frames_eq_nil {stack : Stack α} (h : pending stack.frames = 0) :
    stack.frames = [] := by
  cases hframes : stack.frames with
  | nil => rfl
  | cons top rest =>
      rw [hframes] at h
      simp only [pending_cons] at h
      omega

/-- As many returns as a stack is waiting for empty it. -/
theorem popTimes_empty [Amount α] (now : α) :
    ∀ {times : Nat} {stack : Stack α} {profile : Profile α},
    pending stack.frames ≤ times → (popTimes times stack profile now).1.frames = [] := by
  intro times
  induction times with
  | zero =>
      intro stack profile h
      exact frames_eq_nil (Nat.le_zero.mp h)
  | succ times ih =>
      intro stack profile h
      have hpop := pending_pop stack profile now
      show (popTimes times (stack.pop profile now).2.1 (stack.pop profile now).2.2
        now).1.frames = []
      exact ih (by omega)

end Stack

/-! ## Laws of a context -/

namespace Context

theorem openCalls_of_frames {context : Context α} (h : context.stack.frames = []) :
    context.stack.openCalls = [] := by
  rw [Stack.openCalls, h]
  rfl

variable [Amount α]

/-- A return without regard to pauses. -/
def popped (context : Context α) (now : α) : Context α :=
  let (_, stack, profile) := context.stack.pop context.profile now
  { context with profile := profile, stack := stack }

section Popped

variable {context : Context α} {top : Frame α} {rest : List (Frame α)} {now : α}

theorem popped_empty (h : context.stack.frames = []) : context.popped now = context := by
  rw [popped, Stack.pop, h]

theorem popped_pass (hframes : context.stack.frames = top :: rest) (hpass : top.isPass = true) :
    context.popped now =
      { context with stack := context.stack.modifyTop fun frame =>
          { frame with passes := frame.passes - 1 } } := by
  obtain ⟨key, traced, profile, frames, capacity⟩ := context
  cases hframes
  unfold popped Stack.pop
  simp only [hpass, if_true]
  rfl

theorem popped_close (hframes : context.stack.frames = top :: rest)
    (hpass : ¬ top.isPass = true) :
    context.popped now =
      { context with
        profile := context.profile.settle top.node top.method ((top.unpause now).selfTime now)
          (top.unpause now).waitTime ((top.unpause now).totalTime now)
        stack := ({ context.stack with frames := rest } : Stack α).modifyTop
          (·.credit ((top.unpause now).totalTime now) (top.unpause now).deadTime) } := by
  have hcall := (top.samePlace_unpause now).openCall
  simp only [Frame.openCall, OpenCall.mk.injEq] at hcall
  obtain ⟨hnode, hmethod, -⟩ := hcall
  obtain ⟨key, traced, profile, frames, capacity⟩ := context
  cases hframes
  unfold popped Stack.pop
  simp only [hpass, hnode, hmethod]
  rfl

end Popped

/-- What recording keeps, under the given exclusions. -/
structure Lasting (exclusions : Exclusions) (law : Context α → Prop) : Prop where
  restacked : ∀ {context : Context α} {stack : Stack α}, law context →
    stack.openCalls = context.stack.openCalls → law { context with stack := stack }
  called : ∀ {context : Context α} (event : Event α) (paused : Bool), law context →
    law (context.called event exclusions paused)
  popped : ∀ {context : Context α} (now : α), law context → law (context.popped now)
  allocated : ∀ {context : Context α} (event : Event α), law context →
    law (context.allocated event)

/-- What every context has that recording and merging bring about. -/
structure Law (exclusions : Exclusions) (law : Context α → Prop) : Prop
    extends Lasting exclusions law where
  fresh : ∀ key traced capacity, law (.fresh key traced capacity)
  merge : ∀ {context other : Context α}, law context → law other →
    context.stack.frames = [] → other.stack.frames = [] → law (context.merge other)

variable {exclusions : Exclusions} {law : Context α → Prop}

theorem Lasting.pause (h : Lasting exclusions law) {context : Context α} (now : α)
    (hc : law context) : law (context.pause now) :=
  h.restacked hc (context.stack.openCalls_modifyTop fun top => (top.samePlace_pause now).openCall)

theorem Lasting.resume (h : Lasting exclusions law) {context : Context α} (now : α)
    (hc : law context) : law (context.resume now) :=
  h.restacked hc (context.stack.openCalls_modifyTop fun top => (top.samePlace_unpause now).openCall)

theorem Lasting.switchIn (h : Lasting exclusions law) {context : Context α} (now : α)
    (hc : law context) : law (context.switchIn now) :=
  h.restacked hc (context.stack.openCalls_modifyTop fun top => (top.samePlace_switchIn now).openCall)

theorem Lasting.switchOut (h : Lasting exclusions law) {context : Context α} (now : α)
    (hc : law context) : law (context.switchOut now) :=
  h.restacked hc (context.stack.openCalls_modifyTop fun _ => rfl)

theorem Lasting.moved (h : Lasting exclusions law) {context : Context α} (event : Event α)
    (hc : law context) : law (context.moved event) :=
  h.restacked hc (context.stack.openCalls_modifyTop fun _ => rfl)

theorem Lasting.returned (h : Lasting exclusions law) {context : Context α} (now : α)
    (paused : Bool) (hc : law context) : law (context.returned now paused) := by
  have hpopped := h.popped now hc
  cases paused with
  | false => exact hpopped
  | true => exact h.pause now hpopped

/-- What a return keeps, as many returns keep. -/
theorem popTimes_keeps {law : Context α → Prop} {now : α}
    (hpopped : ∀ {context : Context α}, law context → law (context.popped now)) :
    ∀ {times : Nat} {context : Context α}, law context →
      law { context with
        profile := (Stack.popTimes times context.stack context.profile now).2
        stack := (Stack.popTimes times context.stack context.profile now).1 } := by
  intro times
  induction times with
  | zero => intro context hc; exact hc
  | succ times ih =>
      intro context hc
      have hrest := ih (hpopped hc)
      rw [Stack.popTimes]
      exact hrest

theorem Lasting.unwind (h : Lasting exclusions law) {context : Context α} (now : α)
    (hc : law context) : law (context.unwind now) :=
  popTimes_keeps (h.popped now) hc

theorem frames_unwind (context : Context α) (now : α) :
    (context.unwind now).stack.frames = [] :=
  Stack.popTimes_empty now (Nat.le_refl _)

theorem unwind_of_empty {context : Context α} (h : context.stack.frames = []) (now : α) :
    context.unwind now = context := by
  unfold unwind Stack.unwind
  rw [h]
  rfl

/-- The returns at the end of a run, one by one. -/
theorem unwind_popped {context : Context α} (h : context.stack.frames ≠ []) (now : α) :
    context.unwind now = (context.popped now).unwind now := by
  have hpop := Stack.pending_pop context.stack context.profile now
  obtain ⟨top, rest, hframes⟩ := List.exists_cons_of_ne_nil h
  unfold unwind Stack.unwind popped
  simp only []
  rw [hpop, hframes, Stack.pending_cons, Nat.add_right_comm, Nat.add_sub_cancel,
    Stack.popTimes]

end Context

end CallLedger
