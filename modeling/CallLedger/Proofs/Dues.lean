import CallLedger.Proofs.ExactAmount
import CallLedger.Stack.Basic

/-!
# What is due

A call is charged when it ends. Until then its costs lie in its frame: since when it
has been open, how long it was paused, how long it waited, and what its callees
took. What is due at a moment is what all open calls would be charged if they
ended there, the innermost first, each one handing its time and its pauses on to
its caller. A pause or a wait that is open counts as if it ended too.

Two things are said about it. When time passes, exactly the lines of the open
calls grow (`due_later`): the innermost call spends or waits, and every node and
method with an open call goes on. And opening and closing pauses and waits
takes no time, so it changes nothing (`due_congr`).
-/

namespace CallLedger

variable {α : Type}

/-! ## Frames at rest -/

/-- The frame is neither paused nor waiting. -/
def Frame.AtRest (frame : Frame α) : Prop := frame.pausedAt = none ∧ frame.switchedAt = none

/-- Only the innermost frame may be paused, and only that of a context that is not
active waits. -/
structure Resting (active : Bool) (frames : List (Frame α)) : Prop where
  callers : ∀ frame ∈ frames.tail, frame.AtRest
  waits : ∀ frame ∈ frames.head?, frame.switchedAt.isSome = !active

/-- Whether the innermost frame is paused. -/
def Pauses (paused : Bool) (frames : List (Frame α)) : Prop :=
  ∀ frame ∈ frames.head?, frame.pausedAt.isSome = paused

theorem Resting.modifyTop {active after : Bool} {stack : Stack α}
    (h : Resting active stack.frames) {change : Frame α → Frame α}
    (hwaits : ∀ top ∈ stack.frames.head?, (change top).switchedAt.isSome = !after) :
    Resting after (stack.modifyTop change).frames := by
  obtain ⟨frames, capacity⟩ := stack
  cases frames with
  | nil => exact ⟨h.callers, fun _ hmem => nomatch hmem⟩
  | cons top rest =>
      refine ⟨h.callers, fun frame hmem => ?_⟩
      cases hmem
      exact hwaits top rfl

theorem Pauses.modifyTop {stack : Stack α} {change : Frame α → Frame α} {paused : Bool}
    (h : ∀ top ∈ stack.frames.head?, (change top).pausedAt.isSome = paused) :
    Pauses paused (stack.modifyTop change).frames := by
  obtain ⟨frames, capacity⟩ := stack
  intro frame hmem
  cases frames with
  | nil => exact nomatch hmem
  | cons top rest =>
      cases hmem
      exact h top rfl

/-- The caller of a call that ended neither is paused nor waits. -/
theorem resting_credit [Amount α] {stack : Stack α} (h : ∀ frame ∈ stack.frames, frame.AtRest)
    (total dead : α) : Resting true (stack.modifyTop (·.credit total dead)).frames := by
  obtain ⟨frames, capacity⟩ := stack
  cases frames with
  | nil => exact ⟨nofun, nofun⟩
  | cons caller callers =>
      refine ⟨fun frame hmem => h frame (List.mem_cons_of_mem _ hmem), fun frame hmem => ?_⟩
      cases hmem
      show caller.switchedAt.isSome = false
      rw [(h caller List.mem_cons_self).2]
      rfl

theorem Pauses.pass {stack : Stack α} {paused : Bool} (h : Pauses paused stack.frames) :
    Pauses paused stack.pass.frames :=
  Pauses.modifyTop fun top htop => h top htop

/-! ## Lines of the account -/

/-- What time is attributed to. -/
inductive Line where
  | selfTime (node : NodeId)
  | waitTime (node : NodeId)
  | totalTime (node : NodeId)
  /-- The inclusive time of a method. -/
  | methodTime (method : MethodId)

/-- The lines of callers, that go on while a callee runs. -/
def carries (frames : List (Frame α)) : Line → Bool
  | .selfTime _ | .waitTime _ => false
  | .totalTime node => frames.any (·.node = node)
  | .methodTime method => frames.any (·.method = method)

/-- The lines on which time passes while a context is active, or is not. -/
def accrues (active : Bool) (frames : List (Frame α)) : Line → Bool
  | .selfTime node => active && frames.head?.any (·.node = node)
  | .waitTime node => !active && frames.head?.any (·.node = node)
  | .totalTime node => frames.any (·.node = node)
  | .methodTime method => frames.any (·.method = method)

theorem carries_nil (line : Line) : carries ([] : List (Frame α)) line = false := by
  cases line with
  | selfTime node => rfl
  | waitTime node => rfl
  | totalTime node => rfl
  | methodTime method => rfl

theorem accrues_nil (active : Bool) (line : Line) :
    accrues active ([] : List (Frame α)) line = false := by
  cases line with
  | selfTime node => exact Bool.and_false _
  | waitTime node => exact Bool.and_false _
  | totalTime node => rfl
  | methodTime method => rfl

variable [ExactAmount α]

/-! ## One frame -/

namespace Frame

/-- The waiting time including a wait that is still open. -/
def waitUntil (frame : Frame α) (now : α) : α :=
  frame.waitTime + match frame.switchedAt with
    | some switched => now - switched - (frame.deadUntil now - frame.switchDead)
    | none => 0

/-- The inclusive time, given how long the callees that end along with the frame were
paused. -/
def totalUntil (frame : Frame α) (now dead : α) : α :=
  now - frame.start - (frame.deadUntil now + dead)

/-- The time of the body, given what those callees took. -/
def selfUntil (frame : Frame α) (now child dead : α) : α :=
  frame.totalUntil now dead - (frame.childTime + child) - frame.waitUntil now

/-- Two frames that come to the same at a moment. -/
structure SameUntil (now : α) (frame other : Frame α) : Prop where
  node : other.node = frame.node
  method : other.method = frame.method
  start : other.start = frame.start
  childTime : other.childTime = frame.childTime
  dead : other.deadUntil now = frame.deadUntil now
  wait : other.waitUntil now = frame.waitUntil now

variable {frame : Frame α} {now later : α}

theorem AtRest.deadUntil (h : frame.AtRest) (now : α) : frame.deadUntil now = frame.deadTime := by
  rw [Frame.deadUntil, h.1]
  exact add_zero _

theorem AtRest.waitUntil (h : frame.AtRest) (now : α) : frame.waitUntil now = frame.waitTime := by
  rw [Frame.waitUntil, h.2]
  exact add_zero _

theorem sameUntil_pause (frame : Frame α) (now : α) : SameUntil now frame (frame.pause now) := by
  cases hpaused : frame.pausedAt with
  | none =>
      have hdead : (frame.pause now).deadUntil now = frame.deadUntil now := by
        rw [pause, hpaused, deadUntil, deadUntil, hpaused]
        show frame.deadTime + (now - now) = _
        rw [sub_self]
      have hwait : (frame.pause now).waitUntil now = frame.waitUntil now := by
        rw [waitUntil, hdead, pause, hpaused]
        rfl
      rw [pause, hpaused] at hdead hwait ⊢
      exact ⟨rfl, rfl, rfl, rfl, hdead, hwait⟩
  | some since =>
      rw [pause, hpaused]
      exact ⟨rfl, rfl, rfl, rfl, rfl, rfl⟩

theorem sameUntil_unpause (frame : Frame α) (now : α) :
    SameUntil now frame (frame.unpause now) := by
  cases hpaused : frame.pausedAt with
  | none =>
      rw [unpause, hpaused]
      exact ⟨rfl, rfl, rfl, rfl, rfl, rfl⟩
  | some since =>
      have hdead : (frame.unpause now).deadUntil now = frame.deadUntil now := by
        rw [unpause, hpaused, deadUntil, deadUntil, hpaused]
        exact add_zero _
      have hwait : (frame.unpause now).waitUntil now = frame.waitUntil now := by
        rw [waitUntil, hdead, unpause, hpaused]
        rfl
      rw [unpause, hpaused] at hdead hwait ⊢
      exact ⟨rfl, rfl, rfl, rfl, hdead, hwait⟩

theorem sameUntil_switchIn (frame : Frame α) (now : α) :
    SameUntil now frame (frame.switchIn now) := by
  cases hswitched : frame.switchedAt with
  | none =>
      rw [switchIn, hswitched]
      exact ⟨rfl, rfl, rfl, rfl, rfl, rfl⟩
  | some since =>
      have hwait : (frame.switchIn now).waitUntil now = frame.waitUntil now := by
        rw [switchIn, hswitched, waitUntil, waitUntil, hswitched]
        exact add_zero _
      rw [switchIn, hswitched] at hwait ⊢
      exact ⟨rfl, rfl, rfl, rfl, rfl, hwait⟩

theorem sameUntil_switchOut (h : frame.switchedAt = none) (now : α) :
    SameUntil now frame (frame.switchOut now) := by
  have hdead : (frame.switchOut now).deadUntil now = frame.deadUntil now := rfl
  refine ⟨rfl, rfl, rfl, rfl, hdead, ?_⟩
  show frame.waitTime + (now - now - (frame.deadUntil now - frame.deadUntil now)) = _
  rw [waitUntil, h, sub_self, sub_self, sub_self]

end Frame

/-! ## What a call is charged -/

/-- What a call is charged when it ends. Its inclusive time only counts when no other
call of the node, or of the method, is open. -/
def charge (frame : Frame α) (below : List (Frame α)) (selfTime waitTime totalTime : α) :
    Line → α
  | .selfTime node => if frame.node = node then selfTime else 0
  | .waitTime node => if frame.node = node then waitTime else 0
  | .totalTime node =>
    if frame.node = node ∧ ∀ other ∈ below, other.node ≠ node then totalTime else 0
  | .methodTime method =>
    if frame.method = method ∧ ∀ other ∈ below, other.method ≠ method then totalTime else 0

/-- What the open calls are charged if they end now, given what callees that end along
with them took and how long these were paused. -/
def due (now : α) : (frames : List (Frame α)) → (child dead : α) → Line → α
  | [], _, _ => 0
  | frame :: below, child, dead =>
    charge frame below (frame.selfUntil now child dead) (frame.waitUntil now)
        (frame.totalUntil now dead) +
      due now below (frame.totalUntil now dead) (frame.deadUntil now + dead)

theorem charge_zero (frame : Frame α) (below : List (Frame α)) : charge frame below 0 0 0 = 0 := by
  funext line
  cases line with
  | selfTime node => exact ite_self 0
  | waitTime node => exact ite_self 0
  | totalTime node => exact ite_self 0
  | methodTime method => exact ite_self 0

theorem charge_add (frame : Frame α) (below : List (Frame α)) (s w t s' w' t' : α) :
    charge frame below (s + s') (w + w') (t + t') =
      charge frame below s w t + charge frame below s' w' t' := by
  funext line
  rw [Pi.add_apply]
  cases line with
  | selfTime node =>
      simp only [charge]
      split
      · rfl
      · exact (add_zero 0).symm
  | waitTime node =>
      simp only [charge]
      split
      · rfl
      · exact (add_zero 0).symm
  | totalTime node =>
      simp only [charge]
      split
      · rfl
      · exact (add_zero 0).symm
  | methodTime method =>
      simp only [charge]
      split
      · rfl
      · exact (add_zero 0).symm

/-- Inclusive time goes on for a node or method that is open here or further out, and
is counted once. -/
theorem charge_carries (frame : Frame α) (below : List (Frame α)) (s w t : α) (line : Line) :
    charge frame below s w t line + (if carries below line then t else 0) =
      match line with
      | .selfTime node => if frame.node = node then s else 0
      | .waitTime node => if frame.node = node then w else 0
      | .totalTime node => if (frame :: below).any (·.node = node) then t else 0
      | .methodTime method => if (frame :: below).any (·.method = method) then t else 0 := by
  have honce : ∀ (here : Prop) (out : Prop) [Decidable here] [Decidable out],
      (if here ∧ ¬out then t else 0) + (if out then t else 0) = if here ∨ out then t else 0 := by
    intro here out _ _
    by_cases hout : out
    · simp [hout]
    · simp [hout]
  cases line with
  | selfTime node => simp [charge, carries]
  | waitTime node => simp [charge, carries]
  | totalTime node =>
      have h := honce (frame.node = node) (∃ other ∈ below, other.node = node)
      simp only [charge, carries, List.any_eq_true, decide_eq_true_eq, List.any_cons,
        Bool.or_eq_true]
      simpa using h
  | methodTime method =>
      have h := honce (frame.method = method) (∃ other ∈ below, other.method = method)
      simp only [charge, carries, List.any_eq_true, decide_eq_true_eq, List.any_cons,
        Bool.or_eq_true]
      simpa using h

/-! ## No time passes -/

theorem charge_congr {now : α} {frame other : Frame α} (h : Frame.SameUntil now frame other)
    (below : List (Frame α)) (selfTime waitTime totalTime : α) :
    charge other below selfTime waitTime totalTime =
      charge frame below selfTime waitTime totalTime := by
  funext line
  cases line with
  | selfTime node => simp only [charge, h.node]
  | waitTime node => simp only [charge, h.node]
  | totalTime node => simp only [charge, h.node]
  | methodTime method => simp only [charge, h.method]

theorem due_congr {now : α} {frame other : Frame α} (h : Frame.SameUntil now frame other)
    (below : List (Frame α)) (child dead : α) :
    due now (other :: below) child dead = due now (frame :: below) child dead := by
  have htotal : other.totalUntil now dead = frame.totalUntil now dead := by
    rw [Frame.totalUntil, h.start, h.dead]
    rfl
  have hself : other.selfUntil now child dead = frame.selfUntil now child dead := by
    rw [Frame.selfUntil, htotal, h.childTime, h.wait]
    rfl
  rw [due, due, charge_congr h, htotal, hself, h.wait, h.dead]

/-! ## Time passes -/

/-- While the callees that will end along with them take time, callers take the same. -/
theorem due_callers (now later : α) (line : Line) : ∀ {frames : List (Frame α)} {child dead : α},
    (∀ frame ∈ frames, frame.AtRest) →
      due later frames (child + (later - now)) dead line =
        due now frames child dead line + if carries frames line then later - now else 0 := by
  intro frames
  induction frames with
  | nil =>
      intro child dead _
      rw [carries_nil]
      exact (add_zero _).symm
  | cons frame below ih =>
      intro child dead hrest
      have hframe := hrest frame List.mem_cons_self
      have hbelow := fun other hother => hrest other (List.mem_cons_of_mem _ hother)
      have htotal : frame.totalUntil later dead =
          frame.totalUntil now dead + (later - now) := by
        rw [Frame.totalUntil, Frame.totalUntil, hframe.deadUntil, hframe.deadUntil]
        abel
      have hwait : frame.waitUntil later = frame.waitUntil now := by
        rw [hframe.waitUntil, hframe.waitUntil]
      have hself : frame.selfUntil later (child + (later - now)) dead =
          frame.selfUntil now child dead := by
        rw [Frame.selfUntil, Frame.selfUntil, htotal, hwait]
        abel
      have hdead : frame.deadUntil later = frame.deadUntil now := by
        rw [hframe.deadUntil, hframe.deadUntil]
      have hcharge : charge frame below (frame.selfUntil now child dead) (frame.waitUntil now)
          (frame.totalUntil now dead + (later - now)) =
          charge frame below (frame.selfUntil now child dead) (frame.waitUntil now)
            (frame.totalUntil now dead) + charge frame below 0 0 (later - now) := by
        rw [← charge_add, add_zero, add_zero]
      have hcarries := charge_carries frame below 0 0 (later - now) line
      rw [due, due, htotal, hself, hwait, hdead, hcharge]
      simp only [Pi.add_apply]
      rw [ih hbelow]
      have hsum : (charge frame below 0 0 (later - now) line +
          if carries below line then later - now else 0) =
          if carries (frame :: below) line then later - now else 0 := by
        rw [hcarries]
        cases line with
        | selfTime node => simp [carries]
        | waitTime node => simp [carries]
        | totalTime node => rfl
        | methodTime method => rfl
      rw [← hsum]
      abel

/-- While the callees that will end along with them are paused, callers take no time. -/
theorem due_paused (now later : α) : ∀ {frames : List (Frame α)} {child dead : α},
    (∀ frame ∈ frames, frame.AtRest) →
      due later frames child (dead + (later - now)) = due now frames child dead := by
  intro frames
  induction frames with
  | nil => intro child dead _; rfl
  | cons frame below ih =>
      intro child dead hrest
      have hframe := hrest frame List.mem_cons_self
      have hbelow := fun other hother => hrest other (List.mem_cons_of_mem _ hother)
      have htotal : frame.totalUntil later (dead + (later - now)) =
          frame.totalUntil now dead := by
        rw [Frame.totalUntil, Frame.totalUntil, hframe.deadUntil, hframe.deadUntil]
        abel
      have hwait : frame.waitUntil later = frame.waitUntil now := by
        rw [hframe.waitUntil, hframe.waitUntil]
      have hself : frame.selfUntil later child (dead + (later - now)) =
          frame.selfUntil now child dead := by
        rw [Frame.selfUntil, Frame.selfUntil, htotal, hwait]
      have hdead : frame.deadUntil later + (dead + (later - now)) =
          frame.deadUntil now + dead + (later - now) := by
        rw [hframe.deadUntil, hframe.deadUntil]
        abel
      rw [due, due, htotal, hself, hwait, hdead, ih hbelow]

/-! ## The innermost call -/

namespace Frame

variable {frame : Frame α} {active : Bool}

theorem deadUntil_paused (h : frame.pausedAt.isSome = true) (now later : α) :
    frame.deadUntil later = frame.deadUntil now + (later - now) := by
  obtain ⟨since, hsince⟩ := Option.isSome_iff_exists.mp h
  rw [deadUntil, deadUntil, hsince]
  show frame.deadTime + (later - since) = frame.deadTime + (now - since) + _
  abel

theorem totalUntil_paused (h : frame.pausedAt.isSome = true) (now later : α) :
    frame.totalUntil later 0 = frame.totalUntil now 0 := by
  rw [totalUntil, totalUntil, deadUntil_paused h now later]
  abel

/-- A wait does not grow while the frame is paused. -/
theorem waitUntil_paused (h : frame.pausedAt.isSome = true) (now later : α) :
    frame.waitUntil later = frame.waitUntil now := by
  rw [waitUntil, waitUntil, deadUntil_paused h now later]
  cases frame.switchedAt with
  | none => rfl
  | some switched =>
      show frame.waitTime + (later - switched - (_ - _)) =
        frame.waitTime + (now - switched - (_ - _))
      abel

theorem deadUntil_running (h : frame.pausedAt = none) (now later : α) :
    frame.deadUntil later = frame.deadUntil now := by
  rw [deadUntil, deadUntil, h]

theorem totalUntil_running (h : frame.pausedAt = none) (now later : α) :
    frame.totalUntil later 0 = frame.totalUntil now 0 + (later - now) := by
  rw [totalUntil, totalUntil, deadUntil_running h now later]
  abel

theorem waitUntil_running (h : frame.pausedAt = none)
    (hswitched : frame.switchedAt.isSome = !active) (now later : α) :
    frame.waitUntil later = frame.waitUntil now + if active then 0 else later - now := by
  rw [waitUntil, waitUntil, deadUntil_running h now later]
  cases active with
  | true =>
      have hnot : frame.switchedAt = none := by simpa using hswitched
      rw [hnot]
      exact (add_zero _).symm
  | false =>
      obtain ⟨switched, hsome⟩ := Option.isSome_iff_exists.mp hswitched
      rw [hsome]
      show frame.waitTime + (later - switched - (_ - _)) =
        frame.waitTime + (now - switched - (_ - _)) + (later - now)
      abel

theorem selfUntil_running (h : frame.pausedAt = none)
    (hswitched : frame.switchedAt.isSome = !active) (now later : α) :
    frame.selfUntil later 0 0 =
      frame.selfUntil now 0 0 + if active then later - now else 0 := by
  rw [selfUntil, selfUntil, totalUntil_running h now later,
    waitUntil_running h hswitched now later]
  cases active with
  | true =>
      show _ - _ - (_ + (0 : α)) = _ - _ - _ + (later - now)
      abel
  | false =>
      show _ - _ - (_ + (later - now)) = _ - _ - _ + (0 : α)
      abel

end Frame

/-- Time passes on the lines of the open calls, and on no other line. -/
theorem due_later {active paused : Bool} {frames : List (Frame α)}
    (hresting : Resting active frames) (hpauses : Pauses paused frames) (now later : α)
    (line : Line) :
    due later frames 0 0 line = due now frames 0 0 line +
      if !paused && accrues active frames line then later - now else 0 := by
  cases frames with
  | nil =>
      rw [accrues_nil, Bool.and_false]
      exact (add_zero _).symm
  | cons frame below =>
      have hcallers : ∀ other ∈ below, other.AtRest := hresting.callers
      have hswitched := hresting.waits frame rfl
      have hpaused := hpauses frame rfl
      cases paused with
      | true =>
          have hself : frame.selfUntil later 0 0 = frame.selfUntil now 0 0 := by
            rw [Frame.selfUntil, Frame.selfUntil, Frame.totalUntil_paused hpaused now later,
              Frame.waitUntil_paused hpaused now later]
          have hbelow : frame.deadUntil later + 0 = frame.deadUntil now + 0 + (later - now) := by
            rw [Frame.deadUntil_paused hpaused now later]
            abel
          rw [due, due, Frame.totalUntil_paused hpaused now later, hself,
            Frame.waitUntil_paused hpaused now later, hbelow, due_paused now later hcallers]
          exact (add_zero _).symm
      | false =>
          have hnone : frame.pausedAt = none := by simpa using hpaused
          have hgrown := charge_carries frame below (if active then later - now else 0)
            (if active then 0 else later - now) (later - now) line
          rw [due, due, Frame.totalUntil_running hnone now later,
            Frame.selfUntil_running hnone hswitched now later,
            Frame.waitUntil_running hnone hswitched now later,
            Frame.deadUntil_running hnone now later, charge_add]
          simp only [Pi.add_apply]
          rw [due_callers now later line hcallers]
          have hsum : (charge frame below (if active then later - now else 0)
              (if active then 0 else later - now) (later - now) line +
                if carries below line then later - now else 0) =
              if !false && accrues active (frame :: below) line then later - now else 0 := by
            rw [hgrown]
            cases line with
            | selfTime node => cases active <;> simp [accrues]
            | waitTime node => cases active <;> simp [accrues]
            | totalTime node => rfl
            | methodTime method => rfl
          rw [← hsum]
          abel

end CallLedger
