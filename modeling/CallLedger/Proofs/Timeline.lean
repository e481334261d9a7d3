import CallLedger.Proofs.Books
import CallLedger.Proofs.Charges
import CallLedger.Proofs.Activity

/-!
# An account that operations do not touch

The account of a context at a moment is what has been charged and what is due
(`Context.account`). Whatever is recorded at that moment moves amounts from what is
due to what has been charged, or opens something that has cost nothing yet, and so
leaves the account as it is: calls, returns, and the ends and beginnings of
pauses and waits alike.

The one delicate place is the end of a call. Its frame is charged in full only when
the visit counters say so; what is due counts open frames instead. That the
counters count just those is known from the books (`Context.Kept`).
-/

namespace CallLedger

variable {α : Type} [ExactAmount α]

/-! ## The innermost frame -/

theorem due_modifyTop {now : α} {stack : Stack α} {change : Frame α → Frame α}
    (h : ∀ top ∈ stack.frames.head?, Frame.SameUntil now top (change top)) (child dead : α) :
    due now (stack.modifyTop change).frames child dead = due now stack.frames child dead := by
  obtain ⟨frames, capacity⟩ := stack
  cases frames with
  | nil => rfl
  | cons top rest => exact due_congr (h top rfl) rest child dead

/-- What callees that ended had to hand on is the same before and after it is handed on. -/
theorem due_credit (now : α) {stack : Stack α} (h : ∀ frame ∈ stack.frames, frame.AtRest)
    (total dead : α) :
    due now (stack.modifyTop (·.credit total dead)).frames 0 0 =
      due now stack.frames total dead := by
  obtain ⟨frames, capacity⟩ := stack
  cases frames with
  | nil => rfl
  | cons top rest =>
      have htop : top.AtRest := h top List.mem_cons_self
      have hcredit : (top.credit total dead).AtRest := htop
      have hdead : (top.credit total dead).deadUntil now + 0 = top.deadUntil now + dead := by
        rw [hcredit.deadUntil, htop.deadUntil]
        exact add_zero _
      have htotal : (top.credit total dead).totalUntil now 0 = top.totalUntil now dead := by
        rw [Frame.totalUntil, hdead]
        rfl
      have hwait : (top.credit total dead).waitUntil now = top.waitUntil now := by
        rw [hcredit.waitUntil, htop.waitUntil]
        rfl
      have hself : (top.credit total dead).selfUntil now 0 0 = top.selfUntil now total dead := by
        rw [Frame.selfUntil, htotal, hwait, add_zero]
        rfl
      show due now (top.credit total dead :: rest) 0 0 = due now (top :: rest) total dead
      rw [due, due, hdead, htotal, hwait, hself]
      rfl

namespace Context

/-! ## The account of a context -/

/-- What every line comes to if all open calls end at a moment. -/
def account (context : Context α) (now : α) : Line → α :=
  context.profile.charged + due now context.stack.frames 0 0

/-- A context whose books are kept and whose account at a moment is known. -/
structure Clocked (exclusions : Exclusions) (active : Bool) (now : α) (sheet : Line → α)
    (context : Context α) : Prop where
  kept : context.Kept exclusions
  resting : Resting active context.stack.frames
  account : context.account now = sheet

variable {exclusions : Exclusions} {active : Bool} {now : α} {sheet : Line → α}
  {context : Context α}

theorem clocked_fresh (exclusions : Exclusions) (active : Bool) (now : α) (key : ContextKey)
    (traced : Bool) (capacity : Nat) :
    Clocked exclusions active now 0 (.fresh key traced capacity) where
  kept := (keptLaw exclusions).fresh key traced capacity
  resting := ⟨nofun, nofun⟩
  account := by
    show (Profile.empty : Profile α).charged + 0 = 0
    rw [Profile.charged_empty, add_zero]

/-- Time passes on the lines of the open calls. -/
theorem Clocked.later (h : Clocked exclusions active now sheet context) {paused : Bool}
    (hpauses : Pauses paused context.stack.frames) (later : α) :
    Clocked exclusions active later (fun line => sheet line +
      if !paused && accrues active context.stack.frames line then later - now else 0)
      context := by
  refine ⟨h.kept, h.resting, ?_⟩
  funext line
  rw [← h.account, Context.account, Context.account, Pi.add_apply, Pi.add_apply,
    due_later h.resting hpauses now later line, add_assoc]

/-- A change of the innermost frame that takes no time. -/
theorem Clocked.modifyTop (h : Clocked exclusions active now sheet context)
    {change : Frame α → Frame α} {after : Bool}
    (hsame : ∀ top ∈ context.stack.frames.head?, Frame.SameUntil now top (change top))
    (hwaits : ∀ top ∈ context.stack.frames.head?, (change top).switchedAt.isSome = !after) :
    Clocked exclusions after now sheet
      { context with stack := context.stack.modifyTop change } := by
  refine ⟨?_, h.resting.modifyTop hwaits, ?_⟩
  · refine (keptLaw exclusions).restacked h.kept ?_
    obtain ⟨key, traced, profile, frames, capacity⟩ := context
    cases frames with
    | nil => rfl
    | cons top rest =>
        obtain ⟨hnode, hmethod, -, hchild, -, -⟩ := hsame top rfl
        show (change top).openCall :: _ = top.openCall :: _
        rw [Frame.openCall, hnode, hmethod, hchild]
        rfl
  · rw [← h.account]
    exact congrArg (context.profile.charged + ·) (due_modifyTop hsame 0 0)

theorem Clocked.pause (h : Clocked exclusions active now sheet context) :
    Clocked exclusions active now sheet (context.pause now) := by
  refine h.modifyTop (fun top _ => top.sameUntil_pause now) fun top htop => ?_
  rw [← h.resting.waits top htop, Frame.pause]
  split
  · rfl
  · rfl

theorem Clocked.resume (h : Clocked exclusions active now sheet context) :
    Clocked exclusions active now sheet (context.resume now) := by
  refine h.modifyTop (fun top _ => top.sameUntil_unpause now) fun top htop => ?_
  rw [← h.resting.waits top htop, Frame.unpause]
  split
  · rfl
  · rfl

theorem Clocked.switchIn (h : Clocked exclusions false now sheet context) :
    Clocked exclusions true now sheet (context.switchIn now) := by
  refine h.modifyTop (fun top _ => top.sameUntil_switchIn now) fun top htop => ?_
  obtain ⟨since, hsince⟩ := Option.isSome_iff_exists.mp (h.resting.waits top htop)
  rw [Frame.switchIn, hsince]
  rfl

theorem Clocked.switchOut (h : Clocked exclusions true now sheet context) :
    Clocked exclusions false now sheet (context.switchOut now) := by
  refine h.modifyTop (fun top htop => Frame.sameUntil_switchOut ?_ now) fun top _ => rfl
  exact Option.isNone_iff_eq_none.mp (by simpa using h.resting.waits top htop)

/-- Notes on the innermost frame that are no part of its cost. -/
theorem Clocked.note (h : Clocked exclusions active now sheet context)
    (change : Frame α → Frame α)
    (hnote : ∀ frame : Frame α, ∃ file line passes, change frame =
      { frame with file := file, line := line, passes := passes }) :
    Clocked exclusions active now sheet
      { context with stack := context.stack.modifyTop change } := by
  refine h.modifyTop (fun top _ => ?_) fun top htop => ?_
  · obtain ⟨file, line, passes, heq⟩ := hnote top
    rw [heq]
    exact ⟨rfl, rfl, rfl, rfl, rfl, rfl⟩
  · obtain ⟨file, line, passes, heq⟩ := hnote top
    rw [heq]
    exact h.resting.waits top htop

/-! ## Calls -/

/-- A method is looked up, which takes no time. -/
theorem Clocked.learned (h : Clocked exclusions active now sheet context) {method : Method}
    {methods : Registry α} {id : Nat}
    (hentered : context.profile.methods.Entered method (exclusions.contains method) methods id) :
    Clocked exclusions active now sheet
      { context with profile := { context.profile with methods := methods } } := by
  refine ⟨(h.kept.learned hentered).1, h.resting, ?_⟩
  rw [← h.account]
  refine congrArg (· + due now context.stack.frames 0 0) (Profile.charged_congr ?_ ?_)
  · exact fun _ => ⟨rfl, rfl, rfl⟩
  · exact fun _ => Registry.timeOf_entered hentered _

theorem charged_enterNode (h : context.Kept exclusions) {method : Nat}
    {record : MethodRecord α} (hrecord : context.profile.methods.record? method = some record) :
    (context.enterNode method).1.charged = context.profile.charged := by
  have horderly : context.Orderly exclusions := h.accounted.toOrdered
  rcases context.enterNode_cases method with
    ⟨top, -, -, heq⟩ | ⟨top, htop, -, heq⟩ | ⟨-, heq⟩
  · rw [heq]
  · rw [heq]
    exact Profile.charged_child _ hrecord (horderly.hasParent_top htop)
  · obtain ⟨-, -, hmarked⟩ := horderly.marked hrecord
    rw [heq]
    refine (Profile.charged_child _ hmarked Profile.hasParent_none).trans ?_
    exact Profile.charged_modifyMethod _ _ _ fun _ => rfl

/-- A frame that opens at a moment is not charged anything there. -/
theorem due_opened (node method : Nat) (below : List (Frame α)) :
    due now (.opened node method now :: below) 0 0 = due now below 0 0 := by
  have hrest : (Frame.opened node method now : Frame α).AtRest := ⟨rfl, rfl⟩
  have hdead : (Frame.opened node method now : Frame α).deadUntil now = 0 := hrest.deadUntil now
  have hwait : (Frame.opened node method now : Frame α).waitUntil now = 0 := hrest.waitUntil now
  have htotal : (Frame.opened node method now : Frame α).totalUntil now 0 = 0 := by
    rw [Frame.totalUntil, hdead]
    show now - now - (0 + 0) = 0
    rw [sub_self, add_zero, sub_zero]
  have hself : (Frame.opened node method now : Frame α).selfUntil now 0 0 = 0 := by
    rw [Frame.selfUntil, htotal, hwait]
    show 0 - (0 + 0) - 0 = (0 : α)
    rw [add_zero, sub_zero, sub_zero]
  rw [due, hself, hwait, htotal, hdead, charge_zero, zero_add, add_zero]

/-- The caller is not paused any more and does not wait, as the callee is innermost now. -/
theorem Clocked.callers (h : Clocked exclusions true now sheet context) :
    ∀ frame ∈ (context.stack.unpause now).frames, frame.AtRest := by
  obtain ⟨key, traced, profile, frames, capacity⟩ := context
  cases frames with
  | nil => exact nofun
  | cons top rest =>
      intro frame hmem
      rcases List.mem_cons.mp hmem with rfl | hmem
      · have hwaits : top.switchedAt = none :=
          Option.isNone_iff_eq_none.mp (by simpa using h.resting.waits top rfl)
        show (top.unpause now).AtRest
        unfold Frame.unpause
        split
        · exact ⟨rfl, hwaits⟩
        · next hpaused => exact ⟨hpaused, hwaits⟩
      · exact h.resting.callers frame hmem

/-- The frame of a call is charged as one that opens, and is paused if the program is. -/
theorem begun_eq (node method : Nat) (event : Event α) (paused : Bool) :
    Frame.SameUntil event.sample (.opened node method event.sample)
        (.begun node method event paused) ∧
      (Frame.begun node method event paused : Frame α).switchedAt = none ∧
      (Frame.begun node method event paused : Frame α).pausedAt.isSome = paused := by
  cases paused with
  | false => exact ⟨⟨rfl, rfl, rfl, rfl, rfl, rfl⟩, rfl, rfl⟩
  | true =>
      obtain ⟨hnode, hmethod, hstart, hchild, hdead, hwait⟩ :=
        (Frame.opened node method event.sample : Frame α).sameUntil_pause event.sample
      exact ⟨⟨hnode, hmethod, hstart, hchild, hdead, hwait⟩, rfl, rfl⟩

theorem Clocked.openCall {event : Event α} (h : Clocked exclusions true event.sample sheet context)
    {method : Nat} {record : MethodRecord α}
    (hrecord : context.profile.methods.record? method = some record)
    (hexcluded : record.excluded = false) (paused : Bool) :
    Clocked exclusions true event.sample sheet (context.openCall method event paused) ∧
      Pauses paused (context.openCall method event paused).stack.frames := by
  have hmethod := (h.kept.enterNode hrecord hexcluded).method
  obtain ⟨hprofile, hframes⟩ := openCall_eq hmethod event paused
  obtain ⟨hsame, hswitched, hpaused⟩ :=
    begun_eq (context.enterNode method).2 method event paused
  refine ⟨⟨(h.kept.openCall hrecord hexcluded event paused).1, ?_, ?_⟩, ?_⟩
  · rw [hframes]
    refine ⟨h.callers, fun top htop => ?_⟩
    cases htop
    rw [hswitched]
    rfl
  · rw [Context.account, hprofile, hframes, Profile.charged_enter hmethod,
      charged_enterNode h.kept hrecord, due_congr hsame, due_opened, ← h.account]
    exact congrArg (context.profile.charged + ·)
      (due_modifyTop (fun top _ => top.sameUntil_unpause event.sample) 0 0)
  · rw [hframes]
    intro top htop
    cases htop
    exact hpaused

theorem Clocked.pass (h : Clocked exclusions active now sheet context) :
    Clocked exclusions active now sheet { context with stack := context.stack.pass } :=
  h.note _ fun frame => ⟨frame.file, frame.line, frame.passes + 1, rfl⟩

theorem Clocked.called {event : Event α} (h : Clocked exclusions true event.sample sheet context)
    {paused : Bool} (hpauses : Pauses paused context.stack.frames) :
    Clocked exclusions true event.sample sheet (context.called event exclusions paused) ∧
      Pauses paused (context.called event exclusions paused).stack.frames := by
  cases hmethod : event.method? with
  | none =>
      rw [called_of_unnamed hmethod]
      exact ⟨h.pass, hpauses.pass⟩
  | some method =>
      have hentered := context.lookup_entered event method exclusions
      have hlearned := h.learned hentered
      obtain ⟨record, hrecord, -⟩ := hentered.exists_record
      rw [called_of_named hmethod hrecord]
      cases hexcluded : record.excluded with
      | true => exact ⟨hlearned.pass, hpauses.pass⟩
      | false => exact hlearned.openCall hrecord hexcluded paused

/-! ## Returns -/

/-- The visit counters of a frame that ends say whether another frame is open. -/
theorem Kept.last_visit (h : context.Kept exclusions) {top : Frame α} {rest : List (Frame α)}
    (hframes : context.stack.frames = top :: rest) :
    ∃ node record, context.profile.tree.node? top.node = some node ∧
      context.profile.methods.record? top.method = some record ∧
      (node.visits = 1 ↔ ∀ other ∈ rest, other.node ≠ top.node) ∧
      (record.visits = 1 ↔ ∀ other ∈ rest, other.method ≠ top.method) := by
  have hcalls : context.stack.openCalls = top.openCall :: rest.map Frame.openCall := by
    rw [Stack.openCalls, hframes]
    rfl
  have haccounted := h.accounted
  rw [hcalls] at haccounted
  obtain ⟨node, hnode, hmethod⟩ :=
    Profile.methodOf?_eq_some (haccounted.stacked.methodOf? List.mem_cons_self)
  obtain ⟨record, hrecord, -⟩ := haccounted.sound.bound hnode
  rw [hmethod] at hrecord
  refine ⟨node, record, hnode, hrecord, ?_, ?_⟩
  · exact (haccounted.nodeVisits_eq_one hnode).trans List.forall_mem_map
  · exact (haccounted.methodVisits_eq_one hrecord).trans List.forall_mem_map

/-- A frame that ends is charged what was due for it, and its caller takes over. -/
theorem Clocked.popped (h : Clocked exclusions true now sheet context) :
    Clocked exclusions true now sheet (context.popped now) := by
  cases hframes : context.stack.frames with
  | nil =>
      rw [popped_empty hframes]
      exact h
  | cons top rest =>
      by_cases hpass : top.isPass = true
      · rw [popped_pass hframes hpass]
        exact h.note _ fun frame => ⟨frame.file, frame.line, frame.passes - 1, rfl⟩
      · have hkept := (h.kept.popped now).1
        have hsame := top.sameUntil_unpause now
        have hcallers : ∀ frame ∈ rest, frame.AtRest := by
          have htail := h.resting.callers
          rw [hframes] at htail
          exact htail
        have hrest : (top.unpause now).AtRest := by
          have hinner := h.callers
          rw [Stack.unpause, Stack.modifyTop, hframes] at hinner
          exact hinner _ List.mem_cons_self
        have htotal : (top.unpause now).totalTime now = (top.unpause now).totalUntil now 0 := by
          rw [Frame.totalTime, Frame.totalUntil, hrest.deadUntil, add_zero, sub_sub]
        have hself : (top.unpause now).selfTime now = (top.unpause now).selfUntil now 0 0 := by
          rw [Frame.selfTime, Frame.selfUntil, htotal, hrest.waitUntil, add_zero]
        obtain ⟨node, record, hnode, hrecord, hnodeVisits, hmethodVisits⟩ :=
          h.kept.last_visit hframes
        rw [popped_close hframes hpass] at hkept ⊢
        refine ⟨hkept, resting_credit (by exact hcallers) _ _, ?_⟩
        rw [← h.account, Context.account, Context.account, hframes]
        show (context.profile.settle top.node top.method _ _ _).charged + due now _ 0 0 = _
        rw [Profile.charged_settle hnode hrecord hnodeVisits hmethodVisits,
          due_credit now (by exact hcallers), ← due_congr hsame, due, charge_congr hsame, hself,
          htotal, hrest.waitUntil, hrest.deadUntil, add_zero, add_assoc]

theorem Clocked.returned (h : Clocked exclusions true now sheet context) {paused : Bool}
    (hpauses : Pauses paused context.stack.frames) :
    Clocked exclusions true now sheet (context.returned now paused) ∧
      Pauses paused (context.returned now paused).stack.frames := by
  have hpopped := h.popped
  cases paused with
  | true =>
      refine ⟨hpopped.pause, Pauses.modifyTop fun top _ => ?_⟩
      unfold Frame.pause
      split
      · rfl
      · next hsince => exact Option.isSome_of_eq_some hsince
  | false =>
      refine ⟨hpopped, ?_⟩
      show Pauses false (context.popped now).stack.frames
      cases hframes : context.stack.frames with
      | nil =>
          rw [popped_empty hframes, hframes]
          exact nofun
      | cons top rest =>
          by_cases hpass : top.isPass = true
          · rw [popped_pass hframes hpass]
            exact Pauses.modifyTop fun top htop => hpauses top htop
          · rw [popped_close hframes hpass]
            refine Pauses.modifyTop fun caller hcaller => ?_
            have hcallers := h.resting.callers
            rw [hframes] at hcallers
            show caller.pausedAt.isSome = false
            rw [(hcallers caller (List.mem_of_mem_head? hcaller)).1]
            rfl

theorem Clocked.unwind (h : Clocked exclusions true now sheet context) :
    Clocked exclusions true now sheet (context.unwind now) :=
  popTimes_keeps Clocked.popped h

/-! ## Other events -/

theorem Clocked.moved (h : Clocked exclusions active now sheet context) (event : Event α) :
    Clocked exclusions active now sheet (context.moved event) :=
  h.note _ fun frame => ⟨event.file <|> frame.file, event.line, frame.passes, rfl⟩

theorem Clocked.allocated (h : Clocked exclusions active now sheet context) (event : Event α) :
    Clocked exclusions active now sheet (context.allocated event) := by
  have hkept := (h.kept.allocated event).1
  unfold Context.allocated at hkept ⊢
  split at hkept
  · split at hkept
    · refine ⟨hkept, h.resting, ?_⟩
      rw [← h.account]
      exact congrArg (· + due now context.stack.frames 0 0)
        (Profile.charged_modifyMethod _ _ _ fun _ => rfl)
    · exact h
  · exact h

end Context

end CallLedger
