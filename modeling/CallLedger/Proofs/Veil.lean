import CallLedger.Proofs.Kinship

/-!
# Hiding calls

A call of an excluded method, and one that does not name its method, opens no frame.
It is hidden together with the return that matches it by leaving in their places
events that only touch the context (`Event.veiled`). Which return matches which call
is told by the list of calls that are open in a context: a return closes the latest
one.

A stack has the same list, with a pass for every call that is hidden (`owed`). Hidden
calls on an empty stack are forgotten, so some may be left at the bottom of the list.
And a context of a paused program has a paused innermost frame, so an absorbed return,
after which the context is paused again, changes nothing but the passes. So a context
that sees all events and one that sees the veiled ones stay twins, event by event
(`Context.Veiled`).
-/

namespace CallLedger

variable {α : Type}

/-! ## Hiding calls -/

namespace Event

/-- Whether the event of a call opens no frame: it names no method, or an excluded one. -/
def opensNothing (exclusions : Exclusions) (event : Event α) : Bool :=
  match event.method? with
  | none => true
  | some method => exclusions.contains method

/-- An event that only makes the context of another one active at its moment. -/
def touch [Zero α] (event : Event α) : Event α :=
  ((bare .allocation).on event.thread event.fiber).sampled event.sample

/-- Whether an event is a hidden call or the return of one. The open calls of the context are
given, the latest first, by whether they are hidden. -/
def isHidden (exclusions : Exclusions) (opened : List Bool) (event : Event α) : Bool :=
  match event.kind with
  | .call | .nativeCall => event.opensNothing exclusions
  | .return | .nativeReturn => opened.head? = some true
  | .line | .allocation => false

/-- The open calls after an event. A return closes the latest one. -/
def openedAfter (exclusions : Exclusions) (opened : List Bool) (event : Event α) : List Bool :=
  match event.kind with
  | .call | .nativeCall => event.opensNothing exclusions :: opened
  | .return | .nativeReturn => opened.tail
  | .line | .allocation => opened

/-- The event with what is hidden taken from it. -/
def veiled [Zero α] (exclusions : Exclusions) (opened : List Bool) (event : Event α) : Event α :=
  if event.isHidden exclusions opened then event.touch else event

end Event

/-! ## What a stack owes -/

/-- The open calls that a stack knows of, the latest first, by whether they are hidden. -/
def owed (frames : List (Frame α)) : List Bool :=
  frames.flatMap fun frame => List.replicate frame.passes true ++ [false]

theorem owed_cons (top : Frame α) (rest : List (Frame α)) :
    owed (top :: rest) = List.replicate top.passes true ++ false :: owed rest := by
  rw [owed, List.flatMap_cons, List.append_assoc]
  rfl

theorem owed_modifyTop (stack : Stack α) {change : Frame α → Frame α}
    (hpasses : ∀ frame, (change frame).passes = frame.passes) :
    owed (stack.modifyTop change).frames = owed stack.frames := by
  obtain ⟨frames, capacity⟩ := stack
  cases frames with
  | nil => rfl
  | cons top rest =>
      show owed (change top :: rest) = owed (top :: rest)
      rw [owed_cons, owed_cons, hpasses]

/-! ## Contexts with and without hidden calls -/

theorem Stack.top?_modifyTop {stack : Stack α} {change : Frame α → Frame α} :
    (stack.modifyTop change).top? = stack.top?.map change := by
  obtain ⟨frames, capacity⟩ := stack
  cases frames with
  | nil => rfl
  | cons top rest => rfl

theorem Frame.isPaused_pause (frame : Frame α) (now : α) : (frame.pause now).isPaused = true := by
  rw [Frame.pause]
  split
  · rfl
  · next since hsince => rw [Frame.isPaused, hsince]; rfl

namespace Context

variable {exclusions : Exclusions} {paused : Bool} {opened : List Bool}
  {context twin : Context α}

/-- A context of a run and that of the run in which calls are hidden. -/
structure Veiled (exclusions : Exclusions) (paused : Bool) (opened : List Bool)
    (context twin : Context α) : Prop extends Twin exclusions context twin where
  halted : paused = true → ∀ top, context.stack.top? = some top → top.isPaused = true
  owes : context.traced = true →
    ∃ idle, opened = owed context.stack.frames ++ List.replicate idle true

/-- A frame that is paused is not paused again. -/
theorem pause_of_halted (h : ∀ top, context.stack.top? = some top → top.isPaused = true)
    (now : α) : context.pause now = context := by
  obtain ⟨key, traced, profile, frames, capacity⟩ := context
  cases frames with
  | nil => rfl
  | cons top rest =>
      have hpaused := h top rfl
      obtain ⟨since, hsince⟩ := Option.isSome_iff_exists.mp hpaused
      have hsame : top.pause now = top := by
        rw [Frame.pause, hsince]
      show Context.mk key traced profile ⟨top.pause now :: rest, capacity⟩ = _
      rw [hsame]

theorem Veiled.modifyTop (h : Veiled exclusions paused opened context twin)
    {change : Frame α → Frame α} (hchange : Frame.Oblivious change) {after : Bool}
    (hhalted : after = true → ∀ top, context.stack.top? = some top →
      (change top).isPaused = true) :
    Veiled exclusions after opened { context with stack := context.stack.modifyTop change }
      { twin with stack := twin.stack.modifyTop change } where
  toTwin := h.toTwin.modifyTop hchange
  halted hp top htop := by
    rw [Stack.top?_modifyTop] at htop
    obtain ⟨before, hbefore, rfl⟩ := Option.map_eq_some_iff.mp htop
    exact hhalted hp before hbefore
  owes htraced := by
    show ∃ idle, opened = owed (context.stack.modifyTop change).frames ++ _
    rw [owed_modifyTop _ hchange.passes]
    exact h.owes htraced

theorem Veiled.pause (h : Veiled exclusions paused opened context twin) (now : α) :
    Veiled exclusions true opened (context.pause now) (twin.pause now) :=
  h.modifyTop (Frame.oblivious_pause now) fun _ top _ => top.isPaused_pause now

theorem Veiled.moved (h : Veiled exclusions paused opened context twin) (event : Event α) :
    Veiled exclusions paused opened (context.moved event) (twin.moved event) :=
  h.modifyTop (Frame.oblivious_moved event) h.halted

variable [Amount α]

theorem veiled_fresh (exclusions : Exclusions) (paused : Bool) (key : ContextKey) (traced : Bool)
    (capacity : Nat) (idle : Nat) :
    Veiled exclusions paused (List.replicate idle true)
      (.fresh key traced capacity : Context α) (.fresh key traced capacity) :=
  ⟨twin_fresh _ _ _ _, fun _ => nofun, fun _ => ⟨idle, rfl⟩⟩

theorem Veiled.resume (h : Veiled exclusions paused opened context twin) (now : α) :
    Veiled exclusions false opened (context.resume now) (twin.resume now) :=
  h.modifyTop (Frame.oblivious_unpause now) fun hp => Bool.noConfusion hp

theorem Veiled.switchIn (h : Veiled exclusions paused opened context twin) (now : α) :
    Veiled exclusions paused opened (context.switchIn now) (twin.switchIn now) := by
  refine h.modifyTop (Frame.oblivious_switchIn now) fun hp top htop => ?_
  rw [Frame.switchIn]
  split
  · exact h.halted hp top htop
  · exact h.halted hp top htop

theorem Veiled.switchOut (h : Veiled exclusions paused opened context twin) (now : α) :
    Veiled exclusions paused opened (context.switchOut now) (twin.switchOut now) :=
  h.modifyTop (Frame.oblivious_switchOut now) h.halted

/-! ## Events -/

/-- A hidden call is one more call that the innermost frame owes, if there is one. -/
theorem Veiled.called_hidden (h : Veiled exclusions paused opened context twin)
    {event : Event α} (hhidden : event.opensNothing exclusions = true) :
    Veiled exclusions paused (true :: opened) (context.called event exclusions paused) twin := by
  have hnothing : ∀ method, event.method? = some method → exclusions.contains method = true := by
    intro method hmethod
    rw [Event.opensNothing, hmethod] at hhidden
    exact hhidden
  obtain ⟨htwin, hstack⟩ := h.toTwin.called_hidden hnothing paused
  refine ⟨htwin, fun hp top htop => ?_, fun htraced => ?_⟩
  · rw [hstack, Stack.pass, Stack.top?_modifyTop] at htop
    obtain ⟨before, hbefore, rfl⟩ := Option.map_eq_some_iff.mp htop
    exact h.halted hp before hbefore
  · rw [← htwin.traced, h.traced] at htraced
    obtain ⟨idle, hopened⟩ := h.owes htraced
    rw [hstack, hopened]
    unfold Stack.pass Stack.modifyTop
    cases hframes : context.stack.frames with
    | nil =>
        refine ⟨idle + 1, ?_⟩
        simp only [hframes]
        rfl
    | cons top rest =>
        refine ⟨idle, ?_⟩
        simp only [owed_cons]
        rw [List.replicate_succ]
        rfl

/-- Any other call has a frame in both. -/
theorem Veiled.called (h : Veiled exclusions paused opened context twin) {event : Event α}
    (hshown : event.opensNothing exclusions = false) :
    Veiled exclusions paused (false :: opened) (context.called event exclusions paused)
      (twin.called event exclusions paused) := by
  cases hmethod : event.method? with
  | none =>
      rw [Event.opensNothing, hmethod] at hshown
      cases hshown
  | some method =>
      rw [Event.opensNothing, hmethod] at hshown
      change exclusions.contains method = false at hshown
      have htwin := h.toTwin.called hmethod hshown paused
      obtain ⟨hknown, -, record, hrecord, -, hmark⟩ := h.orderly.lookup event method
      have hled := hknown.enterNode hrecord (hmark.trans hshown)
      obtain ⟨-, hframes⟩ := openCall_eq hled.method event paused
      have hcalled : context.called event exclusions paused =
          (context.knowing (context.lookup event method exclusions).1).openCall
            (context.lookup event method exclusions).2 event paused := by
        rw [h.orderly.called_eq hmethod, hshown, if_neg Bool.false_ne_true]
      rw [← hcalled] at hframes
      refine ⟨htwin, fun hp top htop => ?_, fun htraced => ?_⟩
      · rw [Stack.top?, hframes, List.head?_cons, Option.some.injEq] at htop
        rw [← htop, hp]
        rfl
      · rw [← htwin.traced, show (twin.called event exclusions paused).traced = context.traced
          from (htwin.traced.trans (by rw [hcalled]; rfl))] at htraced
        obtain ⟨idle, hopened⟩ := h.owes htraced
        refine ⟨idle, ?_⟩
        rw [hframes, owed_cons, hopened]
        have hbelow : owed (context.stack.unpause event.sample).frames = owed context.stack.frames :=
          owed_modifyTop _ (Frame.oblivious_unpause event.sample).passes
        have hnone : ∀ node method, (Frame.begun node method event paused : Frame α).passes = 0 := by
          intro node method
          cases paused <;> rfl
        rw [hnone]
        exact congrArg (fun below => false :: (below ++ _)) hbelow.symm

theorem returned_eq (context : Context α) (now : α) (paused : Bool) :
    context.returned now paused =
      if paused then (context.popped now).pause now else context.popped now := by
  cases paused <;> rfl

/-- The return of a hidden call pays off a pass, or finds nothing open. -/
theorem Veiled.returned_hidden (h : Veiled exclusions paused (true :: opened) context twin)
    (htraced : context.traced = true) (now : α) :
    Veiled exclusions paused opened (context.returned now paused) twin := by
  obtain ⟨idle, hopened⟩ := h.owes htraced
  have hpopped : Veiled exclusions paused opened (context.popped now) twin := by
    cases hframes : context.stack.frames with
    | nil =>
        rw [hframes] at hopened
        cases idle with
        | zero => cases hopened
        | succ idle =>
            rw [popped_empty hframes]
            refine ⟨h.toTwin, h.halted, fun _ => ⟨idle, ?_⟩⟩
            rw [hframes]
            exact (List.cons.inj hopened).2
    | cons top rest =>
        have htop : context.stack.top? = some top := by
          rw [Stack.top?, hframes, List.head?_cons]
        rw [hframes, owed_cons] at hopened
        cases hpasses : top.passes with
        | zero =>
            rw [hpasses] at hopened
            cases hopened
        | succ passes =>
            have hpass : top.isPass = true := by
              rw [Frame.isPass, hpasses]
              rfl
            have htwin := h.toTwin.popped_pass htop hpass now
            rw [popped_pass hframes hpass] at htwin ⊢
            refine ⟨htwin, fun hp found hfound => ?_, fun _ => ⟨idle, ?_⟩⟩
            · rw [Stack.top?_modifyTop] at hfound
              obtain ⟨before, hbefore, rfl⟩ := Option.map_eq_some_iff.mp hfound
              exact h.halted hp before hbefore
            · rw [hpasses, List.replicate_succ] at hopened
              have hrest := (List.cons.inj hopened).2
              rw [hrest, Stack.modifyTop, hframes, owed_cons, hpasses]
              rfl
  rw [returned_eq]
  cases paused with
  | false => exact hpopped
  | true =>
      rw [if_pos rfl, pause_of_halted (hpopped.halted rfl)]
      exact hpopped

/-- Any other return is one in both. -/
theorem Veiled.returned (h : Veiled exclusions paused opened context twin)
    (htraced : context.traced = true) (hshown : opened.head? ≠ some true) (now : α) :
    Veiled exclusions paused opened.tail (context.returned now paused)
      (twin.returned now paused) := by
  obtain ⟨idle, hopened⟩ := h.owes htraced
  have hpaid : ∀ top, context.stack.top? = some top → top.passes = 0 := by
    intro top htop
    obtain ⟨rest, hframes⟩ := List.head?_eq_some_iff.mp htop
    cases hpasses : top.passes with
    | zero => rfl
    | succ passes =>
        rw [hopened, hframes, owed_cons, hpasses, List.replicate_succ] at hshown
        exact absurd rfl hshown
  have htwin := h.toTwin.popped_close (fun top htop => by
    rw [Frame.isPass, hpaid top htop]
    exact Bool.false_ne_true) now
  have howes : ∃ idle, opened.tail =
      owed (context.popped now).stack.frames ++ List.replicate idle true := by
    cases hframes : context.stack.frames with
    | nil =>
        rw [hframes] at hopened
        refine ⟨idle - 1, ?_⟩
        rw [popped_empty hframes, hframes, hopened]
        exact List.tail_replicate ..
    | cons top rest =>
        have htop : context.stack.top? = some top := by
          rw [Stack.top?, hframes, List.head?_cons]
        have hpass : ¬ top.isPass = true := by
          rw [Frame.isPass, hpaid top htop]
          exact Bool.false_ne_true
        refine ⟨idle, ?_⟩
        rw [popped_close hframes hpass, hopened, hframes, owed_cons, hpaid top htop]
        have hcallers : ∀ total dead : α,
            owed (({ context.stack with frames := rest } : Stack α).modifyTop
              (·.credit total dead)).frames = owed rest :=
          fun _ _ => owed_modifyTop _ fun _ => rfl
        exact congrArg (· ++ List.replicate idle true) (hcallers _ _).symm
  have hpopped : Veiled exclusions false opened.tail (context.popped now) (twin.popped now) :=
    ⟨htwin, fun hp => Bool.noConfusion hp, fun _ => howes⟩
  rw [returned_eq, returned_eq]
  cases paused with
  | false => exact hpopped
  | true => exact hpopped.pause now

omit [Amount α] in
theorem Veiled.allocated (h : Veiled exclusions paused opened context twin) (event : Event α) :
    Veiled exclusions paused opened (context.allocated event) (twin.allocated event) := by
  have hstack : (context.allocated event).stack = context.stack ∧
      (context.allocated event).traced = context.traced := by
    unfold Context.allocated
    split
    · split <;> exact ⟨rfl, rfl⟩
    · exact ⟨rfl, rfl⟩
  refine ⟨h.toTwin.allocated event, ?_, ?_⟩
  · rw [hstack.1]
    exact h.halted
  · rw [hstack.1, hstack.2]
    exact h.owes

end Context

end CallLedger
