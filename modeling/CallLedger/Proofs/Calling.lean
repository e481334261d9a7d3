import CallLedger.Proofs.Laws

/-!
# What a call does

The method of a call gets its record first, if it is new. The call itself opens a frame
then, or is passed over if the method is excluded or unnamed (`Context.called_of_named`,
`Context.called_of_unnamed`). A frame is opened on the node of the caller, on a node
below that, or on a root (`Context.enterNode_cases`).

These are equations about one context. What a law makes of them is its own affair.
-/

namespace CallLedger

variable {α : Type}

/-- The frame that a call opens. -/
def Frame.begun [Amount α] (node : NodeId) (method : MethodId) (event : Event α)
    (paused : Bool) : Frame α :=
  let frame : Frame α := .opened node method event.sample
  { (if paused then frame.pause event.sample else frame) with
    file := event.file, line := event.line }

namespace Context

variable {context : Context α}

theorem innermost_openCalls (context : Context α) :
    innermost context.stack.openCalls = context.stack.top?.map (·.node) := by
  rw [innermost, Stack.openCalls, List.head?_map, Option.map_map]
  rfl

theorem openCalls_pass (context : Context α) :
    context.stack.pass.openCalls = context.stack.openCalls :=
  context.stack.openCalls_modifyTop fun _ => rfl

/-! ## Looking up -/

/-- The context, which knows these methods. -/
def knowing (context : Context α) (methods : Registry α) : Context α :=
  { context with profile := { context.profile with methods := methods } }

variable [Amount α]

/-- The methods once the method of a call has its record, and where that stands. -/
def lookup (context : Context α) (event : Event α) (method : Method) (exclusions : Exclusions) :
    Registry α × MethodId :=
  context.profile.methods.lookupOrCreate method (event.kind = .nativeCall)
    (event.file.map fun file => ⟨file, event.line⟩) exclusions

theorem lookup_entered (context : Context α) (event : Event α) (method : Method)
    (exclusions : Exclusions) :
    context.profile.methods.Entered method (exclusions.contains method)
      (context.lookup event method exclusions).1 (context.lookup event method exclusions).2 :=
  context.profile.methods.lookupOrCreate_entered _ _ _ _

theorem called_of_unnamed {event : Event α} (h : event.method? = none) (exclusions : Exclusions)
    (paused : Bool) :
    context.called event exclusions paused = { context with stack := context.stack.pass } := by
  rw [called, h]

theorem called_of_named {event : Event α} {method : Method} (h : event.method? = some method)
    {exclusions : Exclusions} {record : MethodRecord α}
    (hrecord : (context.lookup event method exclusions).1.record?
      (context.lookup event method exclusions).2 = some record) (paused : Bool) :
    context.called event exclusions paused =
      if record.excluded then
        { context.knowing (context.lookup event method exclusions).1 with
          stack := context.stack.pass }
      else
        (context.knowing (context.lookup event method exclusions).1).openCall
          (context.lookup event method exclusions).2 event paused := by
  have hmark : ((context.lookup event method exclusions).1.record?
      (context.lookup event method exclusions).2).any (·.excluded) = record.excluded := by
    rw [hrecord, Option.any_some]
  rw [called, h, ← hmark]
  rfl

/-! ## Opening -/

/-- A call stays on the node of its caller, leads on from there, or makes a root. -/
theorem enterNode_cases (context : Context α) (method : MethodId) :
    (∃ top, context.stack.top? = some top ∧ top.method = method ∧
      context.enterNode method = (context.profile, top.node)) ∨
    (∃ top, context.stack.top? = some top ∧ top.method ≠ method ∧
      context.enterNode method =
        context.profile.child (some top.node) method ⟨top.file, top.line⟩) ∨
    (context.stack.top? = none ∧ context.enterNode method =
      (context.profile.modifyMethod method ({ · with root := true })).child none method
        .none) := by
  unfold enterNode
  cases htop : context.stack.top? with
  | none => exact Or.inr (Or.inr ⟨rfl, rfl⟩)
  | some top =>
      by_cases hsame : top.method = method
      · exact Or.inl ⟨top, rfl, hsame, if_pos hsame⟩
      · exact Or.inr (Or.inl ⟨top, rfl, hsame, if_neg hsame⟩)

/-- An open call is counted at its node and has the innermost frame. -/
theorem openCall_eq {method : Nat}
    (hmethod : (context.enterNode method).1.methodOf? (context.enterNode method).2 = some method)
    (event : Event α) (paused : Bool) :
    (context.openCall method event paused).profile =
        (context.enterNode method).1.enter (context.enterNode method).2 method ∧
      (context.openCall method event paused).stack.frames =
        .begun (context.enterNode method).2 method event paused ::
          (context.stack.unpause event.sample).frames := by
  refine ⟨(context.stack.push_eq event.sample paused hmethod).2, ?_⟩
  show ((context.stack.push (context.enterNode method).1 (context.enterNode method).2
    event.sample paused).1.modifyTop _).frames = _
  rw [Stack.push, hmethod]
  rfl

theorem openCalls_openCall {method : Nat}
    (hmethod : (context.enterNode method).1.methodOf? (context.enterNode method).2 = some method)
    (event : Event α) (paused : Bool) :
    (context.openCall method event paused).stack.openCalls =
      ⟨(context.enterNode method).2, method, 0⟩ :: context.stack.openCalls := by
  refine Eq.trans ?_ (context.stack.push_eq event.sample paused hmethod).1
  exact Stack.openCalls_modifyTop _ fun _ => rfl

end Context

end CallLedger
