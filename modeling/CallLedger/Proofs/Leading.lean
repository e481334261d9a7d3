import CallLedger.Proofs.Calling
import CallLedger.Proofs.Ordered

/-!
# Calls in good order

The visits and exclusions of a context are in order (`Context.Orderly`) whatever
happens there before contexts are merged. So a call of an excluded method is passed
over, and any other one is led to its node and counted (`Orderly.called_eq`,
`Orderly.enterNode`). Nothing is asked of amounts.
-/

namespace CallLedger

variable {α : Type} {exclusions : Exclusions}

namespace Context

variable {context : Context α}

/-- The order in which accounts are kept. -/
def Orderly (exclusions : Exclusions) (context : Context α) : Prop :=
  context.profile.Ordered exclusions context.stack.openCalls

theorem Orderly.restacked (h : context.Orderly exclusions) {stack : Stack α}
    (hcalls : stack.openCalls = context.stack.openCalls) :
    Orderly exclusions { context with stack := stack } := by
  show context.profile.Ordered exclusions stack.openCalls
  rw [hcalls]
  exact h

theorem Orderly.pass (h : context.Orderly exclusions) :
    Orderly exclusions { context with stack := context.stack.pass } :=
  h.restacked context.openCalls_pass

theorem Orderly.methodOf?_top (h : context.Orderly exclusions) {top : Frame α}
    (htop : context.stack.top? = some top) :
    context.profile.methodOf? top.node = some top.method :=
  have hopen : top.openCall ∈ context.stack.openCalls :=
    List.mem_map_of_mem (List.mem_of_mem_head? htop)
  h.stacked.methodOf? hopen

theorem Orderly.hasParent_top (h : context.Orderly exclusions) {top : Frame α}
    (htop : context.stack.top? = some top) : context.profile.HasParent (some top.node) := by
  obtain ⟨node, hnode, -⟩ := Profile.methodOf?_eq_some (h.methodOf?_top htop)
  exact Profile.hasParent_some (CallTree.node?_lt hnode)

/-- The record of a root is marked. -/
theorem Orderly.marked (h : context.Orderly exclusions) {method : Nat} {record : MethodRecord α}
    (hrecord : context.profile.methods.record? method = some record) :
    (context.profile.modifyMethod method ({ · with root := true })).Ordered exclusions
        context.stack.openCalls ∧
      context.profile.SameShape
        (context.profile.modifyMethod method ({ · with root := true })) ∧
      (context.profile.modifyMethod method ({ · with root := true })).methods.record? method =
        some { record with root := true } := by
  refine ⟨Profile.Ordered.note h method ({ · with root := true }) (fun _ => rfl) (fun _ => rfl)
    (fun _ => rfl) (fun _ => rfl) fun _ => rfl,
    Profile.sameShape_modifyMethod (fun _ => rfl) (fun _ => rfl) fun _ => rfl, ?_⟩
  show (context.profile.methods.modify method _).record? method = _
  rw [Registry.record?_modify, if_pos rfl, hrecord, Option.map_some]

variable [Amount α]

theorem orderly_fresh (exclusions : Exclusions) (key : ContextKey) (traced : Bool)
    (capacity : Nat) : Orderly exclusions (.fresh key traced capacity : Context α) :=
  Profile.ordered_empty

/-- The method of a call has its record. -/
theorem Orderly.lookup (h : context.Orderly exclusions) (event : Event α) (method : Method) :
    (context.knowing (context.lookup event method exclusions).1).Orderly exclusions ∧
      context.profile.Grows (context.knowing (context.lookup event method exclusions).1).profile ∧
      ∃ record, (context.lookup event method exclusions).1.record?
          (context.lookup event method exclusions).2 = some record ∧
        record.method = method ∧ record.excluded = exclusions.contains method := by
  have hentered := context.lookup_entered event method exclusions
  obtain ⟨hordered, hgrows⟩ := Profile.Ordered.knowing h hentered
  obtain ⟨record, hrecord, hmethod⟩ := hentered.exists_record
  exact ⟨hordered, hgrows, record, hrecord, hmethod, hmethod ▸ hordered.excluded hrecord⟩

theorem Orderly.called_eq (h : context.Orderly exclusions) {event : Event α} {method : Method}
    (hmethod : event.method? = some method) (paused : Bool) :
    context.called event exclusions paused =
      if exclusions.contains method then
        { context.knowing (context.lookup event method exclusions).1 with
          stack := context.stack.pass }
      else
        (context.knowing (context.lookup event method exclusions).1).openCall
          (context.lookup event method exclusions).2 event paused := by
  obtain ⟨-, -, record, hrecord, -, hexcluded⟩ := h.lookup event method
  rw [called_of_named hmethod hrecord, hexcluded]

/-! ## Opening a call -/

/-- What a call of a method finds when it is counted. -/
structure LedTo (exclusions : Exclusions) (context : Context α) (method : MethodId)
    (profile : Profile α) (id : NodeId) : Prop where
  ordered : profile.Ordered exclusions context.stack.openCalls
  grows : context.profile.Grows profile
  method : profile.methodOf? id = some method
  place : innermost context.stack.openCalls = some id ∨
    profile.tree.parent? id = innermost context.stack.openCalls

theorem Orderly.enterNode (h : context.Orderly exclusions) {method : Nat}
    {record : MethodRecord α} (hrecord : context.profile.methods.record? method = some record)
    (hexcluded : record.excluded = false) :
    LedTo exclusions context method (context.enterNode method).1
      (context.enterNode method).2 := by
  have hinner := context.innermost_openCalls
  rcases context.enterNode_cases method with
    ⟨top, htop, hsame, heq⟩ | ⟨top, htop, -, heq⟩ | ⟨htop, heq⟩
  · rw [heq]
    rw [htop] at hinner
    exact ⟨h, Profile.Grows.refl _, hsame ▸ h.methodOf?_top htop, Or.inl hinner⟩
  · obtain ⟨hordered, hgrows, node, hnode, hmethod, hparent⟩ :=
      Profile.Ordered.leads h ⟨top.file, top.line⟩ hrecord (h.hasParent_top htop) hexcluded
    rw [heq]
    refine ⟨hordered, hgrows, by rw [Profile.methodOf?_eq hnode, hmethod], Or.inr ?_⟩
    rw [CallTree.parent?_eq hnode, hparent, hinner, htop, Option.map_some]
  · obtain ⟨hmarked, hshape, hroot⟩ := h.marked hrecord
    obtain ⟨hordered, hgrows, node, hnode, hmethod, hparent⟩ :=
      hmarked.leads .none hroot Profile.hasParent_none hexcluded
    rw [heq]
    refine ⟨hordered, hshape.grows.trans hgrows,
      by rw [Profile.methodOf?_eq hnode, hmethod], Or.inr ?_⟩
    rw [CallTree.parent?_eq hnode, hparent, hinner, htop, Option.map_none]

theorem Orderly.openCall (h : context.Orderly exclusions) {method : Nat}
    {record : MethodRecord α} (hrecord : context.profile.methods.record? method = some record)
    (hexcluded : record.excluded = false) (event : Event α) (paused : Bool) :
    (context.openCall method event paused).Orderly exclusions := by
  obtain ⟨hordered, -, hmethod, hplace⟩ := h.enterNode hrecord hexcluded
  show (context.openCall method event paused).profile.Ordered exclusions
    (context.openCall method event paused).stack.openCalls
  rw [openCalls_openCall hmethod, (openCall_eq hmethod event paused).1]
  exact hordered.enter hmethod hplace 0

/-! ## Other events -/

theorem Orderly.popped (h : context.Orderly exclusions) (now : α) :
    (context.popped now).Orderly exclusions := by
  show (context.stack.pop context.profile now).2.2.Ordered exclusions
    (context.stack.pop context.profile now).2.1.openCalls
  rcases context.stack.pop_cases context.profile now with
    ⟨hcalls, hprofile⟩ | ⟨call, below, selfTime, waitTime, totalTime, hopen, -, hcalls, hprofile⟩
  · rw [hcalls, hprofile]
    exact h
  · rw [hcalls, hprofile]
    unfold Orderly at h
    rw [hopen] at h
    exact h.close selfTime waitTime totalTime

omit [Amount α] in
theorem Orderly.allocated (h : context.Orderly exclusions) (event : Event α) :
    (context.allocated event).Orderly exclusions := by
  unfold Context.allocated
  split
  · split
    · exact Profile.Ordered.note h _ _ (fun _ => rfl) (fun _ => rfl) (fun _ => rfl)
        (fun _ => rfl) fun _ => rfl
    · exact h
  · exact h

end Context

end CallLedger
