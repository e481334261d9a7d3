import CallLedger.Proofs.Conservation
import CallLedger.Proofs.Leading
import CallLedger.Proofs.Roots

/-!
# What recording keeps

Two laws of a context are meant for the accounts: that records and nodes keep
one account (`Context.Kept`), and that no cost is lost at a node
(`Context.Conserved`). The second one rests on the first.

When a call is counted it has been led to its node, whether that was there or
has just been made (`Context.Reached`); from there on opening it is booking an
invocation, and closing it is booking what it took.
-/

namespace CallLedger.Context

variable {α : Type} [ExactAmount α] {exclusions : Exclusions}

/-- Records and nodes keep one account, and the marks of the roots are right. -/
structure Kept (exclusions : Exclusions) (context : Context α) : Prop where
  accounted : context.profile.Accounted exclusions context.stack.openCalls
  rooted : context.profile.Rooted

/-- No cost is lost at a node. -/
def Conserved (context : Context α) : Prop :=
  context.profile.Conserved context.stack.openCalls

/-- What a call of a method finds when it is counted. -/
structure Reached (exclusions : Exclusions) (context : Context α) (method : Nat)
    (profile : Profile α) (id : Nat) : Prop where
  accounted : profile.Accounted exclusions context.stack.openCalls
  rooted : profile.Rooted
  grows : context.profile.Grows profile
  ledger : profile.ledger = context.profile.ledger
  method : profile.methodOf? id = some method
  place : innermost context.stack.openCalls = some id ∨
    profile.tree.parent? id = innermost context.stack.openCalls

/-- A call from an open call of another method. -/
theorem Kept.child {context : Context α} (h : Kept exclusions context) {method caller : Nat}
    {record : MethodRecord α} (hrecord : context.profile.methods.record? method = some record)
    (hexcluded : record.excluded = false) (hparent : context.profile.HasParent (some caller))
    (site : CallSite) :
    (context.profile.child (some caller) method site).1.Accounted exclusions
        context.stack.openCalls ∧
      (context.profile.child (some caller) method site).1.Rooted ∧
      (context.profile.child (some caller) method site).1.ledger = context.profile.ledger := by
  obtain ⟨ha, hgrows, hledger, hspent, hroots, hpaths, node, hnode, -, hp⟩ :=
    h.accounted.toOrdered.child site hrecord hparent hexcluded
  refine ⟨h.accounted.of_ordered ha hspent hledger, fun other => ?_, hledger⟩
  -- the path of a node under a parent is not that of a root
  rw [hroots, hpaths, h.rooted other]
  refine (or_iff_left ?_).symm
  intro hpath
  obtain ⟨found, hfound, -⟩ := ha.sound.bound hnode
  rw [ha.sound.path_eq hnode hfound, hp, List.cons.injEq] at hpath
  exact ha.sound.path_ne_nil (hgrows.hasParent hparent _ rfl) hpath.2.symm

/-- A call on an empty stack. -/
theorem Kept.root {context : Context α} (h : Kept exclusions context) {method : Nat}
    {record : MethodRecord α} (hrecord : context.profile.methods.record? method = some record)
    (hexcluded : record.excluded = false) {marked : Profile α}
    (hmarked : marked = context.profile.modifyMethod method ({ · with root := true })) :
    (marked.child none method .none).1.Accounted exclusions context.stack.openCalls ∧
      (marked.child none method .none).1.Rooted ∧
      (marked.child none method .none).1.ledger = context.profile.ledger := by
  have horderly : context.Orderly exclusions := h.accounted.toOrdered
  obtain ⟨hordered, hshape, hfound⟩ := horderly.marked hrecord
  rw [← hmarked] at hordered hshape hfound
  have haccounted : marked.Accounted exclusions context.stack.openCalls := by
    rw [hmarked]
    exact h.accounted.note method ({ · with root := true }) (fun _ => rfl) (fun _ => rfl)
      (fun _ => rfl) (fun _ => rfl) (fun _ => rfl) fun _ => rfl
  obtain ⟨ha, hgrows, hledger, hspent, hroots, hpaths, node, hnode, hm, hp⟩ :=
    hordered.child .none hfound Profile.hasParent_none hexcluded
  refine ⟨haccounted.of_ordered ha hspent hledger, fun other => ?_, ?_⟩
  · obtain ⟨found, hafter, -, hname⟩ := hgrows.record? hfound
    have hmark : marked.methods.HasRoot other ↔
        context.profile.methods.HasRoot other ∨ (true = true ∧ other = record.method) := by
      rw [hmarked]
      exact Registry.hasRoot_modify hrecord (fun r : MethodRecord α => { r with root := true })
        (fun _ => rfl) (Bool.or_true _).symm other
    have hpath := ha.sound.path_eq hnode (by rw [hm]; exact hafter)
    rw [hroots, hmark, hpaths, hshape.hasPath_iff h.accounted.sound, h.rooted other, hpath, hname,
      hp]
    simp [Profile.pathTo]
  · rw [hledger]
    refine h.accounted.sound.ledger_of_tree hordered.sound hshape.grows ?_
    rw [hmarked]
    rfl

theorem Kept.enterNode {context : Context α} (h : Kept exclusions context) {method : Nat}
    {record : MethodRecord α} (hrecord : context.profile.methods.record? method = some record)
    (hexcluded : record.excluded = false) :
    Reached exclusions context method (context.enterNode method).1
      (context.enterNode method).2 := by
  have horderly : context.Orderly exclusions := h.accounted.toOrdered
  obtain ⟨-, hgrows, hmethod, hplace⟩ := horderly.enterNode hrecord hexcluded
  obtain ⟨haccounted, hrooted, hledger⟩ :
      (context.enterNode method).1.Accounted exclusions context.stack.openCalls ∧
        (context.enterNode method).1.Rooted ∧
        (context.enterNode method).1.ledger = context.profile.ledger := by
    rcases context.enterNode_cases method with
      ⟨top, -, -, heq⟩ | ⟨top, htop, -, heq⟩ | ⟨-, heq⟩
    · rw [heq]
      exact ⟨h.accounted, h.rooted, rfl⟩
    · rw [heq]
      exact h.child hrecord hexcluded (horderly.hasParent_top htop) _
    · rw [heq]
      exact h.root hrecord hexcluded rfl
  exact ⟨haccounted, hrooted, hgrows, hledger, hmethod, hplace⟩

/-- What a context keeps when its profile and stack change together. -/
theorem Kept.openCall {context : Context α} (h : Kept exclusions context) {method : Nat}
    {record : MethodRecord α} (hrecord : context.profile.methods.record? method = some record)
    (hexcluded : record.excluded = false) (event : Event α) (paused : Bool) :
    Kept exclusions (context.openCall method event paused) ∧
      (context.Conserved → (context.openCall method event paused).Conserved) := by
  have hreached := h.enterNode hrecord hexcluded
  have hcalls := openCalls_openCall hreached.method event paused
  obtain ⟨hafter, -⟩ := openCall_eq hreached.method event paused
  refine ⟨⟨?_, ?_⟩, fun hconserved => ?_⟩
  · rw [hcalls, hafter]
    exact hreached.accounted.enter hreached.method hreached.place
  · rw [hafter]
    refine hreached.rooted.of_shape hreached.accounted.sound (Profile.sameShape_enter _ _) ?_
    intro other
    obtain ⟨found, hfound, -, -⟩ := hreached.grows.record? hrecord
    exact (Registry.hasRoot_modify hfound MethodRecord.entered (fun _ => rfl)
      (Bool.or_false _).symm other).trans (or_iff_left (by simp))
  · show Profile.Conserved _ _
    rw [hcalls, hafter]
    exact (hconserved.of_ledger h.accounted.sound hreached.accounted.sound
      h.accounted.stacked hreached.grows hreached.ledger).enter hreached.accounted.toOrdered
        hreached.method

/-- A method is looked up, and entered if it was not known. -/
theorem Kept.learned {context : Context α} (h : Kept exclusions context) {method : Method}
    {methods : Registry α} {id : Nat}
    (hentered : context.profile.methods.Entered method (exclusions.contains method) methods id) :
    Kept exclusions { context with profile := { context.profile with methods := methods } } ∧
      (context.Conserved → Conserved
        { context with profile := { context.profile with methods := methods } }) := by
  have hlearned := h.accounted.toOrdered.entered hentered
  refine ⟨⟨h.accounted.of_ordered hlearned.ordered hlearned.spent hlearned.ledger,
    fun other => ?_⟩, fun hconserved => ?_⟩
  · rw [hlearned.roots, hlearned.paths]
    exact h.rooted other
  · exact hconserved.of_ledger h.accounted.sound hlearned.ordered.sound h.accounted.stacked
      hlearned.grows hlearned.ledger

/-- A call that is passed over. -/
theorem Kept.pass {context : Context α} (h : Kept exclusions context) :
    Kept exclusions { context with stack := context.stack.pass } ∧
      (context.Conserved → Conserved { context with stack := context.stack.pass }) := by
  refine ⟨⟨?_, h.rooted⟩, fun hconserved => ?_⟩
  · show context.profile.Accounted exclusions context.stack.pass.openCalls
    rw [openCalls_pass]
    exact h.accounted
  · show context.profile.Conserved context.stack.pass.openCalls
    rw [openCalls_pass]
    exact hconserved

theorem Kept.called {context : Context α} (h : Kept exclusions context) (event : Event α)
    (paused : Bool) :
    Kept exclusions (context.called event exclusions paused) ∧
      (context.Conserved → (context.called event exclusions paused).Conserved) := by
  cases hmethod : event.method? with
  | none =>
      rw [called_of_unnamed hmethod]
      exact h.pass
  | some method =>
      have hentered := context.lookup_entered event method exclusions
      obtain ⟨hknown, hsame⟩ := h.learned hentered
      obtain ⟨record, hrecord, -⟩ := hentered.exists_record
      rw [called_of_named hmethod hrecord]
      cases hexcluded : record.excluded with
      | true =>
          obtain ⟨hkept, hconserved⟩ := hknown.pass
          exact ⟨hkept, fun hbefore => hconserved (hsame hbefore)⟩
      | false =>
          obtain ⟨hkept, hconserved⟩ := hknown.openCall hrecord hexcluded event paused
          exact ⟨hkept, fun hbefore => hconserved (hsame hbefore)⟩

theorem Kept.popped {context : Context α} (h : Kept exclusions context) (now : α) :
    Kept exclusions (context.popped now) ∧
      (context.Conserved → (context.popped now).Conserved) := by
  rcases context.stack.pop_cases context.profile now with
    ⟨hcalls, hprofile⟩ | ⟨call, below, selfTime, waitTime, totalTime, hopen, hsplit, hcalls,
      hprofile⟩
  · refine ⟨⟨?_, ?_⟩, fun hconserved => ?_⟩
    · show (context.stack.pop context.profile now).2.2.Accounted exclusions
        (context.stack.pop context.profile now).2.1.openCalls
      rw [hcalls, hprofile]
      exact h.accounted
    · show (context.stack.pop context.profile now).2.2.Rooted
      rw [hprofile]
      exact h.rooted
    · show (context.stack.pop context.profile now).2.2.Conserved
        (context.stack.pop context.profile now).2.1.openCalls
      rw [hcalls, hprofile]
      exact hconserved
  · have haccounted := h.accounted
    rw [hopen] at haccounted
    refine ⟨⟨?_, ?_⟩, fun hconserved => ?_⟩
    · show (context.stack.pop context.profile now).2.2.Accounted exclusions
        (context.stack.pop context.profile now).2.1.openCalls
      rw [hcalls, hprofile]
      exact haccounted.close selfTime waitTime totalTime
    · show (context.stack.pop context.profile now).2.2.Rooted
      rw [hprofile]
      refine h.rooted.of_shape h.accounted.sound (Profile.sameShape_settle _ _ _ _ _) ?_
      intro other
      obtain ⟨node, hnode, hmethod⟩ := Profile.methodOf?_eq_some
        (haccounted.stacked.methodOf? List.mem_cons_self)
      obtain ⟨record, hrecord, -⟩ := h.accounted.sound.bound hnode
      rw [hmethod] at hrecord
      exact (Registry.hasRoot_modify hrecord (·.settled selfTime waitTime totalTime)
        (fun _ => rfl) (Bool.or_false _).symm other).trans (or_iff_left (by simp))
    · show (context.stack.pop context.profile now).2.2.Conserved
        (context.stack.pop context.profile now).2.1.openCalls
      rw [hcalls, hprofile]
      change context.profile.Conserved context.stack.openCalls at hconserved
      rw [hopen] at hconserved
      refine hconserved.close haccounted.toOrdered ?_
      rw [hsplit]
      abel

/-- Notes that are no part of an account keep it. -/
theorem Kept.noted {context : Context α} (h : Kept exclusions context) (method : Nat)
    (change : MethodRecord α → MethodRecord α)
    (hkey : ∀ record, (change record).key = record.key)
    (hmethod : ∀ record, (change record).method = record.method)
    (hnodes : ∀ record, (change record).nodes = record.nodes)
    (hcost : ∀ record, (change record).measurement = record.measurement)
    (hexcluded : ∀ record, (change record).excluded = record.excluded)
    (hvisits : ∀ record, (change record).visits = record.visits)
    (hroot : ∀ record, (change record).root = record.root) :
    Kept exclusions { context with profile := context.profile.modifyMethod method change } ∧
      (context.Conserved → Conserved
        { context with profile := context.profile.modifyMethod method change }) := by
  have haccounted := h.accounted.note method change hkey hmethod hnodes hcost hexcluded hvisits
  have hshape : Profile.SameShape context.profile (context.profile.modifyMethod method change) :=
    Profile.sameShape_modifyMethod hkey hmethod hnodes
  refine ⟨⟨haccounted, h.rooted.of_shape h.accounted.sound hshape fun other => ?_⟩, ?_⟩
  · show (context.profile.methods.modify method change).HasRoot other ↔ _
    cases hrecord : context.profile.methods.record? method with
    | none => rw [Registry.modify_of_none hrecord]
    | some record =>
        have hmark : (change record).root = (record.root || false) := by
          rw [hroot, Bool.or_false]
        exact (Registry.hasRoot_modify hrecord change hmethod hmark other).trans
          (or_iff_left (by simp))
  · intro hconserved
    exact hconserved.of_ledger h.accounted.sound haccounted.sound h.accounted.stacked
      hshape.grows (h.accounted.sound.ledger_of_tree haccounted.sound hshape.grows rfl)

theorem Kept.allocated {context : Context α} (h : Kept exclusions context) (event : Event α) :
    Kept exclusions (context.allocated event) ∧
      (context.Conserved → (context.allocated event).Conserved) := by
  unfold Context.allocated
  split
  · split
    · exact h.noted _ (fun record => { record with
          allocations := record.allocations.record _ _ })
        (fun _ => rfl) (fun _ => rfl) (fun _ => rfl) (fun _ => rfl) (fun _ => rfl) (fun _ => rfl)
        fun _ => rfl
    · exact ⟨h, id⟩
  · exact ⟨h, id⟩

end CallLedger.Context
