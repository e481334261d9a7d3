import CallLedger.Dump.Indexing
import CallLedger.Proofs.Tables
import CallLedger.Replay

/-!
# What comes of searching

An operation that searches either has no outcome or the one that the function of its name has
outside `Searching` (`ComesTo`). It makes its searches in the same order and goes on from each of
them with the same outcome, so this goes through the definitions one after another: a search comes
to what `Registry.locate` says (`comesTo_locate`), and one thing after another comes to what their
results come to (`ComesTo.bind`).
-/

namespace CallLedger

/-- What has an outcome has this one. -/
def ComesTo {β : Type} (outcome : Option β) (result : β) : Prop :=
  ∀ found, outcome = some found → found = result

section

variable {β γ : Type} {outcome : Option β} {result : β}

theorem comesTo_some (result : β) : ComesTo (some result) result :=
  fun _ h => (Option.some.inj h).symm

theorem comesTo_of_eq {found : β} (h : found = result) : ComesTo (some found) result :=
  h ▸ comesTo_some found

theorem ComesTo.bind {next : β → Option γ} {final : γ} (h : ComesTo outcome result)
    (hnext : ComesTo (next result) final) : ComesTo (outcome >>= next) final := by
  intro found hfound
  obtain ⟨middle, hmiddle, hlast⟩ := Option.bind_eq_some_iff.mp hfound
  obtain rfl := h middle hmiddle
  exact hnext found hlast

theorem ComesTo.map (h : ComesTo outcome result) (change : β → γ) :
    ComesTo (outcome >>= fun found => some (change found)) (change result) :=
  h.bind (comesTo_some _)

theorem ComesTo.foldlM {step : γ → β → Option γ} {next : γ → β → γ}
    (h : ∀ state item, ComesTo (step state item) (next state item)) :
    ∀ (items : List β) (state : γ), ComesTo (items.foldlM step state) (items.foldl next state) := by
  intro items
  induction items with
  | nil => exact fun state => comesTo_some state
  | cons item items ih =>
      intro state
      rw [List.foldlM_cons, List.foldl_cons]
      exact (h state item).bind (ih _)

/-- Faults end both alike. -/
theorem ComesTo.bind_run {ε : Type} {outcome : ExceptT ε Option β} {result : Except ε β}
    {next : β → ExceptT ε Option γ} {final : β → Except ε γ} (h : ComesTo outcome.run result)
    (hnext : ∀ found, ComesTo (next found).run (final found)) :
    ComesTo (outcome >>= next).run (result >>= final) := by
  rw [ExceptT.run_bind]
  refine h.bind ?_
  cases result with
  | error fault => exact comesTo_some _
  | ok found => exact hnext found

theorem ComesTo.foldlM_run {ε : Type} {step : γ → β → ExceptT ε Option γ}
    {next : γ → β → Except ε γ}
    (h : ∀ state item, ComesTo (step state item).run (next state item)) :
    ∀ (items : List β) (state : γ),
      ComesTo (items.foldlM step state).run (items.foldlM next state) := by
  intro items
  induction items with
  | nil => exact fun state => comesTo_some _
  | cons item items ih =>
      intro state
      rw [List.foldlM_cons, List.foldlM_cons]
      exact (h state item).bind_run fun reached => ih reached

end

namespace Searching

variable {α : Type}

/-! ## Registries -/

section

variable (methods other : Registry α) (method : Method)

theorem comesTo_locate : ComesTo (methods.search method) (methods.locate method) := by
  intro found h
  rw [Registry.locate, h]

theorem comesTo_lookup : ComesTo (lookup methods method) (methods.lookup method) := by
  refine (comesTo_locate methods method).bind ?_
  unfold Registry.lookup
  cases methods.locate method <;> exact comesTo_some _

theorem comesTo_lookupFrom (id : MethodId) :
    ComesTo (lookupFrom methods other id) (methods.lookupFrom other id) := by
  unfold lookupFrom Registry.lookupFrom
  cases other.record? id with
  | none => exact comesTo_some _
  | some record => exact comesTo_lookup methods record.method

theorem comesTo_insert (record : MethodRecord α) :
    ComesTo (insert methods record) (methods.insert record) := by
  refine (comesTo_locate methods record.method).bind ?_
  unfold Registry.insert
  cases methods.locate record.method <;> exact comesTo_some _

theorem comesTo_lookupOrCreate [Amount α] (native : Bool) (source : Option SourceLocation)
    (exclusions : Exclusions) :
    ComesTo (lookupOrCreate methods method native source exclusions)
      (methods.lookupOrCreate method native source exclusions) := by
  refine (comesTo_locate methods method).bind ?_
  unfold Registry.lookupOrCreate
  cases methods.locate method <;> exact comesTo_some _

end

variable [Amount α]

/-! ## Merging -/

section

variable (profile other : Profile α)

omit [Amount α] in
theorem comesTo_methodFrom (node : NodeId) : ComesTo (methodFrom profile other node)
    ((other.methodOf? node).bind (profile.methods.lookupFrom other.methods)) := by
  unfold methodFrom
  cases other.methodOf? node with
  | none => exact comesTo_some _
  | some method => exact comesTo_lookupFrom profile.methods other.methods method

omit [Amount α] in
theorem comesTo_keyFrom (node : NodeId) :
    ComesTo (keyFrom profile other node) (profile.keyFrom other node) := by
  have hkey : profile.keyFrom other node =
      ((other.methodOf? node).bind (profile.methods.lookupFrom other.methods)).bind fun id =>
        (profile.methods.record? id).map (·.key) := by
    unfold Profile.keyFrom
    cases other.methodOf? node with
    | none => rfl
    | some theirs =>
        show (profile.methods.lookupFrom other.methods theirs).bind _ =
          (profile.methods.lookupFrom other.methods theirs).bind _
        refine congrArg _ (funext fun mine => ?_)
        cases profile.methods.record? mine <;> rfl
  rw [hkey]
  exact (comesTo_methodFrom profile other node).map _

theorem comesTo_copyNode (parent : Option NodeId) (node : Node α) :
    ComesTo (copyNode profile other parent node) (profile.copyNode other parent node) := by
  unfold copyNode Profile.copyNode
  cases other.methods.record? node.method with
  | none => exact comesTo_some _
  | some record => exact (comesTo_insert profile.methods record.detached).bind (comesTo_some _)

theorem comesTo_copyWithin : ∀ (levels : Nat) (profile : Profile α) (parent : Option NodeId)
    (source : NodeId), ComesTo (copyWithin other levels profile parent source)
      (Profile.copyWithin other levels profile parent source) := by
  intro levels
  induction levels with
  | zero => exact fun _ _ _ => comesTo_some _
  | succ levels ih =>
      intro profile parent source
      unfold copyWithin Profile.copyWithin
      cases other.tree.node? source with
      | none => exact comesTo_some _
      | some node =>
          exact (comesTo_copyNode profile other parent node).bind
            (ComesTo.foldlM (fun copied child => ih copied _ child) _ _)

theorem comesTo_copyMissing (target : NodeId) : ∀ (sources : List NodeId) (profile : Profile α)
    (pairs : List (NodeId × NodeId)), ComesTo (copyMissing other target sources profile pairs)
      (Profile.copyMissing other target sources profile pairs) := by
  intro sources
  induction sources with
  | nil => exact fun _ _ => comesTo_some _
  | cons source sources ih =>
      intro profile pairs
      unfold copyMissing Profile.copyMissing
      refine (comesTo_keyFrom profile other source).bind ?_
      cases (profile.keyFrom other source).bind (profile.tree.childOf? (some target)) with
      | some child => exact ih profile _
      | none =>
          exact (comesTo_copyWithin other other.tree.size profile (some target) source).bind
            (ih _ pairs)

theorem comesTo_addWithin : ∀ (levels : Nat) (profile : Profile α) (target source : NodeId),
    ComesTo (addWithin other levels profile target source)
      (Profile.addWithin other levels profile target source) := by
  intro levels
  induction levels with
  | zero => exact fun _ _ _ => comesTo_some _
  | succ levels ih =>
      intro profile target source
      unfold addWithin Profile.addWithin
      cases other.tree.node? source with
      | none => exact comesTo_some _
      | some node =>
          exact (comesTo_copyMissing other target node.children _ []).bind
            (ComesTo.foldlM (fun profile (pair : NodeId × NodeId) => ih profile pair.1 pair.2) _ _)

omit [Amount α] in
theorem comesTo_corresponds (target source : NodeId) :
    ComesTo (corresponds profile other target source)
      (profile.corresponds other target source) := by
  unfold corresponds Profile.corresponds
  cases profile.tree.node? target with
  | none => exact comesTo_some _
  | some mine =>
      cases other.tree.node? source with
      | none => exact comesTo_some _
      | some theirs =>
          refine (comesTo_lookupFrom profile.methods other.methods theirs.method).bind ?_
          by_cases hsame : profile.methods.lookupFrom other.methods theirs.method =
              some mine.method
          · simp only [hsame, if_true, decide_true, Bool.true_and]
            cases theirs.parent with
            | none => cases mine.parent <;> exact comesTo_some _
            | some theirParent =>
                refine (comesTo_methodFrom profile other theirParent).bind ?_
                cases mine.parent with
                | none => exact comesTo_of_eq (Bool.and_false _)
                | some myParent =>
                    refine comesTo_of_eq ?_
                    simp only [Option.any_some]
                    cases profile.methodOf? myParent with
                    | none => cases Option.bind _ _ <;> rfl
                    | some mine =>
                        cases other.methodOf? theirParent with
                        | none => rfl
                        | some theirs =>
                            simp only [Option.bind_some]
                            rw [Bool.eq_iff_iff, Bool.and_eq_true, decide_eq_true_eq,
                              decide_eq_true_eq]
                            exact ⟨fun h => h.2.symm, fun h => ⟨by rw [h]; rfl, h.symm⟩⟩
          · simp only [hsame, if_false, decide_false, Bool.false_and]
            exact comesTo_some _

theorem comesTo_mergeNode (target source : NodeId) :
    ComesTo (mergeNode profile other target source) (profile.mergeNode other target source) := by
  refine (comesTo_corresponds profile other target source).bind ?_
  unfold Profile.mergeNode
  split
  · exact (comesTo_addWithin other other.tree.size profile target source).map (·, true)
  · exact comesTo_some _

theorem comesTo_mergeRoot (source : NodeId) :
    ComesTo (mergeRoot profile other source) (profile.mergeRoot other source) := by
  refine (comesTo_keyFrom profile other source).bind ?_
  unfold Profile.mergeRoot
  cases (profile.keyFrom other source).bind profile.tree.root? with
  | none => exact comesTo_copyWithin other other.tree.size profile none source
  | some mine => exact (comesTo_mergeNode profile other mine source).map (·.1)

theorem comesTo_mergeTree : ComesTo (mergeTree profile other) (profile.mergeTree other) :=
  ComesTo.foldlM (fun profile root => comesTo_mergeRoot profile other root) _ profile

theorem comesTo_mergeMethod (record : MethodRecord α) :
    ComesTo (mergeMethod profile record) (profile.mergeMethod record) :=
  (comesTo_insert profile.methods record.detached).bind (comesTo_some _)

theorem comesTo_merge : ComesTo (merge profile other) (profile.merge other) := by
  unfold merge Profile.merge
  rw [← Array.foldlM_toList, ← Array.foldl_toList]
  exact (ComesTo.foldlM comesTo_mergeMethod _ profile).bind (comesTo_mergeTree _ other)

end

/-! ## Contexts and tables -/

theorem comesTo_called (context : Context α) (event : Event α) (exclusions : Exclusions)
    (paused : Bool) :
    ComesTo (called context event exclusions paused) (context.called event exclusions paused) := by
  unfold called Context.called
  cases event.method? with
  | none => exact comesTo_some _
  | some method =>
      refine (comesTo_lookupOrCreate context.profile.methods method _ _ exclusions).bind ?_
      simp only []
      split <;> exact comesTo_some _

theorem comesTo_mergeAll (context : Context α) (others : List (Context α)) :
    ComesTo (mergeAll context others) (others.foldl Context.merge context) := by
  refine ComesTo.foldlM (fun context other => ?_) others context
  exact (comesTo_merge context.profile other.profile).map fun profile =>
    { context with profile := profile }

omit [Amount α] in
theorem comesTo_modify (table : ContextTable α) (handle : Handle)
    {change : Context α → Option (Context α)} {result : Context α → Context α}
    (h : ∀ context, ComesTo (change context) (result context)) :
    ComesTo (modify table handle change) (table.modify handle result) := by
  unfold modify
  cases hget : table.get? handle with
  | none =>
      refine comesTo_of_eq ((ContextTable.modify_self table handle).symm.trans
        (ContextTable.modify_congr fun _ hsome => ?_))
      exact absurd hsome (by rw [hget]; nofun)
  | some context =>
      refine (h context).bind (comesTo_of_eq (ContextTable.modify_congr fun found hfound => ?_))
      rw [hget, Option.some.injEq] at hfound
      rw [hfound]

theorem comesTo_foldThread (table : ContextTable α) (thread : UInt64) :
    ComesTo (foldThread table thread) (table.foldThread thread) := by
  unfold foldThread ContextTable.foldThread
  cases table.fibers thread with
  | nil => exact comesTo_some _
  | cons first others =>
      refine comesTo_modify _ _ fun context => ?_
      rw [← List.foldl_map]
      exact comesTo_mergeAll context _

theorem comesTo_foldFibers (table : ContextTable α) :
    ComesTo (foldFibers table) table.foldFibers :=
  ComesTo.foldlM comesTo_foldThread _ table

/-! ## Sessions -/

section

variable (session : Session α)

theorem comesTo_record (event : Event α) (context : Context α) :
    ComesTo (record session event context) (session.record event context) := by
  unfold record
  split
  · next htraced =>
      cases hkind : event.kind with
      | call | nativeCall =>
          unfold Session.record
          rw [if_pos htraced, hkind]
          exact comesTo_called context event session.exclusions session.isPaused
      | «return» | nativeReturn | line | allocation => exact comesTo_some _
  · next htraced =>
      unfold Session.record
      rw [if_neg htraced]
      exact comesTo_some _

theorem comesTo_handle (event : Event α) :
    ComesTo (handle session event) (session.handle event) := by
  unfold handle Session.handle
  split
  · exact (comesTo_modify _ _ fun context => comesTo_record session event context).map _
  · exact comesTo_some _

theorem comesTo_stop (now : α) : ComesTo (stop session now) (session.stop now) := by
  unfold stop Session.stop
  split
  · refine ComesTo.bind ?_ (comesTo_some _)
    split
    · exact comesTo_foldFibers _
    · exact comesTo_some _
  · exact comesTo_some _

theorem comesTo_mergeFibers : ComesTo (mergeFibers session) session.mergeFibers := by
  unfold mergeFibers Session.mergeFibers
  split
  · exact comesTo_some _
  · exact (comesTo_foldFibers session.contexts).map _

theorem comesTo_perform (operation : Operation α) :
    ComesTo (perform session operation) (session.perform operation) := by
  cases operation with
  | event event => exact (comesTo_handle session event).map Except.ok
  | stop now => exact comesTo_stop session now
  | mergeFibers => exact comesTo_mergeFibers session
  | setMeasureMode | excludeMethod | setThreadFilter | start | pause | resume | teardown =>
      exact comesTo_some _

theorem comesTo_after (operation : Operation α) :
    ComesTo (after session operation) (session.after operation) := by
  refine (comesTo_perform session operation).bind ?_
  unfold Session.after
  cases session.perform operation <;> exact comesTo_some _

/-- A run that ends comes to what the operations come to, one after another. -/
theorem comesTo_run (operations : List (Operation α)) :
    ComesTo (run session operations) (session.run operations) :=
  ComesTo.foldlM comesTo_after operations session

end

/-! ## Loading -/

theorem comesTo_enter (listed : List (DumpedMethod α)) :
    ComesTo (enter listed) (Registry.ofDump listed) := by
  unfold enter Registry.ofDump
  refine ComesTo.foldlM (fun entered dumped => ?_) listed _
  exact (comesTo_insert entered.1 dumped.toRecord).map _

/-! ## Replaying -/

theorem comesTo_step (progress : Replay.Progress) (line : List UInt8 × Nat) :
    ComesTo (step progress line).run (Replay.step progress line) := by
  unfold step Replay.step
  split
  · exact comesTo_some _
  · split
    · exact comesTo_some _
    · split
      · exact comesTo_some _
      · next event _ =>
          cases progress.latest.isNone with
          | true =>
              simp only [if_true]
              cases Replay.inSession (progress.session.start event.sample) with
              | error failure => exact comesTo_some _
              | ok session => exact (comesTo_handle session event).map _
          | false => exact (comesTo_handle progress.session event).map _

theorem comesTo_finish (progress : Replay.Progress) :
    ComesTo (finish progress).run (Replay.finish progress) := by
  unfold finish Replay.finish
  cases progress.latest with
  | some sample => exact (comesTo_stop progress.session sample).map _
  | none =>
      simp only []
      cases progress.session.start 0 with
      | error error => exact comesTo_some _
      | ok session => exact (comesTo_stop session 0).map _

/-- A replay that ends comes to what it says of events one after another. -/
theorem comesTo_replay (options : ReplayOptions) (files : Replay.Files) :
    ComesTo (replay options files).run (Replay.run options files) := by
  unfold replay Replay.run
  cases Replay.setUp options files with
  | error failure => exact comesTo_some _
  | ok session =>
      cases files options.events with
      | none => exact comesTo_some _
      | some bytes =>
          refine (ComesTo.foldlM_run comesTo_step _ _).bind_run fun progress => ?_
          exact (comesTo_finish progress).bind_run fun session => comesTo_some _

end Searching

end CallLedger
