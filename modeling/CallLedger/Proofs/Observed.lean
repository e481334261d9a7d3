import CallLedger.Proofs.Moments
import CallLedger.Proofs.Following

/-!
# The call tree is the trie of the call paths

In every run in which nothing has been merged, the tree of a traced context is the
trie of the paths that its own events name (`Session.tree_is_trie`): there is a node
for every path that some recorded call led to, in the order in which the paths first
came up, counting the calls that led there and showing where the first one stood.

The invariant is that the context follows its trail for as long as events may come
(`OnTrail`). An event of another context is none of its business, a context that has
not been seen has no trail yet, and the end of a run closes what is open but adds no
call.
-/

namespace CallLedger

namespace Session

open ContextTable

variable {α : Type} [Amount α] {session : Session α} {key : ContextKey} {trail : Trail}

/-! ## What a run tells of a context -/

/-- What an operation tells of the context of a key. -/
def observed (session : Session α) (key : ContextKey) (trail : Trail) : Operation α → Trail
  | .event event =>
    if session.phase.isActive && event.key = key then trail.observe session.exclusions event
    else trail
  | _ => trail

/-- What a list of operations tells of the context of a key. -/
def trailOf (key : ContextKey) : Session α → Trail → List (Operation α) → Trail
  | _, trail, [] => trail
  | session, trail, operation :: later =>
    trailOf key (session.after operation) (session.observed key trail operation) later

/-- Whether an operation folds fibers. -/
def merges (session : Session α) : Operation α → Bool
  | .mergeFibers => !session.phase.isActive
  | .stop _ => session.phase.isActive && session.config.mergeFibers
  | _ => false

/-- Whether a list of operations goes by without folding fibers. -/
def unmerged : Session α → List (Operation α) → Bool
  | _, [] => true
  | session, operation :: later =>
    !session.merges operation && unmerged (session.after operation) later

/-! ## One operation -/

/-- Of one key there is a context that follows the trail, if it is traced. -/
def trailLaw (exclusions : Exclusions) (key : ContextKey) (trail : Trail) :
    Bool → Handle → Context α → Prop := fun _ _ context =>
  context.key = key → context.traced = true → context.Follows exclusions trail

theorem trailLaw_passes (exclusions : Exclusions) (key : ContextKey) (trail : Trail) (now : α) :
    Passes (trailLaw exclusions key trail) now where
  switchIn h hkey htraced := (h hkey htraced).switchIn now
  switchOut h hkey htraced := (h hkey htraced).switchOut now

/-- The context of a key is the trie of its calls, and follows its trail until the session is
finished. -/
structure OnTrail (key : ContextKey) (trail : Trail) (session : Session α) : Prop where
  exact : session.contexts.Exact
  unused : session.phase = .idle → session.contexts = .empty
  unseen : session.phase ≠ .finished → session.contexts.find? key = none → trail = .empty
  follows : session.phase ≠ .finished →
    session.contexts.Attended (trailLaw session.exclusions key trail)
  trie : session.contexts.Everywhere fun _ context =>
    context.key = key → context.traced = true → Trie trail.calls context.profile

omit [Amount α] in
theorem OnTrail.of_follows (hexact : session.contexts.Exact)
    (hunused : session.phase = .idle → session.contexts = .empty)
    (hunseen : session.contexts.find? key = none → trail = .empty)
    (hfollows : session.contexts.Attended (trailLaw session.exclusions key trail)) :
    OnTrail key trail session :=
  ⟨hexact, hunused, fun _ => hunseen, fun _ => hfollows,
    fun handle context hget hkey htraced => (hfollows handle context hget hkey htraced).trie⟩

/-- What is recorded on a context is what the event tells of it. -/
theorem follows_record {context : Context α} (h : context.Follows session.exclusions trail)
    (htraced : context.traced = true) (event : Event α) :
    (session.record event context).Follows session.exclusions
      (trail.observe session.exclusions event) := by
  rw [Session.record, if_pos htraced, Trail.observe]
  cases event.kind with
  | call => exact h.called event session.isPaused
  | nativeCall => exact h.called event session.isPaused
  | «return» => exact h.returned event.sample session.isPaused
  | nativeReturn => exact h.returned event.sample session.isPaused
  | line => exact h.moved event
  | allocation =>
      simp only []
      split
      · exact h.allocated event
      · exact h

theorem OnTrail.event (h : OnTrail key trail session) (event : Event α) :
    OnTrail key (session.observed key trail (.event event)) (session.handle event) := by
  cases hactive : session.phase.isActive with
  | false =>
      rw [observed, hactive, Bool.false_and, if_neg Bool.false_ne_true, Session.handle, hactive,
        if_neg Bool.false_ne_true]
      exact h
  | true =>
      have hphase := not_finished hactive
      rw [observed, hactive, Bool.true_and]
      generalize hlater : (if decide (event.key = key) = true then
        trail.observe session.exclusions event else trail) = later
      have hown : ∀ {handle : Nat} {context : Context α},
          trailLaw session.exclusions key trail true handle context →
            context.key = event.key →
              trailLaw session.exclusions key later true handle
                (session.record event context) := by
        intro handle context hlaw hcontext hkey htraced
        rw [session.key_record event context] at hkey
        have hbefore : context.traced = true := by
          cases hcase : context.traced with
          | true => rfl
          | false =>
              rw [Session.record, hcase, if_neg Bool.false_ne_true, hcase] at htraced
              cases htraced
        rw [← hlater, if_pos (decide_eq_true (hcontext.symm.trans hkey))]
        exact follows_record (hlaw hkey hbefore) hbefore event
      have hother : ∀ {handle : Nat} {context : Context α},
          trailLaw session.exclusions key trail false handle context →
            context.key ≠ event.key → trailLaw session.exclusions key later false handle context := by
        intro handle context hlaw hforeign hkey htraced
        rw [← hlater, if_neg]
        · exact hlaw hkey htraced
        · rw [decide_eq_true_eq]
          exact fun heq => hforeign (hkey.trans heq.symm)
      have hfresh : session.contexts.find? event.key = none →
          session.contexts.get? session.contexts.slots.size = none →
            trailLaw session.exclusions key trail false session.contexts.slots.size
              (Context.fresh event.key (session.filter.traces event.thread)
                session.config.initialStackCapacity : Context α) := by
        intro hnone _ hkey _
        change event.key = key at hkey
        rw [hkey] at hnone
        rw [h.unseen hphase hnone]
        exact Context.follows_fresh _ _ _ _
      obtain ⟨handle, hactivated⟩ := activated_handle hactive h.exact (h.follows hphase) event
        (trailLaw_passes session.exclusions key trail event.sample) hfresh hown hother
      rw [handle_eq hactive]
      refine OnTrail.of_follows hactivated.exact (fun hidle => ?_) (fun hnone => ?_)
        hactivated.attended
      · change session.phase = .idle at hidle
        rw [hidle] at hactive
        cases hactive
      · obtain ⟨hforeign, hbefore⟩ := hactivated.unseen h.exact hnone
        rw [← hlater, if_neg]
        · exact h.unseen hphase hbefore
        · rw [decide_eq_true_eq]
          exact fun heq => hforeign heq.symm

omit [Amount α] in
theorem OnTrail.mapLive (h : OnTrail key trail session) (change : Context α → Context α)
    (hactive : session.phase.isActive = true)
    (hkey : ∀ context, (change context).key = context.key)
    (htraced : ∀ context, (change context).traced = context.traced)
    (hchange : ∀ {context : Context α}, context.Follows session.exclusions trail →
      (change context).Follows session.exclusions trail)
    {phase : Phase} (hphase : phase.isActive = true) :
    OnTrail key trail
      { session with contexts := session.contexts.mapLive change, phase := phase } := by
  refine OnTrail.of_follows (h.exact.mapLive change hkey).1 (fun hidle => ?_)
    (h.unseen (not_finished hactive)) ?_
  · change phase = .idle at hidle
    rw [hidle] at hphase
    cases hphase
  · refine (h.follows (not_finished hactive)).mapLive fun {_ _ context} hlaw hsame htrace => ?_
    rw [hkey] at hsame
    rw [htraced] at htrace
    exact hchange (hlaw hsame htrace)

/-- The end of a run adds no call. -/
theorem OnTrail.stop (h : OnTrail key trail session) (hactive : session.phase.isActive = true)
    (hfibers : session.config.mergeFibers = false) (now : α) :
    OnTrail key trail (session.after (.stop now)) := by
  have hphase : (session.after (.stop now)).phase = .finished := by
    rw [after_stop, if_pos hactive]
  have hpasses : Passes (fun (_ : Bool) (_ : Handle) (context : Context α) =>
      context.key = key → context.traced = true →
        ∃ entries, context.Follows session.exclusions ⟨entries, trail.calls⟩) now := by
    refine ⟨fun {handle context} hlaw hkey htraced => ?_,
      fun {handle context} hlaw hkey htraced => ?_⟩
    · obtain ⟨entries, hfollows⟩ := hlaw hkey htraced
      exact ⟨entries, hfollows.switchIn now⟩
    · obtain ⟨entries, hfollows⟩ := hlaw hkey htraced
      exact ⟨entries, hfollows.switchOut now⟩
  obtain ⟨hexact, -, hattended⟩ := attended_unwindAll session now hpasses
    (fun {handle context} hlaw hkey htraced => by
      obtain ⟨entries, hfollows⟩ := hlaw hkey htraced
      exact hfollows.unwind now)
    session.contexts.handles h.exact fun handle context hget hkey htraced =>
      ⟨trail.entries, h.follows (not_finished hactive) handle context hget hkey htraced⟩
  have hcontexts := contexts_stop hactive hfibers now
  refine ⟨?_, fun hidle => ?_, fun hne => absurd hphase hne, fun hne => absurd hphase hne, ?_⟩
  · rw [hcontexts]
    exact hexact.resetLast
  · rw [hphase] at hidle
    cases hidle
  · intro handle context hget hkey htraced
    rw [hcontexts] at hget
    obtain ⟨entries, hfollows⟩ := hattended handle context hget hkey htraced
    exact hfollows.trie

theorem OnTrail.after (h : OnTrail key trail session) (operation : Operation α)
    (hunmerged : session.merges operation = false) :
    OnTrail key (session.observed key trail operation) (session.after operation) := by
  cases operation with
  | event event => exact h.event event
  | pause now =>
      rw [after_pause]
      split
      · next hrunning =>
          exact h.mapLive (·.pause now) (by rw [hrunning]; rfl) (fun _ => rfl) (fun _ => rfl)
            (fun hfollows => hfollows.pause now) rfl
      · exact h
  | resume now =>
      rw [after_resume]
      split
      · next hpaused =>
          exact h.mapLive (·.resume now) (by rw [hpaused]; rfl) (fun _ => rfl) (fun _ => rfl)
            (fun hfollows => hfollows.resume now) rfl
      · exact h
  | stop now =>
      cases hactive : session.phase.isActive with
      | true =>
          rw [merges, hactive, Bool.true_and] at hunmerged
          exact h.stop hactive hunmerged now
      | false =>
          rw [after_stop, hactive, if_neg Bool.false_ne_true]
          exact h
  | mergeFibers =>
      cases hactive : session.phase.isActive with
      | true =>
          rw [after_mergeFibers, if_pos hactive]
          exact h
      | false =>
          rw [merges, hactive] at hunmerged
          cases hunmerged
  | teardown =>
      refine ⟨exact_releaseAll, fun hidle => ?_, fun hne => absurd rfl hne,
        fun hne => absurd rfl hne, everywhere_releaseAll⟩
      cases hidle
  | start now =>
      rw [after_start]
      split
      · next hidle =>
          have hne : session.phase ≠ .finished := by
            rw [hidle]
            exact Phase.noConfusion
          refine OnTrail.of_follows h.exact (fun hrunning => ?_) (h.unseen hne) (h.follows hne)
          cases hrunning
      · exact h
  | setMeasureMode mode =>
      rw [after_setMeasureMode]
      split
      · exact ⟨h.exact, h.unused, h.unseen, h.follows, h.trie⟩
      · exact h
  | setThreadFilter filter =>
      rw [after_setThreadFilter]
      split
      · exact ⟨h.exact, h.unused, h.unseen, h.follows, h.trie⟩
      · exact h
  | excludeMethod method =>
      rw [after_excludeMethod]
      split
      · next hidle =>
          -- there is no context yet that a new exclusion could put in the wrong
          refine ⟨h.exact, h.unused, h.unseen, fun _ => ?_, h.trie⟩
          show session.contexts.Attended _
          rw [h.unused hidle]
          exact everywhere_empty
      · exact h

/-! ## Whole runs -/

theorem OnTrail.run : ∀ (operations : List (Operation α)) {session : Session α} {trail : Trail},
    OnTrail key trail session → session.unmerged operations = true →
      OnTrail key (session.trailOf key trail operations) (session.run operations) := by
  intro operations
  induction operations with
  | nil => intro session trail h _; exact h
  | cons operation operations ih =>
      intro session trail h hunmerged
      rw [unmerged, Bool.and_eq_true, Bool.not_eq_true'] at hunmerged
      exact ih (h.after operation hunmerged.1) hunmerged.2

/-- In every run in which nothing is merged, the tree of a traced context is the trie of the
paths that the events of the context name. -/
theorem tree_is_trie {config : Config} {session : Session α}
    (hmade : ofConfig config = .ok session) {operations : List (Operation α)}
    (hunmerged : session.unmerged operations = true) {handle : Handle} {context : Context α}
    (hget : (session.run operations).contexts.get? handle = some context)
    (htraced : context.traced = true) :
    Trie (session.trailOf context.key .empty operations).calls context.profile := by
  have hstart : OnTrail context.key .empty session := by
    rw [ofConfig] at hmade
    split at hmade
    · cases hmade
      exact OnTrail.of_follows exact_empty (fun _ => rfl) (fun _ => rfl) everywhere_empty
    · cases hmade
  exact (OnTrail.run operations hstart hunmerged).trie handle context hget rfl htraced

/-- A method that calls itself and then, two lines on and beneath an excluded method, another
one. -/
theorem tree_is_trie_recursive :
    ∃ context,
      ((unconfigured : Session Int).run
        [.excludeMethod ⟨⟨.plain, "A"⟩, "x"⟩, .start 0,
          .event (((Event.call ⟨.owner .plain, "A"⟩ "f").placed "a" 1).sampled 10),
          .event (((Event.call ⟨.owner .plain, "A"⟩ "f").placed "a" 1).sampled 20),
          .event ((Event.reached "a" 3).sampled 25),
          .event ((Event.call ⟨.owner .plain, "A"⟩ "x").sampled 30),
          .event (((Event.call ⟨.owner .plain, "A"⟩ "g").placed "b" 7).sampled 40),
          .stop 60]).contexts.get? 0 = some context ∧
      context.traced = true ∧ context.profile.tree.size = 2 ∧
      Trie [⟨[⟨⟨.plain, "A"⟩, "f"⟩], .none⟩, ⟨[⟨⟨.plain, "A"⟩, "f"⟩], ⟨some "a", 1⟩⟩,
        ⟨[⟨⟨.plain, "A"⟩, "g"⟩, ⟨⟨.plain, "A"⟩, "f"⟩], ⟨some "a", 3⟩⟩] context.profile := by
  generalize hrun : ([_, _, _, _, _, _, _, _] : List (Operation Int)) = operations
  have hunmerged : (unconfigured : Session Int).unmerged operations = true := by
    rw [← hrun]
    decide +kernel
  have hcalls : ((unconfigured : Session Int).trailOf ⟨0, 0⟩ .empty operations).calls =
      [⟨[⟨⟨.plain, "A"⟩, "f"⟩], .none⟩, ⟨[⟨⟨.plain, "A"⟩, "f"⟩], ⟨some "a", 1⟩⟩,
        ⟨[⟨⟨.plain, "A"⟩, "g"⟩, ⟨⟨.plain, "A"⟩, "f"⟩], ⟨some "a", 3⟩⟩] := by
    rw [← hrun]
    decide +kernel
  have hshown : (((unconfigured : Session Int).run operations).contexts.get? 0).map
      (fun context => (context.key, context.traced, context.profile.tree.size)) =
        some (⟨0, 0⟩, true, 2) := by
    rw [← hrun]
    decide +kernel
  obtain ⟨context, hget, hcontext⟩ := Option.map_eq_some_iff.mp hshown
  simp only [Prod.mk.injEq] at hcontext
  obtain ⟨hkey, htraced, hsize⟩ := hcontext
  have htrie := tree_is_trie (show ofConfig Config.default = .ok (unconfigured : Session Int)
    from rfl) hunmerged hget htraced
  rw [hkey, hcalls] at htrie
  exact ⟨context, hget, htraced, hsize, htrie⟩

end Session

end CallLedger
