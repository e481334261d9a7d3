import CallLedger.Proofs.Moments
import CallLedger.Proofs.Pairing
import CallLedger.Proofs.Veil

/-!
# Excluded calls are transparent

A run is as good as the one in which every call of an excluded method, every call that
does not name its method, and the returns that match them only touch the contexts they
are raised on (`veil`). Both end with the same contexts, with the same call trees and
the same records of all methods that are not excluded
(`Session.Reachable.transparent`).

The two runs go side by side. Activity moves alike, as an event is raised on the same
context at the same moment in both, and the two contexts of a slot stay twins.
-/

namespace CallLedger

variable {α : Type}

namespace Moment

/-- The moment with what is hidden taken from it. The open calls of every context are given. -/
def veiled [Zero α] (exclusions : Exclusions) (opens : ContextKey → List Bool) :
    Moment α → Moment α
  | .event raised => .event (raised.veiled exclusions (opens raised.key))
  | .pause now => .pause now
  | .resume now => .resume now

/-- The open calls of every context after a moment. -/
def opensAfter (exclusions : Exclusions) (opens : ContextKey → List Bool) :
    Moment α → ContextKey → List Bool
  | .event raised =>
    Function.update opens raised.key (raised.openedAfter exclusions (opens raised.key))
  | .pause _ | .resume _ => opens

end Moment

/-- The moments of a run without hidden calls and their returns. -/
def veil [Zero α] (exclusions : Exclusions) (opens : ContextKey → List Bool) :
    List (Moment α) → List (Moment α)
  | [] => []
  | moment :: later =>
    moment.veiled exclusions opens :: veil exclusions (moment.opensAfter exclusions opens) later

namespace Session

open ContextTable

variable [Amount α] {session other : Session α} {opened : List Bool} {context twin : Context α}

/-- An event that only touches a context records nothing. -/
theorem record_touch (session : Session α) (event : Event α) (context : Context α) :
    session.record event.touch context = context := by
  unfold Session.record
  split
  · show (if session.config.trackAllocations then context.allocated event.touch else context) = _
    split
    · rfl
    · rfl
  · rfl

/-- What is recorded on the context of a run is recorded on that of the veiled run, unless it is
hidden. -/
theorem veiled_record
    (h : Context.Veiled session.exclusions session.isPaused opened context twin)
    (event : Event α) :
    Context.Veiled session.exclusions session.isPaused
      (event.openedAfter session.exclusions opened) (session.record event context)
      (session.record (event.veiled session.exclusions opened) twin) := by
  cases htraced : context.traced with
  | false =>
      have hnothing : ∀ (event : Event α) (context : Context α), context.traced = false →
          session.record event context = context := by
        intro event context hcontext
        rw [Session.record, hcontext]
        rfl
      rw [hnothing _ _ htraced, hnothing _ _ (h.traced.trans htraced)]
      refine ⟨h.toTwin, h.halted, fun htrace => ?_⟩
      rw [htraced] at htrace
      cases htrace
  | true =>
      have hcall : Context.Veiled session.exclusions session.isPaused
          (event.opensNothing session.exclusions :: opened)
          (context.called event session.exclusions session.isPaused)
          (if event.opensNothing session.exclusions then twin
            else twin.called event session.exclusions session.isPaused) := by
        cases hnothing : event.opensNothing session.exclusions with
        | true => exact h.called_hidden hnothing
        | false => exact h.called hnothing
      have hreturn : Context.Veiled session.exclusions session.isPaused opened.tail
          (context.returned event.sample session.isPaused)
          (if opened.head? = some true then twin
            else twin.returned event.sample session.isPaused) := by
        split
        · next hhidden =>
            obtain ⟨rest, rfl⟩ := List.head?_eq_some_iff.mp hhidden
            exact h.returned_hidden htraced event.sample
        · next hother => exact h.returned htraced hother event.sample
      have hveiled : session.record (event.veiled session.exclusions opened) twin =
          if event.isHidden session.exclusions opened then twin else session.record event twin := by
        rw [Event.veiled]
        split
        · exact session.record_touch event twin
        · rfl
      rw [hveiled, Session.record, if_pos htraced, Session.record,
        if_pos (h.traced.trans htraced), Event.isHidden, Event.openedAfter]
      cases event.kind with
      | call => exact hcall
      | nativeCall => exact hcall
      | «return» => simpa using hreturn
      | nativeReturn => simpa using hreturn
      | line => exact h.moved event
      | allocation =>
          simp only []
          split
          · exact h.allocated event
          · exact h

/-! ## Two runs side by side -/

/-- What holds of the two contexts of a slot while their calls are open. -/
def veilLaw (exclusions : Exclusions) (paused : Bool) (opens : ContextKey → List Bool)
    (context twin : Context α) : Prop :=
  Context.Veiled exclusions paused (opens context.key) context twin

/-- A session, and one in which the same has happened but for hidden calls. -/
structure Abreast (exclusions : Exclusions) (opens : ContextKey → List Bool)
    (session other : Session α) : Prop where
  same : other = { session with contexts := other.contexts }
  excluded : session.exclusions = exclusions
  active : session.phase.isActive = true
  fibers : session.config.mergeFibers = false
  exact : session.contexts.Exact
  unseen : ∀ key, session.contexts.find? key = none → opens key = []
  paired : Paired (veilLaw exclusions session.isPaused opens) session.contexts other.contexts

variable {exclusions : Exclusions} {opens : ContextKey → List Bool}

theorem waits_veilLaw (exclusions : Exclusions) (paused : Bool) (opens : ContextKey → List Bool)
    (now : α) : Waits (veilLaw exclusions paused opens) now where
  key h := h.key
  switchIn h := h.switchIn now
  switchOut h := h.switchOut now

theorem Abreast.event (h : Abreast exclusions opens session other) (event : Event α) :
    Abreast exclusions ((Moment.event event).opensAfter exclusions opens)
      (session.handle event) (other.handle (event.veiled exclusions (opens event.key))) := by
  obtain rfl := h.excluded
  generalize hveiled : event.veiled session.exclusions (opens event.key) = veiled
  generalize hlater : (Moment.event event).opensAfter session.exclusions opens = later
  have hplace : veiled.key = event.key ∧ veiled.sample = event.sample := by
    rw [← hveiled, Event.veiled]
    split
    · exact ⟨rfl, rfl⟩
    · exact ⟨rfl, rfl⟩
  have hactive : other.phase.isActive = true := by
    rw [h.same]
    exact h.active
  have hrecord : other.record = session.record := by
    rw [h.same]
    rfl
  have hupdated : ∀ key, key ≠ event.key → later key = opens key := by
    intro key hne
    rw [← hlater, Moment.opensAfter, Function.update_of_ne hne]
  have hfresh : session.contexts.find? event.key = none →
      veilLaw session.exclusions session.isPaused opens
        (.fresh event.key (session.filter.traces event.thread)
          session.config.initialStackCapacity : Context α)
        (.fresh event.key (session.filter.traces event.thread)
          session.config.initialStackCapacity) := by
    intro hnone
    show Context.Veiled _ _ (opens event.key) _ _
    rw [h.unseen _ hnone]
    exact Context.veiled_fresh _ _ _ _ _ 0
  have hown : ∀ {context twin : Context α},
      veilLaw session.exclusions session.isPaused opens context twin →
        context.key = event.key → veilLaw session.exclusions session.isPaused later
          (session.record event context) (other.record veiled twin) := by
    intro context twin hlaw hkey
    rw [veilLaw, hkey] at hlaw
    rw [veilLaw, session.key_record, hkey, ← hlater, Moment.opensAfter, Function.update_self,
      hrecord, ← hveiled]
    exact veiled_record hlaw event
  have hforeign : ∀ {context twin : Context α},
      veilLaw session.exclusions session.isPaused opens context twin →
        context.key ≠ event.key →
          veilLaw session.exclusions session.isPaused later context twin := by
    intro context twin hlaw hkey
    rw [veilLaw, hupdated _ hkey]
    exact hlaw
  obtain ⟨⟨handle, hactivated⟩, hpaired⟩ := paired_handle h.active h.exact h.paired h.same
    (congrArg ContextKey.thread hplace.1) (congrArg ContextKey.fiber hplace.1) hplace.2
    (waits_veilLaw _ _ _ _) hfresh hown hforeign
  rw [handle_eq h.active, handle_eq hactive]
  refine ⟨?_, rfl, h.active, h.fibers, hactivated.exact, fun key hnone => ?_, hpaired⟩
  · rw [h.same]
  · obtain ⟨hother, hbefore⟩ := hactivated.unseen h.exact hnone
    rw [hupdated key hother]
    exact h.unseen key hbefore

omit [Amount α] in
/-- Both pause or resume at one moment. -/
theorem Abreast.mapLive (h : Abreast exclusions opens session other)
    {change : Context α → Context α} {phase : Phase} (hactive : phase.isActive = true)
    (hkey : ∀ context, (change context).key = context.key)
    (hchange : ∀ {opened : List Bool} {context twin : Context α},
      Context.Veiled exclusions session.isPaused opened context twin →
        Context.Veiled exclusions (phase = .paused) opened (change context) (change twin)) :
    Abreast exclusions opens
      { session with contexts := session.contexts.mapLive change, phase := phase }
      { other with contexts := other.contexts.mapLive change, phase := phase } := by
  refine ⟨?_, h.excluded, hactive, h.fibers, (h.exact.mapLive change hkey).1, h.unseen, ?_⟩
  · rw [h.same]
  · refine h.paired.mapLive fun {context twin} hlaw => ?_
    rw [veilLaw, hkey]
    exact hchange hlaw

theorem Abreast.moment (h : Abreast exclusions opens session other) (moment : Moment α) :
    Abreast exclusions (moment.opensAfter exclusions opens)
      (session.after moment.operation)
      (other.after (moment.veiled exclusions opens).operation) := by
  have hphase : other.phase = session.phase := by rw [h.same]
  cases moment with
  | event event => exact h.event event
  | pause now =>
      show Abreast exclusions opens (session.after (.pause now)) (other.after (.pause now))
      rw [after_pause, after_pause, hphase]
      split
      · exact h.mapLive rfl (fun _ => rfl) fun hveiled => hveiled.pause now
      · exact h
  | resume now =>
      show Abreast exclusions opens (session.after (.resume now)) (other.after (.resume now))
      rw [after_resume, after_resume, hphase]
      split
      · exact h.mapLive rfl (fun _ => rfl) fun hveiled => hveiled.resume now
      · exact h

theorem Abreast.run : ∀ (moments : List (Moment α)) {opens : ContextKey → List Bool}
    {session other : Session α}, Abreast exclusions opens session other →
      ∃ later, Abreast exclusions later (session.run (moments.map Moment.operation))
        (other.run ((veil exclusions opens moments).map Moment.operation)) := by
  intro moments
  induction moments with
  | nil => intro opens session other h; exact ⟨opens, h⟩
  | cons moment moments ih => intro opens session other h; exact ih (h.moment moment)

theorem waits_twin (exclusions : Exclusions) (now : α) :
    Waits (Context.Twin (α := α) exclusions) now where
  key h := h.key
  switchIn h := h.switchIn now
  switchOut h := h.switchOut now

/-- Both end at one moment. The first one may have more returns to go through. -/
theorem Abreast.stop (h : Abreast exclusions opens session other) (now : α) :
    Paired (Context.Twin exclusions) (session.after (.stop now)).contexts
      (other.after (.stop now)).contexts := by
  have hactive : other.phase.isActive = true := by
    rw [h.same]
    exact h.active
  have hfibers : other.config.mergeFibers = false := by
    rw [h.same]
    exact h.fibers
  have htwins : Paired (Context.Twin exclusions) session.contexts other.contexts :=
    h.paired.imp fun hlaw => hlaw.toTwin
  rw [contexts_stop h.active h.fibers, contexts_stop hactive hfibers, htwins.handles_eq]
  exact (Paired.unwindAll h.same (waits_twin _ now) (fun htwin => htwin.unwind now) _ h.exact
    htwins).resetLast

end Session

/-! ## Whole runs -/

/-- An excluded method owns no node. -/
structure Profile.Disowns (exclusions : Exclusions) (profile : Profile α) : Prop where
  bound : ∀ {id : Nat} {node : Node α} {record : MethodRecord α},
    profile.tree.node? id = some node → profile.methods.record? node.method = some record →
      exclusions.contains record.method = false
  listed : ∀ {id : Nat} {record : MethodRecord α}, profile.methods.record? id = some record →
    exclusions.contains record.method = true → record.nodes = #[]

theorem Context.Orderly.disowns {exclusions : Exclusions} {context : Context α}
    (h : context.Orderly exclusions) : context.profile.Disowns exclusions where
  bound hnode hrecord := by
    rw [← h.excluded hrecord]
    exact h.unbound hnode hrecord
  listed hrecord hexcluded := by
    rw [← h.excluded hrecord] at hexcluded
    exact h.nodes_of_excluded hrecord hexcluded

/-- Two contexts that only excluded methods tell apart. -/
structure Context.Indistinct (exclusions : Exclusions) (context twin : Context α) : Prop where
  key : twin.key = context.key
  traced : twin.traced = context.traced
  profile : context.profile.Twins exclusions twin.profile
  disowns : context.profile.Disowns exclusions
  twinDisowns : twin.profile.Disowns exclusions

namespace Session

variable [Amount α] {session : Session α}

/-- In every run of every session that can come about, excluded and unnamed calls leave no other
trace than the record of an excluded method. A return is that of the latest call that is still
open in its context, so every run is properly nested. -/
theorem Reachable.transparent {dumps : Phase → Prop} (h : Reachable dumps session)
    (hidle : session.phase = .idle) (hfibers : session.config.mergeFibers = false)
    (start : α) (moments : List (Moment α)) (stop : α) :
    (session.recorded start moments stop).contexts.Paired
      (Context.Indistinct session.exclusions)
      (session.recorded start (veil session.exclusions (fun _ => []) moments) stop).contexts := by
  have hstarted : Abreast session.exclusions (fun _ => []) (session.after (.start start))
      (session.after (.start start)) := by
    rw [h.started hidle]
    exact ⟨rfl, rfl, rfl, hfibers, ContextTable.exact_empty, fun _ _ => rfl,
      ContextTable.paired_empty⟩
  obtain ⟨opens, hrun⟩ := Abreast.run moments hstarted
  rw [recorded_eq, recorded_eq]
  refine (hrun.stop stop).imp fun htwin => ?_
  exact ⟨htwin.key, htwin.traced, htwin.profile, htwin.orderly.disowns,
    htwin.twinOrderly.disowns⟩

/-- An excluded method calls on, and is paused. The one run has its record and the other one has
not. -/
theorem transparent_nested :
    ∃ context twin : Context Int,
      (((unconfigured : Session Int).run [.excludeMethod ⟨⟨.plain, "A"⟩, "x"⟩]).recorded 0
        [.event ((Event.call ⟨.owner .plain, "A"⟩ "f").sampled 10),
          .event ((Event.call ⟨.owner .plain, "A"⟩ "x").sampled 15),
          .event ((Event.bare .call).sampled 18), .pause 20, .event (Event.returned.sampled 25),
          .resume 30, .event ((Event.call ⟨.owner .plain, "A"⟩ "f").sampled 35),
          .event (Event.returned.sampled 40), .event (Event.returned.sampled 45)]
        60).contexts.get? 0 = some context ∧
      (((unconfigured : Session Int).run [.excludeMethod ⟨⟨.plain, "A"⟩, "x"⟩]).recorded 0
        [.event ((Event.call ⟨.owner .plain, "A"⟩ "f").sampled 10),
          .event ((Event.bare .allocation).sampled 15),
          .event ((Event.bare .allocation).sampled 18), .pause 20,
          .event ((Event.bare .allocation).sampled 25), .resume 30,
          .event ((Event.call ⟨.owner .plain, "A"⟩ "f").sampled 35),
          .event (Event.returned.sampled 40), .event ((Event.bare .allocation).sampled 45)]
        60).contexts.get? 0 = some twin ∧
      context.profile.methods.size = 2 ∧ twin.profile.methods.size = 1 ∧
      (context.profile.tree.node? 0).map (·.measurement) = some ⟨40, 0, 40, 2⟩ ∧
      (twin.profile.tree.node? 0).map (·.measurement) = some ⟨40, 0, 40, 2⟩ ∧
      context.Indistinct (Exclusions.empty.insert ⟨⟨.plain, "A"⟩, "x"⟩) twin := by
  generalize hsession : (unconfigured : Session Int).run _ = session
  generalize hmoments : ([_, _, _, _, _, _, _, _, _] : List (Moment Int)) = moments
  generalize hothers : ([_, _, _, _, _, _, _, _, _] : List (Moment Int)) = others
  have hexclusions : session.exclusions = Exclusions.empty.insert ⟨⟨.plain, "A"⟩, "x"⟩ := by
    rw [← hsession]
    rfl
  have hveil : veil session.exclusions (fun _ => []) moments = others := by
    rw [hexclusions, ← hmoments, ← hothers]
    rfl
  have hshown : ((session.recorded 0 moments 60).contexts.get? 0).map
      (fun context => (context.profile.methods.size,
        (context.profile.tree.node? 0).map (·.measurement))) = some (2, some ⟨40, 0, 40, 2⟩) := by
    rw [← hsession, ← hmoments]
    decide +kernel
  have hother : ((session.recorded 0 others 60).contexts.get? 0).map
      (fun context => (context.profile.methods.size,
        (context.profile.tree.node? 0).map (·.measurement))) = some (1, some ⟨40, 0, 40, 2⟩) := by
    rw [← hsession, ← hothers]
    decide +kernel
  have hreachable : Reachable (fun _ => True) session :=
    hsession ▸ (reachable_unconfigured fun _ => True).run _
  have hpaired := hreachable.transparent (hsession ▸ rfl) (hsession ▸ rfl) 0 moments 60
  rw [hveil, hexclusions] at hpaired
  obtain ⟨context, hcontext, hsizes⟩ := Option.map_eq_some_iff.mp hshown
  obtain ⟨twin, htwin, hindistinct⟩ := hpaired.get? hcontext
  rw [htwin, Option.map_some] at hother
  simp only [Option.some.injEq, Prod.mk.injEq] at hsizes hother
  exact ⟨context, twin, hcontext, htwin, hsizes.1, hother.1, hsizes.2, hother.2, hindistinct⟩

end Session

end CallLedger
