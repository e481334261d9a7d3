import CallLedger.Proofs.Commuting
import CallLedger.Proofs.Identity
import CallLedger.Proofs.Observed

/-!
# Threads that are not traced

A thread that the filter keeps out still has contexts. They become active and so begin and end the
waits of the others, but nothing is recorded on them: they stay as they were made
(`Context.Blank`), through folding too, where they only meet contexts of their own thread. Of an
event on such a thread the session looks at the thread, the fiber and the sample, which is what
makes two runs that differ in the rest the same (`Session.run_alike`).

Which contexts there are, and in what order, is decided by the keys of the events alone
(`Session.Listed`). What a dump shows of the threads that are kept out is then nothing
(`Session.Reachable.discreet`).
-/

namespace CallLedger

variable {α : Type}

/-! ## The keys of a table -/

namespace ContextTable

variable {table after : ContextTable α}

theorem keys_eq (table : ContextTable α) : table.keys =
    (List.range table.slots.size).filterMap fun handle => (table.get? handle).map (·.key) := by
  unfold keys live
  rw [List.map_filterMap]
  refine List.filterMap_congr fun handle _ => ?_
  rw [Option.map_map]
  rfl

theorem keys_congr (hsize : after.slots.size = table.slots.size)
    (hslots : ∀ handle : Nat,
      (after.get? handle).map (·.key) = (table.get? handle).map (·.key)) :
    after.keys = table.keys := by
  rw [keys_eq, keys_eq, hsize]
  exact List.filterMap_congr fun handle _ => hslots handle

theorem keys_modify (table : ContextTable α) (handle : Handle) (change : Context α → Context α)
    (hkey : ∀ context, (change context).key = context.key) :
    (table.modify handle change).keys = table.keys := by
  refine keys_congr Array.size_modify fun other => ?_
  rw [get?_modify]
  split
  · rw [Option.map_map]
    exact congrArg (Option.map · _) (funext hkey)
  · rfl

theorem keys_mapLive (table : ContextTable α) (change : Context α → Context α)
    (hkey : ∀ context, (change context).key = context.key) :
    (table.mapLive change).keys = table.keys := by
  refine keys_congr (Array.size_map ..) fun other => ?_
  rw [get?_mapLive, Option.map_map]
  exact congrArg (Option.map · _) (funext hkey)

theorem keys_insert (table : ContextTable α) (context : Context α) :
    (table.insert context).keys = table.keys ++ [context.key] := by
  unfold keys
  rw [live_insert, List.map_append]
  rfl

theorem keys_releaseAll (table : ContextTable α) : table.releaseAll.keys = [] := by
  rw [keys_eq, List.filterMap_eq_nil_iff]
  intro handle _
  rw [get?_releaseAll]
  rfl

variable [Amount α]

theorem keys_switchTo (table : ContextTable α) (handle : Handle) (now : α) :
    (table.switchTo handle now).keys = table.keys := by
  unfold switchTo
  cases table.last with
  | none => exact table.keys_modify handle (·.switchIn now) fun _ => rfl
  | some last =>
      exact ((table.modify handle (·.switchIn now)).keys_modify last (·.switchOut now)
        fun _ => rfl).trans (table.keys_modify handle (·.switchIn now) fun _ => rfl)

/-- A context that becomes active was there already or comes last. -/
theorem Exact.keys_activate (h : table.Exact) (key : ContextKey) (now : α) (filter : ThreadFilter)
    (capacity : Nat) : (table.activate key now filter capacity).1.keys =
      if (table.find? key).isSome then table.keys else table.keys ++ [key] := by
  unfold ContextTable.activate
  cases hactive : table.active? key with
  | some handle =>
      obtain ⟨hlast, hkey⟩ := Option.filter_eq_some_iff.mp hactive
      obtain ⟨context, hget⟩ := h.last hlast
      rw [hget, Option.any_some, decide_eq_true_eq] at hkey
      rw [h.find.mpr ⟨context, hget, hkey⟩]
      rfl
  | none =>
      simp only [slotFor]
      cases table.find? key with
      | some handle => exact table.keys_switchTo handle now
      | none => exact (keys_switchTo _ _ now).trans (table.keys_insert _)

end ContextTable

/-! ## Contexts -/

theorem Profile.merge_empty [Amount α] (profile : Profile α) : profile.merge .empty = profile := by
  unfold merge mergeTree
  rw [show (Profile.empty : Profile α).methods.records = #[] from rfl, Array.foldl_empty]
  rfl

namespace Context

variable {context : Context α}

/-- Nothing has been recorded, and nothing is open. -/
structure Blank (context : Context α) : Prop where
  methods : context.profile.methods = .empty
  tree : context.profile.tree = .empty
  frames : context.stack.frames = []

theorem Blank.profile_eq (h : context.Blank) : context.profile = .empty := by
  obtain ⟨key, traced, ⟨methods, tree⟩, stack⟩ := context
  obtain ⟨rfl, rfl, -⟩ := h
  rfl

theorem Blank.restacked (h : context.Blank) {change : Frame α → Frame α} :
    { context with stack := context.stack.modifyTop change }.Blank :=
  ⟨h.methods, h.tree, Session.frames_modifyTop h.frames⟩

variable [Amount α]

/-- Adding what is blank changes nothing. -/
theorem foldl_merge_blank : ∀ {others : List (Context α)} {context : Context α},
    (∀ other ∈ others, other.Blank) → others.foldl Context.merge context = context := by
  intro others
  induction others with
  | nil => intro context _; rfl
  | cons other others ih =>
      intro context hothers
      have hmerged : context.merge other = context := by
        unfold Context.merge
        rw [(hothers other List.mem_cons_self).profile_eq, Profile.merge_empty]
      rw [List.foldl_cons, hmerged]
      exact ih fun later hlater => hothers later (List.mem_cons_of_mem _ hlater)

/-- A context that is not traced is blank. -/
def Concealed (context : Context α) : Prop := context.traced = false → context.Blank

/-- What is left of a thread that is not traced was never anything. -/
theorem concealed_foldedAmong {filter : ThreadFilter} {contexts : List (Context α)}
    (hfiltered : ∀ context ∈ contexts, context.Filtered filter)
    (hconcealed : ∀ context ∈ contexts, context.Concealed) {left : Context α}
    (hcontext : context ∈ contexts) (hleft : foldedAmong contexts context = some left) :
    left.Concealed := by
  intro huntraced
  rw [traced_foldedAmong hfiltered hcontext hleft] at huntraced
  have hall : ∀ other ∈ fibersAmong contexts context.key.thread, other.Blank := by
    intro other hother
    obtain ⟨hmem, hthread⟩ := List.mem_filter.mp (List.mem_mergeSort.mp hother)
    refine hconcealed other hmem ?_
    rw [hfiltered other hmem, of_decide_eq_true hthread, ← hfiltered context hcontext, huntraced]
  unfold foldedAmong at hleft
  cases hfibers : fibersAmong contexts context.key.thread with
  | nil =>
      rw [hfibers] at hleft
      cases hleft
  | cons first others =>
      rw [hfibers] at hleft hall
      simp only [] at hleft
      split at hleft
      · cases hleft
        rw [foldl_merge_blank fun other hother => hall other (List.mem_cons_of_mem _ hother)]
        exact hall first List.mem_cons_self
      · cases hleft

end Context

namespace Session

open ContextTable

variable [Amount α] {session : Session α}

theorem record_untraced {context : Context α} (h : context.traced = false) (event : Event α) :
    session.record event context = context := by
  rw [Session.record, h]
  rfl

theorem concealed_handle (hexact : session.contexts.Exact)
    (h : session.contexts.Everywhere fun _ context => context.Concealed) (event : Event α) :
    (session.handle event).contexts.Everywhere fun _ context => context.Concealed := by
  cases hactive : session.phase.isActive with
  | false =>
      unfold Session.handle
      rw [hactive]
      exact h
  | true =>
      have hall : session.contexts.Attended fun _ _ context => context.Concealed := h
      have hactivated : ∃ handle, Activated session.contexts (session.handle event).contexts
          (fun _ _ context => context.Concealed) ⟨event.thread, event.fiber⟩ handle := by
        refine activated_handle hactive hexact hall event
          ⟨fun hc huntraced => (hc huntraced).restacked,
            fun hc huntraced => (hc huntraced).restacked⟩
          (fun _ _ _ => ⟨rfl, rfl, rfl⟩) (fun {_ context} hc _ huntraced => ?_) fun hc _ => hc
        rw [(session.record_keeps event context).2] at huntraced
        rw [record_untraced huntraced]
        exact hc huntraced
      exact hactivated.choose_spec.attended

/-- Folding meets contexts of one thread only, and all of them are traced or none. -/
theorem concealed_foldFibers {table : ContextTable α} {filter : ThreadFilter}
    (hexact : table.Exact)
    (hfiltered : table.Everywhere fun _ context => context.Filtered filter)
    (h : table.Everywhere fun _ context => context.Concealed) :
    table.foldFibers.Everywhere fun _ context => context.Concealed := by
  intro handle context hget
  rw [hexact.get?_foldFibers] at hget
  obtain ⟨before, hbefore, hleft⟩ := Option.bind_eq_some_iff.mp hget
  have hlive : ∀ {law : Context α → Prop}, (table.Everywhere fun _ => law) →
      ∀ context ∈ table.live.map (·.2), law context := by
    intro law hlaw context hcontext
    obtain ⟨entry, hentry, rfl⟩ := List.mem_map.mp hcontext
    exact hlaw _ _ (mem_live.mp hentry)
  exact Context.concealed_foldedAmong (hlive hfiltered) (hlive h)
    (List.mem_map.mpr ⟨(handle, before), mem_live.mpr hbefore, rfl⟩) hleft

theorem concealed_after (hexact : session.contexts.Exact)
    (hfiltered : session.contexts.Everywhere fun _ context => context.Filtered session.filter)
    (h : session.contexts.Everywhere fun _ context => context.Concealed)
    (operation : Operation α) :
    (session.after operation).contexts.Everywhere fun _ context => context.Concealed := by
  have hall : session.contexts.Attended fun _ _ context =>
      context.Filtered session.filter ∧ context.Concealed :=
    fun handle context hget => ⟨hfiltered handle context hget, h handle context hget⟩
  have hunwound := fun now => attended_unwindAll session now
    ⟨fun hc => ⟨hc.1, fun huntraced => (hc.2 huntraced).restacked⟩,
      fun hc => ⟨hc.1, fun huntraced => (hc.2 huntraced).restacked⟩⟩
    (fun {handle context} hc => ⟨hc.1, fun huntraced => by
      rw [Context.unwind_of_empty (hc.2 huntraced).frames]
      exact hc.2 huntraced⟩)
    session.contexts.handles hexact hall
  have houtlasts : Outlasts session fun table =>
      table.Everywhere fun _ context => context.Concealed :=
    { here := h
      paused := fun now => h.mapLive fun hc huntraced => (hc huntraced).restacked
      resumed := fun now => h.mapLive fun hc huntraced => (hc huntraced).restacked
      unwound := fun now handle context hget => ((hunwound now).2.2 handle context hget).2
      unwoundFolded := fun now => concealed_foldFibers (hunwound now).1.resetLast
        (fun handle context hget => ((hunwound now).2.2 handle context hget).1)
        fun handle context hget => ((hunwound now).2.2 handle context hget).2
      recorded := concealed_handle hexact h
      folded := fun _ => concealed_foldFibers hexact hfiltered h
      released := everywhere_releaseAll }
  exact houtlasts.after operation

theorem Reachable.concealed {dumps : Phase → Prop} (h : Reachable dumps session) :
    session.contexts.Everywhere fun _ context => context.Concealed := by
  induction h with
  | @made config session hmade =>
      unfold ofConfig at hmade
      split at hmade
      · cases hmade
        exact everywhere_empty
      · cases hmade
  | after h operation ih => exact concealed_after h.exact h.filtered ih operation
  | loaded _ _ hload _ =>
      obtain ⟨-, contexts, hcontexts, rfl⟩ := ofDump_eq_ok.mp hload
      refine everywhere_empty.foldl_insert fun context hcontext huntraced => ?_
      obtain ⟨dumped, -, hok⟩ := mem_of_mapM hcontexts context hcontext
      obtain ⟨profile, -, rfl⟩ := DumpedContext.toContext_eq_ok.mp hok
      cases huntraced

/-! ## Runs that differ in what is not traced -/

end Session

/-- Two events of one context and moment, and on a traced thread one event. -/
structure Event.Alike (filter : ThreadFilter) (event other : Event α) : Prop where
  key : other.key = event.key
  sample : other.sample = event.sample
  traced : filter.traces event.thread = true → other = event

/-- Two operations that are one, or else events that a filter does not tell apart. -/
inductive Operation.Alike (filter : ThreadFilter) : Operation α → Operation α → Prop
  | same (operation : Operation α) : Alike filter operation operation
  | event {event other : Event α} (h : event.Alike filter other) :
      Alike filter (.event event) (.event other)

namespace Session

open ContextTable

variable [Amount α] {session : Session α}

/-- Of an event on a thread that is not traced, the key and the sample are all that matters. -/
theorem handle_alike (hexact : session.contexts.Exact)
    (hfiltered : session.contexts.Everywhere fun _ context => context.Filtered session.filter)
    {event other : Event α} (h : event.Alike session.filter other) :
    session.handle other = session.handle event := by
  cases htraces : session.filter.traces event.thread with
  | true => rw [h.traced htraces]
  | false =>
      cases hactive : session.phase.isActive with
      | false =>
          rw [Session.handle, Session.handle, hactive, if_neg Bool.false_ne_true,
            if_neg Bool.false_ne_true]
      | true =>
          have hall : session.contexts.Attended fun _ _ context =>
              context.Filtered session.filter := hfiltered
          obtain ⟨hthread, hfiber⟩ := ContextKey.mk.inj h.key
          have hactivated := hexact.activate hall
            (⟨fun hc => hc, fun hc => hc⟩ : Passes _ event.sample) ⟨event.thread, event.fiber⟩
            session.filter session.config.initialStackCapacity fun _ _ => rfl
          have hskipped : ∀ {context : Context α}, context.Filtered session.filter →
              context.key = ⟨event.thread, event.fiber⟩ → ∀ raised : Event α,
                session.record raised context = context := by
            intro context hc hkey raised
            refine record_untraced ?_ raised
            rw [hc, hkey]
            exact htraces
          have hcontexts : (session.handle other).contexts = (session.handle event).contexts := by
            rw [contexts_handle hactive, contexts_handle hactive, hthread, hfiber, h.sample]
            refine modify_congr fun context hget => ?_
            obtain ⟨found, hfound, hkey⟩ := hactivated.found
            cases hfound.symm.trans hget
            have hc := hactivated.attended _ _ hget
            rw [hskipped hc hkey, hskipped hc hkey]
          rw [handle_eq hactive, hcontexts, ← handle_eq hactive]

theorem after_alike (hexact : session.contexts.Exact)
    (hfiltered : session.contexts.Everywhere fun _ context => context.Filtered session.filter)
    {operation other : Operation α} (h : operation.Alike session.filter other) :
    session.after other = session.after operation := by
  cases h with
  | same operation => rfl
  | event h => exact handle_alike hexact hfiltered h

/-- Once a run has begun its filter is fixed. -/
theorem begun_after (hphase : session.phase ≠ .idle) (operation : Operation α) :
    (session.after operation).phase ≠ .idle ∧
      (session.after operation).filter = session.filter := by
  refine ⟨fun hidle => ?_, ?_⟩
  · rw [phase_after] at hidle
    exact hphase (Phase.next_eq_idle.mp hidle).1
  · exact (session.filter_after operation).resolve_right fun hidle => hphase hidle.1

theorem filter_run : ∀ (operations : List (Operation α)) {session : Session α},
    session.phase ≠ .idle → (session.run operations).filter = session.filter := by
  intro operations
  induction operations with
  | nil => intro session _; rfl
  | cons operation operations ih =>
      intro session hphase
      obtain ⟨hnext, hfilter⟩ := begun_after hphase operation
      exact (ih hnext).trans hfilter

theorem run_alike {dumps : Phase → Prop} {operations others : List (Operation α)}
    {session : Session α} (hreachable : Reachable dumps session) (hphase : session.phase ≠ .idle)
    (h : List.Forall₂ (Operation.Alike session.filter) operations others) :
    session.run others = session.run operations := by
  induction operations generalizing session others with
  | nil =>
      cases h
      rfl
  | cons operation operations ih =>
      obtain ⟨other, rest, hfirst, hrest, rfl⟩ := List.forall₂_cons_left_iff.mp h
      obtain ⟨hnext, hfilter⟩ := begun_after hphase operation
      change (session.after other).run rest = (session.after operation).run operations
      rw [after_alike hreachable.exact hreachable.filtered hfirst]
      exact ih (hreachable.after operation) hnext (hfilter ▸ hrest)

/-! ## The contexts of a run -/

/-- The keys that events have told of, with those that an operation adds. -/
def heard (session : Session α) (keys : List ContextKey) : Operation α → List ContextKey
  | .event event => if session.phase.isActive then keys ++ [event.key] else keys
  | .teardown => []
  | _ => keys

/-- The keys of the events that are delivered while the session is active, in order. Releasing
the contexts makes the list empty again. -/
def heardIn : Session α → List ContextKey → List (Operation α) → List ContextKey
  | _, keys, [] => keys
  | session, keys, operation :: later =>
    heardIn (session.after operation) (session.heard keys operation) later

/-- There is a context for each key that was heard of, in the order of the first times. -/
structure Listed (keys : List ContextKey) (session : Session α) : Prop where
  exact : session.contexts.Exact
  keys : session.contexts.keys = keys.eraseDups

theorem keys_unwind (session : Session α) {table : ContextTable α} (h : table.Exact) (now : α)
    (handle : Handle) : (session.unwind now table handle).keys = table.keys := by
  unfold Session.unwind
  cases hget : table.get? handle with
  | none => rfl
  | some context =>
      have hseen : (table.find? context.key).isSome = true := by
        rw [h.find.mpr ⟨context, hget, rfl⟩]
        rfl
      exact (keys_modify _ _ (·.unwind now) fun _ => rfl).trans
        ((h.keys_activate context.key now session.filter _).trans (if_pos hseen))

theorem keys_unwindAll (session : Session α) (now : α) : ∀ (handles : List Handle)
    {table : ContextTable α}, table.Exact →
      (handles.foldl (session.unwind now) table).keys = table.keys := by
  intro handles
  induction handles with
  | nil => intro table _; rfl
  | cons handle handles ih =>
      intro table h
      have hexact := (attended_unwind session h (attended_true _) now (passes_true now)
        (fun _ => trivial) handle).1
      exact (ih hexact).trans (session.keys_unwind h now handle)

theorem Listed.event {keys : List ContextKey} (h : Listed keys session) (event : Event α) :
    Listed (session.heard keys (.event event)) (session.handle event) := by
  refine ⟨exact_handle h.exact event, ?_⟩
  unfold heard
  cases hactive : session.phase.isActive with
  | false =>
      rw [Session.handle, hactive]
      exact h.keys
  | true =>
      have hkeys := h.exact.keys_activate event.key event.sample session.filter
        session.config.initialStackCapacity
      rw [contexts_handle hactive, keys_modify _ _ _ (session.key_record event)]
      refine hkeys.trans ?_
      change _ = (keys ++ [event.key]).eraseDups
      cases hseen : (session.contexts.find? event.key).isSome with
      | true =>
          have hmem : event.key ∈ keys := by
            rw [← List.mem_eraseDups, ← h.keys, h.exact.mem_keys_iff, hseen]
          rw [eraseDups_concat_of_mem hmem]
          exact h.keys
      | false =>
          have hnew : event.key ∉ keys := by
            rw [← List.mem_eraseDups, ← h.keys, h.exact.mem_keys_iff, hseen]
            exact Bool.false_ne_true
          rw [eraseDups_concat hnew, ← h.keys]
          rfl

theorem Listed.after {keys : List ContextKey} (h : Listed keys session) (operation : Operation α)
    (hunmerged : session.merges operation = false) :
    Listed (session.heard keys operation) (session.after operation) := by
  refine ⟨exact_after h.exact operation, ?_⟩
  cases operation with
  | event event => exact (h.event event).keys
  | teardown => exact keys_releaseAll _
  | pause now =>
      rw [after_pause]
      split
      · exact (keys_mapLive _ (·.pause now) fun _ => rfl).trans h.keys
      · exact h.keys
  | resume now =>
      rw [after_resume]
      split
      · exact (keys_mapLive _ (·.resume now) fun _ => rfl).trans h.keys
      · exact h.keys
  | stop now =>
      cases hactive : session.phase.isActive with
      | true =>
          rw [merges, hactive, Bool.true_and] at hunmerged
          rw [contexts_stop hactive hunmerged]
          exact (session.keys_unwindAll now _ h.exact).trans h.keys
      | false =>
          rw [after_stop, hactive, if_neg Bool.false_ne_true]
          exact h.keys
  | mergeFibers =>
      rw [after_mergeFibers, if_pos (by rwa [merges, Bool.not_eq_false'] at hunmerged)]
      exact h.keys
  | start now =>
      rw [after_start]
      split <;> exact h.keys
  | setMeasureMode mode =>
      rw [after_setMeasureMode]
      split <;> exact h.keys
  | excludeMethod method =>
      rw [after_excludeMethod]
      split <;> exact h.keys
  | setThreadFilter filter =>
      rw [after_setThreadFilter]
      split <;> exact h.keys

theorem Listed.run : ∀ (operations : List (Operation α)) {session : Session α}
    {keys : List ContextKey}, Listed keys session → session.unmerged operations = true →
      Listed (session.heardIn keys operations) (session.run operations) := by
  intro operations
  induction operations with
  | nil => intro session keys h _; exact h
  | cons operation operations ih =>
      intro session keys h hunmerged
      rw [unmerged, Bool.and_eq_true, Bool.not_eq_true'] at hunmerged
      exact ih (h.after operation hunmerged.1) hunmerged.2

omit [Amount α] in
/-- A dump lists the contexts that the filter lets through. -/
theorem keys_dump
    (hfiltered : session.contexts.Everywhere fun _ context => context.Filtered session.filter) :
    session.dump.keys =
      session.contexts.keys.filter fun key => session.filter.traces key.thread := by
  unfold ContextTable.keys
  rw [List.filter_map]
  refine (List.map_map ..).trans ?_
  change List.map _ (session.contexts.live.filter _) = _
  refine congrArg (List.map _) (List.filter_congr fun entry hentry => ?_)
  exact hfiltered _ _ (mem_live.mp hentry)

/-! ## What can be seen -/

/-- What a session, and a run of it, shows of threads: which of them there are and what they did,
as far as the filter lets them through, and nothing of the others. -/
structure Discreet (session : Session α) : Prop where
  /-- Of the contexts that a run has heard of, the dump lists those that are traced. -/
  listed : session.phase = .idle → ∀ (now : α) {operations : List (Operation α)},
    session.unmerged (.start now :: operations) = true →
      (session.run (.start now :: operations)).dump.keys =
        (session.heardIn [] (.start now :: operations)).eraseDups.filter fun key =>
          session.filter.traces key.thread
  /-- Runs that differ in what they hear of other threads are dumped alike. -/
  alike : session.phase = .idle → ∀ (now : α) {operations others : List (Operation α)},
    List.Forall₂ (Operation.Alike session.filter) operations others →
      (session.run (.start now :: others)).dump = (session.run (.start now :: operations)).dump
  blank : ∀ {handle : Handle} {context : Context α},
    session.contexts.get? handle = some context →
      session.filter.traces context.key.thread = false → context.Blank

theorem Reachable.discreet {dumps : Phase → Prop} (h : Reachable dumps session) :
    session.Discreet := by
  refine ⟨fun hidle now operations hunmerged => ?_, fun hidle now operations others halike => ?_,
    fun {handle context} hget htraces => ?_⟩
  · have hstarted := h.started hidle now
    have hbegin : Listed [] (session.after (.start now)) := by
      rw [hstarted]
      exact ⟨exact_empty, rfl⟩
    rw [unmerged, Bool.and_eq_true] at hunmerged
    have hlisted := Listed.run operations hbegin hunmerged.2
    have hfilter : (session.run (.start now :: operations)).filter = session.filter :=
      (filter_run operations (by rw [hstarted]; exact Phase.noConfusion)).trans (by rw [hstarted])
    rw [keys_dump (h.run (.start now :: operations)).filtered, hfilter]
    exact congrArg (List.filter _) hlisted.keys
  · have hstarted := h.started hidle now
    have hsame := run_alike (h.after (.start now)) (by rw [hstarted]; exact Phase.noConfusion)
      (by rw [hstarted]; exact halike)
    exact congrArg dump hsame
  · refine h.concealed handle context hget ?_
    rw [h.filtered handle context hget, htraces]

/-- A thread that is kept out and in one run calls, in the other allocates. It is active in
between, while two fibers of another thread wait. -/
theorem discreet_between : ∃ session : Session Int,
    (unconfigured : Session Int).run [.setThreadFilter ⟨none, some [2]⟩] = session ∧
    session.Discreet ∧
    (session.run [.start 0, .event (((Event.call ⟨.owner .plain, "A"⟩ "f").on 1 5).sampled 10),
      .event (((Event.call ⟨.owner .plain, "A"⟩ "secret").on 2 0).sampled 20),
      .event (((Event.call ⟨.owner .plain, "A"⟩ "g").on 1 3).sampled 30),
      .event ((Event.returned.on 1 5).sampled 40), .stop 60]).dump.keys = [⟨1, 5⟩, ⟨1, 3⟩] ∧
    (session.run [.start 0, .event (((Event.call ⟨.owner .plain, "A"⟩ "f").on 1 5).sampled 10),
      .event (((Event.allocated ⟨"String", 40⟩ "b" 3).on 2 0).sampled 20),
      .event (((Event.call ⟨.owner .plain, "A"⟩ "g").on 1 3).sampled 30),
      .event ((Event.returned.on 1 5).sampled 40), .stop 60]).dump =
    (session.run [.start 0, .event (((Event.call ⟨.owner .plain, "A"⟩ "f").on 1 5).sampled 10),
      .event (((Event.call ⟨.owner .plain, "A"⟩ "secret").on 2 0).sampled 20),
      .event (((Event.call ⟨.owner .plain, "A"⟩ "g").on 1 3).sampled 30),
      .event ((Event.returned.on 1 5).sampled 40), .stop 60]).dump := by
  have hdiscreet := Reachable.discreet
    ((reachable_unconfigured (α := Int) fun _ => True).run [.setThreadFilter ⟨none, some [2]⟩])
  refine ⟨_, rfl, hdiscreet, ?_, hdiscreet.alike rfl 0 ?_⟩
  · rw [hdiscreet.listed rfl 0 (by decide +kernel)]
    decide +kernel
  · exact .cons (.same _) (.cons (.event ⟨rfl, rfl, fun h => absurd h (by decide)⟩)
      (.cons (.same _) (.cons (.same _) (.cons (.same _) .nil))))

end Session

end CallLedger
