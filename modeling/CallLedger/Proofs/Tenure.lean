import CallLedger.Proofs.Identity

/-!
# How long a handle leads to its context

A handle is the number of a slot. Slots are only added, at the end, and no operation puts a context
into an old slot: what a slot holds afterwards it held before, under the same key
(`ContextTable.Succeeds`). So a handle that was obtained leads to the context it was obtained for as
long as that is there, and to nothing for ever after (`Session.Tenured`).

There are three ways in which a context goes. A teardown releases all of them. Folding the fibers,
on request or because a run ends that is to be folded, releases those of which the thread has a
lower fiber. Every other operation keeps all contexts (`Session.keeps_after`).

All of this is about sessions that were made. Loading makes the same tables, but a dump may list a
key twice, and then there is no lowest fiber to speak of.
-/

namespace CallLedger

namespace ContextTable

variable {α : Type} {table before after : ContextTable α}

/-- The key of the context in a slot. -/
def keyAt? (table : ContextTable α) (handle : Handle) : Option ContextKey :=
  (table.get? handle).map (·.key)

theorem keyAt?_eq_none {handle : Nat} : table.keyAt? handle = none ↔ table.get? handle = none :=
  Option.map_eq_none_iff

theorem keyAt?_modify (handle other : Nat) {change : Context α → Context α}
    (hkey : ∀ context, (change context).key = context.key) :
    (table.modify handle change).keyAt? other = table.keyAt? other := by
  rw [keyAt?, get?_modify]
  split
  · simp [keyAt?, Function.comp_def, hkey]
  · rfl

/-- A table that has come about from another one. Slots have been added, and an old slot still holds
the context that it held, or none. -/
structure Succeeds (before after : ContextTable α) : Prop where
  size_le : before.slots.size ≤ after.slots.size
  keyAt? : ∀ {handle : Nat}, handle < before.slots.size →
    after.keyAt? handle = none ∨ after.keyAt? handle = before.keyAt? handle

theorem Succeeds.refl (table : ContextTable α) : Succeeds table table :=
  ⟨Nat.le_refl _, fun _ => Or.inr rfl⟩

theorem Succeeds.trans {last : ContextTable α} (h : Succeeds before after)
    (hnext : Succeeds after last) : Succeeds before last where
  size_le := Nat.le_trans h.size_le hnext.size_le
  keyAt? {handle} hhandle := by
    rcases hnext.keyAt? (Nat.lt_of_lt_of_le hhandle h.size_le) with hnone | hsame
    · exact Or.inl hnone
    · rw [hsame]
      exact h.keyAt? hhandle

/-- Which context was active last does not matter. -/
theorem Succeeds.resetLast (h : Succeeds before after) : Succeeds before after.resetLast :=
  ⟨h.size_le, h.keyAt?⟩

/-! ## What happens to a table -/

theorem succeeds_modify (table : ContextTable α) (handle : Nat) (change : Context α → Context α)
    (hkey : ∀ context, (change context).key = context.key) :
    Succeeds table (table.modify handle change) :=
  ⟨Nat.le_of_eq Array.size_modify.symm, fun _ => Or.inr (keyAt?_modify _ _ hkey)⟩

theorem succeeds_mapLive (table : ContextTable α) (change : Context α → Context α)
    (hkey : ∀ context, (change context).key = context.key) :
    Succeeds table (table.mapLive change) := by
  refine ⟨Nat.le_of_eq Array.size_map.symm, fun {handle} _ => Or.inr ?_⟩
  rw [ContextTable.keyAt?, get?_mapLive]
  simp [ContextTable.keyAt?, Function.comp_def, hkey]

/-- A new context has a slot of its own. -/
theorem succeeds_insert (table : ContextTable α) (context : Context α) :
    Succeeds table (table.insert context) := by
  refine ⟨?_, fun {handle} hhandle => Or.inr ?_⟩
  · simp [ContextTable.insert]
  · rw [ContextTable.keyAt?, get?_insert, if_neg (Nat.ne_of_lt hhandle), ContextTable.keyAt?]

theorem succeeds_release (table : ContextTable α) (handle : Nat) :
    Succeeds table (table.release handle) := by
  refine ⟨Nat.le_of_eq (size_release table handle).symm, fun {other} _ => ?_⟩
  rw [ContextTable.keyAt?, get?_release]
  split
  · exact Or.inl rfl
  · exact Or.inr rfl

theorem succeeds_releaseAll (table : ContextTable α) : Succeeds table table.releaseAll := by
  refine ⟨Nat.le_of_eq Array.size_map.symm, fun _ => Or.inl ?_⟩
  rw [keyAt?_eq_none, get?_releaseAll]

/-- No handle leads anywhere. -/
def Vacant (table : ContextTable α) : Prop := ∀ handle : Nat, table.get? handle = none

theorem Vacant.release (h : table.Vacant) (handle : Nat) : (table.release handle).Vacant := by
  intro other
  rw [get?_release, h other, ite_self]

theorem Vacant.modify (h : table.Vacant) (handle : Nat) (change : Context α → Context α) :
    (table.modify handle change).Vacant := by
  intro other
  rw [get?_modify, h other, Option.map_none, ite_self]

variable [Amount α]

theorem succeeds_switchTo (table : ContextTable α) (handle : Nat) (now : α) :
    Succeeds table (table.switchTo handle now) := by
  have hresumed : Succeeds table (table.modify handle (·.switchIn now)) :=
    succeeds_modify table handle _ fun _ => rfl
  unfold switchTo
  cases table.last with
  | none => exact ⟨hresumed.size_le, hresumed.keyAt?⟩
  | some last =>
      have hwaiting := hresumed.trans
        (succeeds_modify (table.modify handle (·.switchIn now)) last (·.switchOut now)
          fun _ => rfl)
      exact ⟨hwaiting.size_le, hwaiting.keyAt?⟩

theorem succeeds_activate (table : ContextTable α) (key : ContextKey) (now : α)
    (filter : ThreadFilter) (capacity : Nat) :
    Succeeds table (table.activate key now filter capacity).1 := by
  unfold activate
  cases table.active? key with
  | some handle => exact Succeeds.refl table
  | none =>
      simp only [slotFor]
      cases table.find? key with
      | some handle => exact succeeds_switchTo table handle now
      | none => exact (succeeds_insert table _).trans (succeeds_switchTo _ _ now)

theorem Succeeds.foldFibers (h : Succeeds before table) : Succeeds before table.foldFibers :=
  foldFibers_keeps (fun handle h => h.trans (succeeds_release _ handle))
    (fun handle _ hkey h => h.trans (succeeds_modify _ handle _ hkey)) h

/-- Folding releases a context when its thread has a lower fiber. -/
theorem Exact.get?_foldFibers_eq_none (h : table.Exact) {handle : Nat} {context : Context α}
    (hget : table.get? handle = some context) :
    table.foldFibers.get? handle = none ↔
      ∃ (other : Nat) (lower : Context α), table.get? other = some lower ∧
        lower.key.thread = context.key.thread ∧ lower.key.fiber < context.key.fiber := by
  have hhere : (handle, context) ∈ table.fibers context.key.thread :=
    mem_fibers.mpr (within_eq_some.mpr ⟨hget, rfl⟩)
  have hsorted := h.pairwise_fibers context.key.thread
  cases hfibers : table.fibers context.key.thread with
  | nil => simp [hfibers] at hhere
  | cons first others =>
      obtain ⟨first, lowest⟩ := first
      obtain ⟨hfirst, hthread⟩ := within_eq_some.mp (mem_fibers.mp (hfibers ▸ List.mem_cons_self))
      have hleft : ∀ later : Context α, table.foldFibers.get? handle = some later →
          handle = first := by
        intro later hlater
        obtain ⟨former, hformer, hkey⟩ := get?_of_foldFibers hlater
        cases hget.symm.trans hformer
        have hmem := (within_foldFibers context.key.thread handle later).mp
          (within_eq_some.mpr ⟨hlater, by rw [← hkey]⟩)
        rw [hfibers, folded, List.mem_singleton, Prod.mk.injEq] at hmem
        exact hmem.1
      rw [hfibers] at hhere hsorted
      rcases List.mem_cons.mp hhere with heq | hlater
      · -- the lowest fiber is left
        cases heq
        have hkept : table.foldFibers.within context.key.thread handle =
            some (others.foldl (fun context other => context.merge other.2) context) := by
          rw [within_foldFibers, hfibers]
          exact List.mem_singleton_self _
        rw [(within_eq_some.mp hkept).1]
        refine iff_of_false (Option.some_ne_none _) ?_
        rintro ⟨other, lower, hother, hsame, hlt⟩
        have hmem := mem_fibers.mpr (within_eq_some.mpr ⟨hother, hsame⟩)
        rw [hfibers] at hmem
        rcases List.mem_cons.mp hmem with hequal | hhigher
        · cases hequal
          exact UInt64.lt_irrefl _ hlt
        · exact UInt64.lt_asymm hlt ((List.pairwise_cons.mp hsorted).1 _ hhigher)
      · have hlt := (List.pairwise_cons.mp hsorted).1 _ hlater
        refine iff_of_true ?_ ⟨first, lowest, hfirst, hthread, hlt⟩
        refine Option.eq_none_iff_forall_ne_some.mpr fun later hkept => ?_
        cases hleft later hkept
        cases hget.symm.trans hfirst
        exact UInt64.lt_irrefl _ hlt

end ContextTable

namespace Session

open ContextTable

variable {α : Type} [Amount α] {session : Session α}

/-! ## One operation -/

theorem succeeds_unwindAll (session : Session α) (now : α) :
    ∀ (handles : List Handle) (table : ContextTable α),
      Succeeds table (handles.foldl (session.unwind now) table) := by
  intro handles
  induction handles with
  | nil => exact Succeeds.refl
  | cons handle handles ih =>
      intro table
      refine Succeeds.trans ?_ (ih (session.unwind now table handle))
      unfold Session.unwind
      cases table.get? handle with
      | none => exact Succeeds.refl table
      | some context =>
          exact (succeeds_activate table _ _ _ _).trans
            (succeeds_modify _ _ (·.unwind now) fun _ => rfl)

theorem succeeds_after (session : Session α) (operation : Operation α) :
    Succeeds session.contexts (session.after operation).contexts := by
  have hunwound := fun now : α =>
    succeeds_unwindAll session now session.contexts.handles session.contexts
  have houtlasts : Outlasts session (Succeeds session.contexts) :=
    { here := Succeeds.refl _
      paused := fun now => succeeds_mapLive _ (·.pause now) fun _ => rfl
      resumed := fun now => succeeds_mapLive _ (·.resume now) fun _ => rfl
      unwound := fun now => (hunwound now).resetLast
      unwoundFolded := fun now => (hunwound now).resetLast.foldFibers
      recorded := fun event => by
        cases hactive : session.phase.isActive with
        | false =>
            rw [Session.handle, if_neg (Bool.not_eq_true _ ▸ hactive)]
            exact Succeeds.refl _
        | true =>
            rw [contexts_handle hactive]
            exact (succeeds_activate _ _ _ _ _).trans
              (succeeds_modify _ _ _ (session.key_record event))
      folded := fun _ => (Succeeds.refl _).foldFibers
      released := succeeds_releaseAll _ }
  exact houtlasts.after operation

/-- The operations that fold fibers, where the state allows them. -/
def Folds (session : Session α) : Operation α → Prop
  | .mergeFibers => session.phase.isActive = false
  | .stop _ => session.phase.isActive = true ∧ session.config.mergeFibers = true
  | _ => False

/-- Nothing but folding and a teardown releases a context. -/
theorem keeps_after (h : session.contexts.Exact) {operation : Operation α}
    (hfolds : ¬ session.Folds operation) (hteardown : operation ≠ .teardown) :
    Keeps session.contexts (session.after operation).contexts := by
  cases operation with
  | setMeasureMode mode =>
      rw [after_setMeasureMode]
      split <;> exact Keeps.refl _
  | excludeMethod method =>
      rw [after_excludeMethod]
      split <;> exact Keeps.refl _
  | setThreadFilter filter =>
      rw [after_setThreadFilter]
      split <;> exact Keeps.refl _
  | start now =>
      rw [after_start]
      split <;> exact Keeps.refl _
  | pause now =>
      rw [after_pause]
      split
      · exact (h.mapLive (·.pause now) fun _ => rfl).2
      · exact Keeps.refl _
  | resume now =>
      rw [after_resume]
      split
      · exact (h.mapLive (·.resume now) fun _ => rfl).2
      · exact Keeps.refl _
  | stop now =>
      rw [after_stop]
      split
      · next hactive =>
          have hoff : ¬ session.config.mergeFibers = true := fun hon => hfolds ⟨hactive, hon⟩
          simp only [hoff]
          exact (attended_unwindAll session now (passes_true now) (fun _ => trivial)
            session.contexts.handles h (attended_true _)).2.1
      · exact Keeps.refl _
  | event event =>
      show Keeps session.contexts (session.handle event).contexts
      cases hactive : session.phase.isActive with
      | false =>
          rw [Session.handle, if_neg (Bool.not_eq_true _ ▸ hactive)]
          exact Keeps.refl _
      | true =>
          have hactivated : ∃ handle, Activated session.contexts (session.handle event).contexts
              (fun _ _ _ => True) ⟨event.thread, event.fiber⟩ handle :=
            activated_handle hactive h (attended_true _) event (passes_true _) (fun _ _ => trivial)
              (fun _ _ => trivial) fun _ _ => trivial
          exact hactivated.choose_spec.keeps
  | mergeFibers =>
      rw [after_mergeFibers, if_pos (Bool.not_eq_false _ ▸ hfolds)]
      exact Keeps.refl _
  | teardown => exact absurd rfl hteardown

/-- Of the contexts that are there, folding leaves the lowest fiber of each thread. -/
theorem get?_after_folds (h : session.contexts.Exact) {operation : Operation α}
    (hfolds : session.Folds operation) {handle : Nat} {context : Context α}
    (hget : session.contexts.get? handle = some context) :
    (session.after operation).contexts.get? handle = none ↔
      ∃ (other : Nat) (lower : Context α), session.contexts.get? other = some lower ∧
        lower.key.thread = context.key.thread ∧ lower.key.fiber < context.key.fiber := by
  cases operation with
  | mergeFibers =>
      rw [after_mergeFibers, if_neg (Bool.eq_false_iff.mp hfolds)]
      exact h.get?_foldFibers_eq_none hget
  | stop now =>
      obtain ⟨hactive, hon⟩ := hfolds
      rw [after_stop, if_pos hactive]
      simp only [hon, if_true]
      -- closing the calls leaves every context in its slot, under its key
      have hsame : session.contexts.Attended fun _ handle context =>
          ∃ former, session.contexts.get? handle = some former ∧ former.key = context.key :=
        fun _ context hget => ⟨context, hget, rfl⟩
      obtain ⟨hexact, hkeeps, hformer⟩ := attended_unwindAll session now ⟨id, id⟩ id
        session.contexts.handles h hsame
      generalize session.contexts.handles.foldl (session.unwind now) session.contexts = unwound
        at hexact hkeeps hformer
      obtain ⟨later, hlater, hkey⟩ := hkeeps _ _ hget
      rw [hexact.resetLast.get?_foldFibers_eq_none hlater, hkey]
      constructor
      · rintro ⟨other, lower, hother, hrest⟩
        obtain ⟨former, hget, hsame⟩ := hformer _ _ hother
        exact ⟨other, former, hget, by rwa [hsame]⟩
      · rintro ⟨other, lower, hother, hrest⟩
        obtain ⟨found, hfound, hsame⟩ := hkeeps _ _ hother
        exact ⟨other, found, hfound, by rwa [hsame]⟩
  | _ => exact hfolds.elim

/-! ## A run -/

theorem succeeds_carried (h : session.contexts.Exact) (operations : List (Operation α)) :
    Succeeds session.contexts (session.carried operations).contexts := by
  induction operations using List.reverseRecOn with
  | nil => exact Succeeds.refl _
  | append_singleton operations operation ih =>
      have hexact := exact_carried h operations
      unfold carried
      rw [List.foldl_append]
      change Succeeds _ ((session.carried operations).carry operation).1.contexts
      rw [carry_fst fun _ => hexact]
      exact ih.trans (succeeds_after _ operation)

/-- What is finished and holds nothing never holds anything again. -/
theorem vacant_carried (hphase : session.phase = .finished) (hvacant : session.contexts.Vacant)
    (operations : List (Operation α)) : (session.carried operations).contexts.Vacant := by
  induction operations using List.reverseRecOn with
  | nil => exact hvacant
  | append_singleton operations operation ih =>
      have hfinished := finished_carried hphase operations
      unfold carried
      rw [List.foldl_append]
      change ((session.carried operations).carry operation).1.contexts.Vacant
      generalize session.carried operations = current at ih hfinished
      rw [carry_finished hfinished]
      by_cases hmerge : operation = .mergeFibers
      · subst hmerge
        rw [after_mergeFibers, if_neg fun hactive => not_finished hactive hfinished]
        exact foldFibers_keeps (fun handle h => h.release handle)
          (fun handle _ _ h => h.modify handle _) ih
      · by_cases hteardown : operation = .teardown
        · subst hteardown
          exact get?_releaseAll
        · rw [after_finished hfinished hmerge hteardown]
          exact ih

omit [Amount α] in
theorem thread_eq_error {handle : Nat} :
    session.thread handle = .error .alreadyFreed ↔ session.contexts.get? handle = none := by
  unfold thread
  cases session.contexts.get? handle <;> simp

/-- The handles that a session gives away: those of the contexts it shows, and those that it finds
for a key. -/
def HandsOut (session : Session α) (handle : Handle) : Prop :=
  (∃ context, (handle, context) ∈ session.threads) ∨
    ∃ thread fiber, session.findThread thread fiber = some handle

/-- What a handle leads to from the state on in which it was obtained. -/
structure Tenured (session : Session α) : Prop where
  resolves : ∀ {handle : Nat}, session.HandsOut handle →
    ∃ context, session.thread handle = .ok context
  /-- A handle leads to its context, or to nothing. -/
  stays : ∀ {handle : Nat} {context : Context α}, session.thread handle = .ok context →
    ∀ later : List (Operation α),
      (∃ same, (session.carried later).thread handle = .ok same ∧ same.key = context.key) ∨
        (session.carried later).thread handle = .error .alreadyFreed
  /-- What is released does not come back. -/
  gone : ∀ {handle : Nat} {context : Context α}, session.thread handle = .ok context →
    ∀ later further : List (Operation α),
      (session.carried later).thread handle = .error .alreadyFreed →
        ((session.carried later).carried further).thread handle = .error .alreadyFreed
  /-- A teardown releases every context, and folding those of which the thread has a lower fiber.
  Nothing else releases any. -/
  frees : ∀ {handle : Nat} {context : Context α}, session.thread handle = .ok context →
    ∀ operation : Operation α,
      (session.carry operation).1.thread handle = .error .alreadyFreed ↔
        operation = .teardown ∨ session.Folds operation ∧
          ∃ (other : Nat) (lower : Context α), session.thread other = .ok lower ∧
            lower.key.thread = context.key.thread ∧ lower.key.fiber < context.key.fiber
  /-- After a teardown there is no context any more, and no handle leads anywhere. -/
  ended : ∀ later : List (Operation α),
    ((session.carry .teardown).1.carried later).contexts.live = [] ∧
      ∀ handle : Nat,
        ((session.carry .teardown).1.carried later).thread handle = .error .alreadyFreed

theorem Tenured.of_exact (h : session.contexts.Exact) : session.Tenured where
  resolves {handle} hgiven := by
    rcases hgiven with ⟨context, hmem⟩ | ⟨thread, fiber, hfind⟩
    · exact ⟨context, thread_eq_ok.mpr (mem_live.mp (List.mem_of_mem_filter hmem))⟩
    · obtain ⟨context, hget, -⟩ := h.find.mp hfind
      exact ⟨context, thread_eq_ok.mpr hget⟩
  stays {handle context} hok later := by
    have hget := thread_eq_ok.mp hok
    have hkey := (succeeds_carried h later).keyAt? (get?_lt hget)
    rw [keyAt?_eq_none, keyAt?, keyAt?, hget, Option.map_some, Option.map_eq_some_iff] at hkey
    rcases hkey with hnone | ⟨same, hsame, hkey⟩
    · exact Or.inr (thread_eq_error.mpr hnone)
    · exact Or.inl ⟨same, thread_eq_ok.mpr hsame, hkey⟩
  gone {handle context} hok later further hfreed := by
    have hlater := succeeds_carried h later
    have hfurther := succeeds_carried (exact_carried h later) further
    rw [thread_eq_error, ← keyAt?_eq_none] at hfreed ⊢
    have hlt := Nat.lt_of_lt_of_le (get?_lt (thread_eq_ok.mp hok)) hlater.size_le
    rcases hfurther.keyAt? hlt with hnone | hsame
    · exact hnone
    · exact hsame.trans hfreed
  frees {handle context} hok operation := by
    have hget := thread_eq_ok.mp hok
    simp only [thread_eq_error, thread_eq_ok, carry_fst fun _ => h]
    by_cases hteardown : operation = .teardown
    · subst hteardown
      exact iff_of_true (get?_releaseAll handle) (Or.inl rfl)
    · by_cases hfolds : session.Folds operation
      · simp [hteardown, hfolds, get?_after_folds h hfolds hget]
      · obtain ⟨later, hlater, -⟩ := keeps_after h hfolds hteardown _ _ hget
        simp [hteardown, hfolds, hlater]
  ended later := by
    rw [carry_fst fun _ => h]
    have hnone := @vacant_carried _ _ (session.after .teardown) rfl get?_releaseAll later
    refine ⟨List.eq_nil_iff_forall_not_mem.mpr fun ⟨handle, context⟩ hmem => ?_, fun handle =>
      thread_eq_error.mpr (hnone handle)⟩
    have hget := mem_live.mp hmem
    rw [hnone handle] at hget
    cases hget

/-- In whatever state of a session that was made a handle is obtained, it leads to its context as
long as that is there, and then to nothing for good. -/
theorem tenured {config : Config} {first : Session α} (hmade : ofConfig config = .ok first)
    (operations : List (Operation α)) : (first.carried operations).Tenured := by
  have hexact : first.contexts.Exact := @Reachable.exact _ _ _ (fun _ => True) (.made hmade)
  exact Tenured.of_exact (exact_carried hexact operations)

/-- Two fibers of a thread, the higher one seen first, and another thread. Folding releases the
higher one, and a teardown the others. -/
theorem tenured_two_fibers : ∃ session : Session Int,
    ofConfig Config.default = .ok (unconfigured : Session Int) ∧
    (unconfigured : Session Int).carried [.start 0,
      .event (((Event.call ⟨.owner .plain, "A"⟩ "f").on 1 5).sampled 10),
      .event (((Event.call ⟨.owner .plain, "A"⟩ "f").on 1 2).sampled 20),
      .event (((Event.call ⟨.owner .plain, "A"⟩ "g").on 2 0).sampled 30), .stop 50] = session ∧
    session.Tenured ∧
    (session.contexts.live.map fun entry => (entry.1, entry.2.key)) =
      [(0, ⟨1, 5⟩), (1, ⟨1, 2⟩), (2, ⟨2, 0⟩)] ∧
    (session.carry .mergeFibers).1.thread 0 = .error .alreadyFreed ∧
    (session.carry .mergeFibers).1.thread 1 ≠ .error .alreadyFreed ∧
    ∀ handle : Nat, ((session.carry .teardown).1.carried [.mergeFibers]).thread handle =
      .error .alreadyFreed := by
  generalize hrun : Session.carried (α := Int) _ _ = session
  have htenured : session.Tenured := hrun ▸ tenured (rfl : ofConfig Config.default = .ok _) _
  have hlive : (session.contexts.live.map fun entry => (entry.1, entry.2.key)) =
      [(0, ⟨1, 5⟩), (1, ⟨1, 2⟩), (2, ⟨2, 0⟩)] := by
    rw [← hrun]
    decide +kernel
  have hfolds : session.Folds .mergeFibers := by
    show session.phase.isActive = false
    rw [← hrun]
    decide +kernel
  have hkeys : ∀ {handle : Nat} {key : ContextKey}, (handle, key) ∈ session.contexts.live.map
      (fun entry => (entry.1, entry.2.key)) ↔
        ∃ context, session.thread handle = .ok context ∧ context.key = key := by
    intro handle key
    simp only [List.mem_map, Prod.exists, Prod.mk.injEq, mem_live, thread_eq_ok]
    exact ⟨fun ⟨_, context, hget, rfl, hkey⟩ => ⟨context, hget, hkey⟩,
      fun ⟨context, hget, hkey⟩ => ⟨handle, context, hget, rfl, hkey⟩⟩
  rw [hlive] at hkeys
  obtain ⟨higher, hhigher, hkeyHigher⟩ := hkeys.mp (show (0, ⟨1, 5⟩) ∈ _ by decide)
  obtain ⟨lowest, hlowest, hkeyLowest⟩ := hkeys.mp (show (1, ⟨1, 2⟩) ∈ _ by decide)
  refine ⟨session, rfl, rfl, htenured, hlive, ?_, fun hfreed => ?_, (htenured.ended _).2⟩
  · refine (htenured.frees hhigher _).mpr (Or.inr ⟨hfolds, 1, lowest, hlowest, ?_⟩)
    rw [hkeyHigher, hkeyLowest]
    decide
  · -- no context of the thread has a lower fiber
    obtain ⟨-, other, lower, hother, hthread, hfiber⟩ :=
      ((htenured.frees hlowest _).mp hfreed).resolve_left nofun
    have hmem := hkeys.mpr ⟨lower, hother, rfl⟩
    rw [hkeyLowest] at hthread hfiber
    generalize lower.key = key at hmem hthread hfiber
    simp only [List.mem_cons, Prod.mk.injEq, List.not_mem_nil, or_false] at hmem
    obtain ⟨-, rfl⟩ | ⟨-, rfl⟩ | ⟨-, rfl⟩ := hmem
    · exact absurd hfiber (by decide)
    · exact absurd hfiber (by decide)
    · exact absurd hthread (by decide)

end Session

end CallLedger
