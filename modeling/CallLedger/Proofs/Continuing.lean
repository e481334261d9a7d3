import CallLedger.Proofs.Folding
import CallLedger.Proofs.Handles
import CallLedger.Proofs.Nesting

/-!
# A context only goes on

Whatever a session does, a context that is still there has every node it had, made as it was
(`Lawful.grown_after`). Recording adds to a profile, and so does a merge. Every other operation
leaves the profiles alone.

Handles are given out in order and never again, so this also holds along a run
(`Reachable.grown_run`): what a handle leads to in the end is what it led to before, gone on.
-/

namespace CallLedger

variable {α : Type} [Amount α] {exclusions : Exclusions}

/-! ## Slots -/

namespace ContextTable

variable {base table : ContextTable α}

theorem size_switchTo (table : ContextTable α) (handle : Handle) (now : α) :
    (table.switchTo handle now).slots.size = table.slots.size := by
  unfold switchTo
  cases table.last with
  | none => exact Array.size_modify
  | some last => exact Array.size_modify.trans Array.size_modify

theorem size_activate_le (table : ContextTable α) (key : ContextKey) (now : α)
    (filter : ThreadFilter) (capacity : Nat) :
    table.slots.size ≤ (table.activate key now filter capacity).1.slots.size := by
  unfold activate
  cases table.active? key with
  | some handle => exact Nat.le_refl _
  | none =>
      simp only [slotFor]
      cases table.find? key with
      | some handle => exact Nat.le_of_eq (size_switchTo table handle now).symm
      | none =>
          refine Nat.le_trans (Nat.le_succ _) (Nat.le_of_eq ?_)
          exact ((size_switchTo _ _ now).trans (Array.size_push _)).symm

/-- What has come about from the context in a slot, or in a new slot. -/
def Carried (exclusions : Exclusions) (base : ContextTable α) (handle : Handle)
    (later : Context α) : Prop :=
  later.Nested exclusions ∧
    ∀ before, base.get? handle = some before → before.profile.Grows later.profile

omit [Amount α] in
theorem Carried.continued {handle : Nat} {context later : Context α}
    (h : Carried exclusions base handle context)
    (hlater : Context.Continued exclusions context later) :
    Carried exclusions base handle later :=
  ⟨hlater.nested, fun before hbefore => (h.2 before hbefore).trans hlater.grows⟩

theorem lasting_carried (exclusions : Exclusions) (base : ContextTable α) (handle : Handle) :
    Context.Lasting exclusions (Carried exclusions base handle) where
  restacked h hcalls := h.continued (h.1.restacked hcalls)
  called event paused h := h.continued (h.1.called event paused)
  popped now h := h.continued (h.1.popped now)
  allocated event h := h.continued (h.1.allocated event)

/-- A table that has come about from another one. Slots have only been added, and what a slot
holds has all nodes that it had. -/
structure Grown (base table : ContextTable α) : Prop where
  size : base.slots.size ≤ table.slots.size
  slots : table.Everywhere fun handle later =>
    ∀ before, base.get? handle = some before → before.profile.Grows later.profile

omit [Amount α] in
theorem Grown.refl (table : ContextTable α) : Grown table table where
  size := Nat.le_refl _
  slots handle later hget before hbefore := by
    rw [hget] at hbefore
    cases hbefore
    exact Profile.Grows.refl _

/-- A merge needs both stacks to be empty. -/
theorem grown_foldFibers (hsize : base.slots.size ≤ table.slots.size)
    (hsettled : table.Everywhere fun handle context =>
      Carried exclusions base handle context ∧ context.stack.frames = []) :
    Grown base table.foldFibers := by
  have hmerged := hsettled.foldFibers fun hc ho =>
    ⟨hc.1.continued (hc.1.1.merge ho.1.1 hc.2 ho.2), hc.2⟩
  refine ⟨?_, fun handle later hget => (hmerged handle later hget).1.2⟩
  rw [size_foldFibers]
  exact hsize

end ContextTable

/-! ## One operation -/

namespace Session

open ContextTable

variable {session : Session α} {base : ContextTable α}

theorem size_unwindAll_le (session : Session α) (now : α) :
    ∀ (handles : List Handle) (table : ContextTable α),
      table.slots.size ≤ (handles.foldl (session.unwind now) table).slots.size := by
  intro handles
  induction handles with
  | nil => intro table; exact Nat.le_refl _
  | cons handle handles ih =>
      intro table
      refine Nat.le_trans ?_ (ih (session.unwind now table handle))
      unfold Session.unwind
      cases table.get? handle with
      | none => exact Nat.le_refl _
      | some context =>
          exact Nat.le_trans (size_activate_le _ _ _ _ _) (Nat.le_of_eq Array.size_modify.symm)

theorem grown_handle (hactive : session.phase.isActive = true) (hexact : session.contexts.Exact)
    (hall : session.contexts.Everywhere fun handle context =>
      Carried session.exclusions base handle context)
    (hsize : base.slots.size ≤ session.contexts.slots.size) (event : Event α) :
    Grown base (session.handle event).contexts := by
  have hattended : session.contexts.Attended fun _ handle context =>
      Carried session.exclusions base handle context := hall
  have hlasting := lasting_carried session.exclusions base
  have hactivated : ∃ handle, Activated session.contexts (session.handle event).contexts
      (fun _ handle context => Carried session.exclusions base handle context)
      ⟨event.thread, event.fiber⟩ handle := by
    refine activated_handle hactive hexact hattended event
      ⟨fun hc => (hlasting _).switchIn _ hc, fun hc => (hlasting _).switchOut _ hc⟩ ?_
      (fun hc _ => lasting_record (hlasting _) event hc) fun hc _ => hc
    intro _ _
    refine ⟨Context.nested_fresh _ _ _ _, fun before hbefore => ?_⟩
    exact absurd (get?_lt hbefore) (Nat.not_lt_of_le hsize)
  refine ⟨?_, fun handle later hget => (hactivated.choose_spec.attended handle later hget).2⟩
  rw [contexts_handle hactive]
  exact Nat.le_trans hsize
    (Nat.le_trans (size_activate_le _ _ _ _ _) (Nat.le_of_eq Array.size_modify.symm))

/-- No operation takes a node away from a context, or makes another one of it. -/
theorem Lawful.grown_after
    (hlawful : Lawful (fun exclusions context => context.Nested exclusions) exclusions session)
    (hexact : session.contexts.Exact) (h : Grown base session.contexts) (operation : Operation α) :
    Grown base (session.after operation).contexts := by
  have hall : session.contexts.Everywhere fun handle context =>
      Carried exclusions base handle context :=
    fun handle context hget => ⟨hlawful.contexts handle context hget, h.slots handle context hget⟩
  have hattended : session.contexts.Attended fun _ handle context =>
      Carried exclusions base handle context := hall
  have hlasting := lasting_carried exclusions base
  have hunwound := fun now => (attended_unwindAll session now
    ⟨fun hc => (hlasting _).switchIn _ hc, fun hc => (hlasting _).switchOut _ hc⟩
    (fun hc => (hlasting _).unwind now hc) session.contexts.handles hexact hattended).2.2
  have hsize := fun now =>
    Nat.le_trans h.size (size_unwindAll_le session now session.contexts.handles session.contexts)
  have hsettled := fun now => settled_unwindAll session now session.contexts.handles
    fun handle context hget _ => mem_handles.mpr ⟨context, hget⟩
  have houtlasts : Outlasts session (Grown base) :=
    { here := h
      paused := fun now => ⟨Nat.le_trans h.size (Nat.le_of_eq Array.size_map.symm),
        h.slots.mapLive fun hc => hc⟩
      resumed := fun now => ⟨Nat.le_trans h.size (Nat.le_of_eq Array.size_map.symm),
        h.slots.mapLive fun hc => hc⟩
      unwound := fun now => ⟨hsize now, fun handle later hget =>
        (hunwound now handle later hget).2⟩
      unwoundFolded := fun now => grown_foldFibers (hsize now) fun handle later hget =>
        ⟨hunwound now handle later hget, hsettled now handle later hget⟩
      recorded := fun event => by
        cases hactive : session.phase.isActive with
        | false =>
            rw [Session.handle, if_neg (Bool.not_eq_true _ ▸ hactive)]
            exact h
        | true =>
            rw [← hlawful.exclusions (not_finished hactive)] at hall
            exact grown_handle hactive hexact hall h.size event
      folded := fun hinactive => grown_foldFibers h.size fun handle context hget =>
        ⟨hall handle context hget, hlawful.settled hinactive handle context hget⟩
      released := ⟨Nat.le_trans h.size (Nat.le_of_eq Array.size_map.symm),
        everywhere_releaseAll⟩ }
  exact houtlasts.after operation

/-! ## A run -/

theorem Reachable.grown_run {dumps : Phase → Prop} :
    ∀ (operations : List (Operation α)) {session : Session α}, Reachable dumps session →
      Grown base session.contexts → Grown base (session.run operations).contexts := by
  intro operations
  induction operations with
  | nil => intro session _ h; exact h
  | cons operation operations ih =>
      intro session hreachable h
      obtain ⟨excluded, hlawful⟩ := hreachable.nested
      exact ih (hreachable.after operation) (hlawful.grown_after hreachable.exact h operation)

end Session

end CallLedger
