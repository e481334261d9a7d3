import CallLedger.Proofs.Activity

/-!
# Two tables side by side

Two tables go side by side when they have the same slots, find them alike, and agree
on which was active last, and the two contexts in a slot are in some relation
(`Paired`). Then activity moves alike in both, as it depends on keys only, and what
is left to see is what happens to the two contexts in one slot.
-/

namespace CallLedger

variable {α : Type}

namespace ContextTable

structure Paired (law : Context α → Context α → Prop) (table other : ContextTable α) : Prop where
  index : other.index = table.index
  last : other.last = table.last
  size : other.slots.size = table.slots.size
  slots : ∀ handle : Nat, Option.Rel law (table.get? handle) (other.get? handle)

variable {law later : Context α → Context α → Prop} {table other : ContextTable α}

theorem paired_empty : Paired law (empty : ContextTable α) empty :=
  ⟨rfl, rfl, rfl, fun _ => .none⟩

theorem Paired.imp (h : Paired law table other)
    (himp : ∀ {context twin : Context α}, law context twin → later context twin) :
    Paired later table other := by
  refine ⟨h.index, h.last, h.size, fun handle => ?_⟩
  have hslot := h.slots handle
  generalize table.get? handle = context at hslot ⊢
  generalize other.get? handle = twin at hslot ⊢
  cases hslot with
  | none => exact .none
  | some hlaw => exact .some (himp hlaw)

theorem Paired.get? (h : Paired law table other) {handle : Nat} {context : Context α}
    (hget : table.get? handle = some context) :
    ∃ twin, other.get? handle = some twin ∧ law context twin := by
  have hslot := h.slots handle
  rw [hget] at hslot
  generalize hother : other.get? handle = twin at hslot
  cases hslot with
  | some hlaw => exact ⟨_, rfl, hlaw⟩

theorem Paired.get?_none (h : Paired law table other) {handle : Nat}
    (hget : table.get? handle = none) : other.get? handle = none := by
  have hslot := h.slots handle
  rw [hget] at hslot
  generalize hother : other.get? handle = twin at hslot
  cases hslot with
  | none => rfl

/-- The contexts in one slot change in their own ways, and the others may be seen in another
light. -/
theorem Paired.modify (h : Paired law table other) (handle : Nat)
    {change alter : Context α → Context α}
    (hhere : ∀ {context twin : Context α}, table.get? handle = some context →
      law context twin → later (change context) (alter twin))
    (hothers : ∀ {i : Nat} {context twin : Context α}, i ≠ handle →
      table.get? i = some context → law context twin → later context twin) :
    Paired later (table.modify handle change) (other.modify handle alter) := by
  refine ⟨h.index, h.last, ?_, fun i => ?_⟩
  · show (other.slots.modify handle _).size = (table.slots.modify handle _).size
    rw [Array.size_modify, Array.size_modify, h.size]
  · rw [get?_modify, get?_modify]
    cases hget : table.get? i with
    | none =>
        rw [h.get?_none hget, Option.map_none, Option.map_none, ite_self]
        exact .none
    | some context =>
        obtain ⟨twin, htwin, hlaw⟩ := h.get? hget
        rw [htwin]
        by_cases heq : handle = i
        · subst heq
          rw [if_pos rfl, if_pos rfl]
          exact .some (hhere hget hlaw)
        · rw [if_neg heq, if_neg heq]
          exact .some (hothers (fun hi => heq hi.symm) hget hlaw)

theorem Paired.mapLive (h : Paired law table other) {change : Context α → Context α}
    (hchange : ∀ {context twin : Context α}, law context twin →
      later (change context) (change twin)) :
    Paired later (table.mapLive change) (other.mapLive change) := by
  refine ⟨h.index, h.last, ?_, fun i => ?_⟩
  · show (other.slots.map _).size = (table.slots.map _).size
    rw [Array.size_map, Array.size_map, h.size]
  · rw [get?_mapLive, get?_mapLive]
    cases hget : table.get? i with
    | none =>
        rw [h.get?_none hget]
        exact .none
    | some context =>
        obtain ⟨twin, htwin, hlaw⟩ := h.get? hget
        rw [htwin]
        exact .some (hchange hlaw)

theorem Paired.insert (h : Paired law table other) {context : Context α}
    (hnew : law context context) :
    Paired law (table.insert context) (other.insert context) := by
  refine ⟨?_, h.last, ?_, fun i => ?_⟩
  · show other.index.insert context.key other.slots.size =
      table.index.insert context.key table.slots.size
    rw [h.index, h.size]
  · show (other.slots.push _).size = (table.slots.push _).size
    rw [Array.size_push, Array.size_push, h.size]
  · rw [get?_insert, get?_insert, h.size]
    split
    · exact .some hnew
    · exact h.slots i

theorem Paired.resetLast (h : Paired law table other) :
    Paired law table.resetLast other.resetLast :=
  ⟨h.index, rfl, h.size, h.slots⟩

theorem Paired.handles_eq (h : Paired law table other) : other.handles = table.handles := by
  rw [handles, handles, live, live, List.map_filterMap, List.map_filterMap, h.size]
  refine List.filterMap_congr fun i _ => ?_
  cases hget : table.get? i with
  | none => rw [h.get?_none hget]
  | some context =>
      obtain ⟨twin, htwin, -⟩ := h.get? hget
      rw [htwin]
      rfl

/-! ## Handing over -/

/-- A relation that outlasts waits. -/
structure Waits [Amount α] (law : Context α → Context α → Prop) (now : α) : Prop where
  key : ∀ {context twin : Context α}, law context twin → twin.key = context.key
  switchIn : ∀ {context twin : Context α}, law context twin →
    law (context.switchIn now) (twin.switchIn now)
  switchOut : ∀ {context twin : Context α}, law context twin →
    law (context.switchOut now) (twin.switchOut now)

variable [Amount α] {now : α}

theorem Paired.switchTo (h : Paired law table other) (hlaw : Waits law now) (handle : Handle) :
    Paired law (table.switchTo handle now) (other.switchTo handle now) := by
  have hresumed : Paired law (table.modify handle (·.switchIn now))
      (other.modify handle (·.switchIn now)) :=
    h.modify handle (fun _ hpair => hlaw.switchIn hpair) fun _ _ hpair => hpair
  unfold ContextTable.switchTo
  rw [h.last]
  cases table.last with
  | none => exact ⟨hresumed.index, rfl, hresumed.size, hresumed.slots⟩
  | some last =>
      have hwaiting : Paired law
          ((table.modify handle (·.switchIn now)).modify last (·.switchOut now))
          ((other.modify handle (·.switchIn now)).modify last (·.switchOut now)) :=
        hresumed.modify last (fun _ hpair => hlaw.switchOut hpair) fun _ _ hpair => hpair
      exact ⟨hwaiting.index, rfl, hwaiting.size, hwaiting.slots⟩

theorem Paired.active?_eq (h : Paired law table other) (hlaw : Waits law now)
    (key : ContextKey) : other.active? key = table.active? key := by
  unfold active?
  rw [h.last]
  cases table.last with
  | none => rfl
  | some handle =>
      rw [Option.filter_some, Option.filter_some]
      cases hget : table.get? handle with
      | none => rw [h.get?_none hget]
      | some context =>
          obtain ⟨twin, htwin, hpair⟩ := h.get? hget
          rw [htwin, Option.any_some, Option.any_some, hlaw.key hpair]

/-- Both make the same slot active. -/
theorem Paired.activate (h : Paired law table other) (hlaw : Waits law now) (key : ContextKey)
    (filter : ThreadFilter) (capacity : Nat)
    (hfresh : table.find? key = none →
      law (.fresh key (filter.traces key.thread) capacity)
        (.fresh key (filter.traces key.thread) capacity)) :
    (other.activate key now filter capacity).2 = (table.activate key now filter capacity).2 ∧
      Paired law (table.activate key now filter capacity).1
        (other.activate key now filter capacity).1 := by
  unfold ContextTable.activate
  rw [h.active?_eq hlaw]
  cases table.active? key with
  | some handle => exact ⟨rfl, h⟩
  | none =>
      have hfind : other.find? key = table.find? key := by
        rw [ContextTable.find?, ContextTable.find?, h.index]
      unfold slotFor
      rw [hfind, h.size]
      cases hcase : table.find? key with
      | some handle => exact ⟨rfl, h.switchTo hlaw handle⟩
      | none => exact ⟨rfl, (h.insert (hfresh hcase)).switchTo hlaw _⟩

end ContextTable

/-! ## Events and the end of a run -/

namespace Session

open ContextTable

variable [Amount α] {session other : Session α} {law later : Context α → Context α → Prop}

/-- Two events of one context at one moment, recorded in sessions side by side. -/
theorem paired_handle (hactive : session.phase.isActive = true)
    (hexact : session.contexts.Exact) (h : Paired law session.contexts other.contexts)
    (hother : other = { session with contexts := other.contexts }) {event veiled : Event α}
    (hthread : veiled.thread = event.thread) (hfiber : veiled.fiber = event.fiber)
    (hsample : veiled.sample = event.sample) (hlaw : Waits law event.sample)
    (hfresh : session.contexts.find? ⟨event.thread, event.fiber⟩ = none →
      law (.fresh ⟨event.thread, event.fiber⟩ (session.filter.traces event.thread)
          session.config.initialStackCapacity)
        (.fresh ⟨event.thread, event.fiber⟩ (session.filter.traces event.thread)
          session.config.initialStackCapacity))
    (hown : ∀ {context twin : Context α}, law context twin →
      context.key = ⟨event.thread, event.fiber⟩ →
        later (session.record event context) (other.record veiled twin))
    (hforeign : ∀ {context twin : Context α}, law context twin →
      context.key ≠ ⟨event.thread, event.fiber⟩ → later context twin) :
    (∃ handle, Activated session.contexts (session.handle event).contexts (fun _ _ _ => True)
        ⟨event.thread, event.fiber⟩ handle) ∧
      Paired later (session.handle event).contexts (other.handle veiled).contexts := by
  have hsame : other.phase = session.phase ∧ other.filter = session.filter ∧
      other.config = session.config := by
    rw [hother]
    exact ⟨rfl, rfl, rfl⟩
  obtain ⟨hphase, hfilter, hconfig⟩ := hsame
  have hactivated : Activated session.contexts
      (session.contexts.activate ⟨event.thread, event.fiber⟩ event.sample session.filter
        session.config.initialStackCapacity).1 (fun _ _ _ => True) ⟨event.thread, event.fiber⟩
      (session.contexts.activate ⟨event.thread, event.fiber⟩ event.sample session.filter
        session.config.initialStackCapacity).2 :=
    hexact.activate (attended_true _) (passes_true _) _ _ _ fun _ _ => trivial
  obtain ⟨hhandle, hpaired⟩ := h.activate hlaw ⟨event.thread, event.fiber⟩ session.filter
    session.config.initialStackCapacity hfresh
  obtain ⟨found, hfound, hkey⟩ := hactivated.found
  have hrecorded := hpaired.modify _
    (fun {context twin} hget hpair => by
      rw [hfound] at hget
      cases hget
      exact hown hpair hkey)
    (fun {i context twin} hne hget hpair => by
      refine hforeign hpair fun hcontext => hne ?_
      exact hactivated.exact.unique hfound hget (hcontext.trans hkey.symm))
  rw [contexts_handle hactive, contexts_handle (hphase ▸ hactive), hthread, hfiber, hsample,
    hfilter, hconfig, hhandle]
  exact ⟨⟨_, hactivated.modify _ (session.key_record event) (fun _ _ => trivial)
    fun _ _ => trivial⟩, hrecorded⟩

/-- Two sessions close the calls of one slot. -/
theorem Paired.unwind {table twins : ContextTable α} (h : Paired law table twins)
    (hother : other = { session with contexts := other.contexts }) {now : α}
    (hexact : table.Exact) (hlaw : Waits law now)
    (hunwind : ∀ {context twin : Context α}, law context twin →
      law (context.unwind now) (twin.unwind now)) (handle : Handle) :
    Paired law (session.unwind now table handle) (other.unwind now twins handle) := by
  have hsame : other.filter = session.filter ∧ other.config = session.config := by
    rw [hother]
    exact ⟨rfl, rfl⟩
  unfold Session.unwind
  cases hget : table.get? handle with
  | none =>
      rw [h.get?_none hget]
      exact h
  | some context =>
      obtain ⟨twin, htwin, hpair⟩ := h.get? hget
      rw [htwin, hsame.1, hsame.2]
      simp only []
      rw [hlaw.key hpair]
      obtain ⟨-, hpaired⟩ := h.activate hlaw context.key session.filter
        session.config.initialStackCapacity fun hnone => by
          rw [hexact.find.mpr ⟨context, hget, rfl⟩] at hnone
          cases hnone
      exact hpaired.modify handle (fun _ hpair => hunwind hpair) fun _ _ hpair => hpair

theorem Paired.unwindAll (hother : other = { session with contexts := other.contexts }) {now : α}
    (hlaw : Waits law now)
    (hunwind : ∀ {context twin : Context α}, law context twin →
      law (context.unwind now) (twin.unwind now)) :
    ∀ (handles : List Handle) {table twins : ContextTable α}, table.Exact →
      Paired law table twins →
        Paired law (handles.foldl (session.unwind now) table)
          (handles.foldl (other.unwind now) twins) := by
  intro handles
  induction handles with
  | nil => intro table twins _ h; exact h
  | cons handle handles ih =>
      intro table twins hexact h
      refine ih ?_ (Paired.unwind h hother hexact hlaw hunwind handle)
      exact (attended_unwind session hexact (attended_true _) now (passes_true now)
        (fun _ => trivial) handle).1

end Session

end CallLedger
