import CallLedger.Proofs.Operations
import CallLedger.Proofs.Tables

/-!
# Who is active

One context of a table is active, the one that was touched last. A law may tell
it from the others (`Attended`). Such a law survives a run when it survives the end
of a wait, which makes a context active, and the beginning of one, which makes it
one of the others.

For an event to reach its context and no other, the index has to be right: every
key leads to the slot of its context and every context is found under its key
(`Exact`). Contexts never change their keys, so this only has to be seen where one
is inserted.
-/

namespace CallLedger

variable {α : Type}

/-! ## What recording leaves alone -/

theorem Context.called_keeps [Amount α] (context : Context α) (event : Event α)
    (exclusions : Exclusions) (paused : Bool) :
    (context.called event exclusions paused).key = context.key ∧
      (context.called event exclusions paused).traced = context.traced := by
  unfold called
  cases event.method? with
  | none => exact ⟨rfl, rfl⟩
  | some method =>
      simp only []
      split
      · exact ⟨rfl, rfl⟩
      · exact ⟨rfl, rfl⟩

theorem Context.allocated_keeps (context : Context α) (event : Event α) :
    (context.allocated event).key = context.key ∧
      (context.allocated event).traced = context.traced := by
  unfold allocated
  split
  · split
    · exact ⟨rfl, rfl⟩
    · exact ⟨rfl, rfl⟩
  · exact ⟨rfl, rfl⟩

theorem Session.record_keeps [Amount α] (session : Session α) (event : Event α)
    (context : Context α) : (session.record event context).key = context.key ∧
      (session.record event context).traced = context.traced := by
  unfold Session.record
  split
  · split
    · exact context.called_keeps _ _ _
    · exact context.called_keeps _ _ _
    · exact ⟨rfl, rfl⟩
    · exact ⟨rfl, rfl⟩
    · exact ⟨rfl, rfl⟩
    · split
      · exact context.allocated_keeps _
      · exact ⟨rfl, rfl⟩
  · exact ⟨rfl, rfl⟩

theorem Session.key_record [Amount α] (session : Session α) (event : Event α)
    (context : Context α) : (session.record event context).key = context.key :=
  (session.record_keeps event context).1

namespace ContextTable

variable {table after : ContextTable α}

/-- Every context is still there, under its handle and key. -/
def Keeps (table after : ContextTable α) : Prop :=
  ∀ (handle : Nat) (context : Context α), table.get? handle = some context →
    ∃ later, after.get? handle = some later ∧ later.key = context.key

theorem Keeps.refl (table : ContextTable α) : Keeps table table :=
  fun _ context hget => ⟨context, hget, rfl⟩

theorem Keeps.trans {last : ContextTable α} (h : Keeps table after) (hnext : Keeps after last) :
    Keeps table last := by
  intro handle context hget
  obtain ⟨later, hlater, hkey⟩ := h _ _ hget
  obtain ⟨final, hfinal, hsame⟩ := hnext _ _ hlater
  exact ⟨final, hfinal, hsame.trans hkey⟩

/-- The index is right, and the context that was active last is there. -/
structure Exact (table : ContextTable α) : Prop where
  find : ∀ {key : ContextKey} {handle : Nat}, table.find? key = some handle ↔
    ∃ context, table.get? handle = some context ∧ context.key = key
  last : ∀ {handle : Nat}, table.last = some handle → ∃ context, table.get? handle = some context

theorem exact_empty : (empty : ContextTable α).Exact where
  find {key handle} := by
    constructor
    · nofun
    · rintro ⟨context, hget, -⟩
      exact absurd (get?_lt hget) (Nat.not_lt_zero _)
  last := nofun

theorem Exact.unique (h : table.Exact) {handle other : Nat} {context found : Context α}
    (hget : table.get? handle = some context) (hother : table.get? other = some found)
    (hkey : found.key = context.key) : other = handle := by
  have hfirst := h.find.mpr ⟨context, hget, rfl⟩
  have hsecond := h.find.mpr ⟨found, hother, hkey⟩
  rw [hfirst] at hsecond
  exact (Option.some.inj hsecond).symm

/-- Slots may change as long as every one keeps its key. -/
theorem Exact.of_slots (h : table.Exact) (hindex : after.index = table.index)
    (hslots : ∀ handle : Nat,
      (after.get? handle).map (·.key) = (table.get? handle).map (·.key))
    (hlast : ∀ {handle : Nat}, after.last = some handle →
      ∃ context, table.get? handle = some context) : after.Exact ∧ Keeps table after := by
  have hforth : Keeps table after := by
    intro handle context hget
    have hkey := hslots handle
    rw [hget, Option.map_some] at hkey
    exact Option.map_eq_some_iff.mp hkey
  refine ⟨⟨fun {key handle} => ?_, fun hafter => ?_⟩, hforth⟩
  · rw [ContextTable.find?, hindex]
    refine (h.find).trans ?_
    constructor
    · rintro ⟨context, hget, rfl⟩
      exact hforth _ _ hget
    · rintro ⟨context, hget, rfl⟩
      have hkey := hslots handle
      rw [hget, Option.map_some] at hkey
      obtain ⟨before, hbefore, hsame⟩ := Option.map_eq_some_iff.mp hkey.symm
      exact ⟨before, hbefore, hsame⟩
  · obtain ⟨context, hget⟩ := hlast hafter
    obtain ⟨later, hlater, -⟩ := hforth _ _ hget
    exact ⟨later, hlater⟩

theorem Exact.modify (h : table.Exact) (handle : Nat) {change : Context α → Context α}
    (hkey : ∀ context, (change context).key = context.key) :
    (table.modify handle change).Exact ∧ Keeps table (table.modify handle change) := by
  refine h.of_slots rfl (fun other => ?_) h.last
  rw [get?_modify]
  split
  · rw [Option.map_map]
    exact congrArg (Option.map · _) (funext hkey)
  · rfl

theorem Exact.mapLive (h : table.Exact) (change : Context α → Context α)
    (hkey : ∀ context, (change context).key = context.key) :
    (table.mapLive change).Exact ∧ Keeps table (table.mapLive change) := by
  refine h.of_slots rfl (fun other => ?_) h.last
  rw [get?_mapLive, Option.map_map]
  exact congrArg (Option.map · _) (funext hkey)

theorem Exact.insert (h : table.Exact) {context : Context α}
    (hnew : table.find? context.key = none) :
    (table.insert context).Exact ∧ Keeps table (table.insert context) := by
  have hkeeps : Keeps table (table.insert context) := by
    intro handle found hget
    refine ⟨found, ?_, rfl⟩
    rw [get?_insert, if_neg (Nat.ne_of_lt (get?_lt hget)), hget]
  refine ⟨⟨fun {key handle} => ?_, fun hlast => ?_⟩, hkeeps⟩
  · show (table.index.insert context.key table.slots.size).get? key = some handle ↔ _
    rw [Links.get?_insert, get?_insert]
    by_cases hkey : key = context.key
    · subst hkey
      rw [if_pos rfl, Option.some.injEq]
      constructor
      · rintro rfl
        exact ⟨context, if_pos rfl, rfl⟩
      · rintro ⟨found, hfound, hsame⟩
        split at hfound
        · next heq => exact heq.symm
        · rw [h.find.mpr ⟨found, hfound, hsame⟩] at hnew
          cases hnew
    · rw [if_neg hkey]
      refine h.find.trans ⟨?_, ?_⟩
      · rintro ⟨found, hfound, hsame⟩
        exact ⟨found, by rw [if_neg (Nat.ne_of_lt (get?_lt hfound)), hfound], hsame⟩
      · rintro ⟨found, hfound, hsame⟩
        split at hfound
        · cases hfound
          exact absurd hsame.symm hkey
        · exact ⟨found, hfound, hsame⟩
  · obtain ⟨found, hfound⟩ := h.last hlast
    obtain ⟨later, hlater, -⟩ := hkeeps _ _ hfound
    exact ⟨later, hlater⟩

/-! ## Handing over -/

/-- What every context has, according to whether it is active. -/
def Attended (table : ContextTable α) (law : Bool → Handle → Context α → Prop) : Prop :=
  ∀ (handle : Nat) (context : Context α), table.get? handle = some context →
    law (table.last = some handle) handle context

/-- That no law is asked for. -/
theorem attended_true (table : ContextTable α) : table.Attended fun _ _ _ => True :=
  fun _ _ _ => trivial

theorem get?_size (table : ContextTable α) : table.get? table.slots.size = none :=
  Option.eq_none_iff_forall_ne_some.mpr fun _ hget => Nat.lt_irrefl _ (get?_lt hget)

theorem Exact.last_ne_size (h : table.Exact) : table.last ≠ some table.slots.size := by
  intro hlast
  obtain ⟨context, hget⟩ := h.last hlast
  exact Nat.lt_irrefl _ (get?_lt hget)

theorem Exact.attended_insert (h : table.Exact) {law : Bool → Handle → Context α → Prop}
    (hall : table.Attended law) {context : Context α}
    (hnew : law false table.slots.size context) : (table.insert context).Attended law := by
  intro handle found hget
  rw [get?_insert] at hget
  split at hget
  · next heq =>
      cases hget
      rw [heq, show decide ((table.insert context).last = some table.slots.size) = false
        from decide_eq_false h.last_ne_size]
      exact hnew
  · exact hall _ _ hget

theorem Attended.mapLive {law later : Bool → Handle → Context α → Prop} (h : table.Attended law)
    {change : Context α → Context α}
    (hchange : ∀ {active : Bool} {handle : Nat} {context : Context α},
      law active handle context → later active handle (change context)) :
    (table.mapLive change).Attended later := by
  intro handle context hget
  rw [get?_mapLive] at hget
  obtain ⟨before, hbefore, rfl⟩ := Option.map_eq_some_iff.mp hget
  exact hchange (h _ _ hbefore)

/-- How a law passes when activity is handed over at a moment. -/
structure Passes [Amount α] (law : Bool → Handle → Context α → Prop) (now : α) : Prop where
  switchIn : ∀ {handle : Nat} {context : Context α}, law false handle context →
    law true handle (context.switchIn now)
  switchOut : ∀ {handle : Nat} {context : Context α}, law true handle context →
    law false handle (context.switchOut now)

theorem passes_true [Amount α] (now : α) :
    Passes (fun (_ : Bool) (_ : Handle) (_ : Context α) => True) now :=
  ⟨fun _ => trivial, fun _ => trivial⟩

/-- A table in which a context has become active. -/
structure Activated (table after : ContextTable α) (law : Bool → Handle → Context α → Prop)
    (key : ContextKey) (handle : Handle) : Prop where
  exact : after.Exact
  keeps : Keeps table after
  attended : after.Attended law
  last : after.last = some handle
  found : ∃ context, after.get? handle = some context ∧ context.key = key

variable {law : Bool → Handle → Context α → Prop}

/-- A key that is still unseen is another one, and was unseen before. -/
theorem Activated.unseen {key other : ContextKey} {handle : Handle}
    (h : Activated table after law key handle) (hexact : table.Exact)
    (hnone : after.find? other = none) : other ≠ key ∧ table.find? other = none := by
  constructor
  · obtain ⟨found, hfound, hkey⟩ := h.found
    intro heq
    rw [h.exact.find.mpr ⟨found, hfound, hkey.trans heq.symm⟩] at hnone
    cases hnone
  · cases hfind : table.find? other with
    | none => rfl
    | some before =>
        obtain ⟨context, hget, hsame⟩ := hexact.find.mp hfind
        obtain ⟨later, hlater, hkey⟩ := h.keeps _ _ hget
        rw [h.exact.find.mpr ⟨later, hlater, hkey.trans hsame⟩] at hnone
        cases hnone

/-- What happens to the context that has become active. -/
theorem Activated.modify {later : Bool → Handle → Context α → Prop} {key : ContextKey}
    {handle : Nat} (h : Activated table after law key handle)
    (change : Context α → Context α) (hkey : ∀ context, (change context).key = context.key)
    (hown : ∀ {context : Context α}, law true handle context → context.key = key →
      later true handle (change context))
    (hother : ∀ {other : Nat} {context : Context α}, law false other context →
      context.key ≠ key → later false other context) :
    Activated table (after.modify handle change) later key handle := by
  obtain ⟨context, hget, hcontext⟩ := h.found
  obtain ⟨hexact, hkeeps⟩ := h.exact.modify handle hkey
  refine ⟨hexact, h.keeps.trans hkeeps, ?_, h.last, ?_⟩
  · intro other found hfound
    rw [get?_modify] at hfound
    by_cases hhere : handle = other
    · subst hhere
      rw [if_pos rfl, hget] at hfound
      cases hfound
      have hbefore := h.attended _ _ hget
      rw [decide_eq_true h.last] at hbefore
      rw [show decide ((after.modify handle change).last = some handle) = true
        from decide_eq_true h.last]
      exact hown hbefore hcontext
    · rw [if_neg hhere] at hfound
      have hidle : after.last ≠ some other := by
        rw [h.last]
        exact fun heq => hhere (Option.some.inj heq)
      have hbefore := h.attended _ _ hfound
      rw [decide_eq_false hidle] at hbefore
      rw [show decide ((after.modify handle change).last = some other) = false
        from decide_eq_false hidle]
      refine hother hbefore fun hsame => ?_
      exact hhere (h.exact.unique hget hfound (hsame.trans hcontext.symm)).symm
  · obtain ⟨later, hlater, hsame⟩ := hkeeps _ _ hget
    exact ⟨later, hlater, hsame.trans hcontext⟩

variable [Amount α] {now : α}

theorem get?_switchTo {handle : Nat} (hlast : table.last ≠ some handle) (other : Nat) :
    (table.switchTo handle now).get? other =
      if handle = other then (table.get? other).map (·.switchIn now)
      else if table.last = some other then (table.get? other).map (·.switchOut now)
      else table.get? other := by
  unfold switchTo
  cases hcase : table.last with
  | none =>
      show (table.modify handle (·.switchIn now)).get? other = _
      rw [get?_modify, if_neg (show ¬none = some other from nofun)]
  | some last =>
      show ((table.modify handle (·.switchIn now)).modify last (·.switchOut now)).get? other = _
      rw [get?_modify, get?_modify]
      have hne : last ≠ handle := fun heq => hlast (heq ▸ hcase)
      by_cases hhere : handle = other
      · subst hhere
        rw [if_neg hne, if_pos rfl, if_pos rfl]
      · rw [if_neg hhere, if_neg hhere]
        simp only [Option.some.injEq]

theorem Exact.switchTo (h : table.Exact) (hall : table.Attended law) (hlaw : Passes law now)
    {handle : Nat} {context : Context α} (hget : table.get? handle = some context)
    (hlast : table.last ≠ some handle) :
    Activated table (table.switchTo handle now) law context.key handle := by
  have hindex : (table.switchTo handle now).index = table.index := by
    unfold ContextTable.switchTo
    cases table.last with
    | none => rfl
    | some last => rfl
  have hslots : ∀ other : Nat, ((table.switchTo handle now).get? other).map (·.key) =
      (table.get? other).map (·.key) := by
    intro other
    rw [get?_switchTo hlast]
    split
    · rw [Option.map_map]
      rfl
    · split
      · rw [Option.map_map]
        rfl
      · rfl
  obtain ⟨hexact, hkeeps⟩ := h.of_slots hindex hslots fun {other} hother => by
    cases hother
    exact ⟨context, hget⟩
  refine ⟨hexact, hkeeps, ?_, rfl, hkeeps _ _ hget⟩
  intro other found hfound
  show law (decide (some handle = some other)) other found
  rw [get?_switchTo hlast] at hfound
  by_cases hhere : handle = other
  · subst hhere
    rw [if_pos rfl, hget] at hfound
    cases hfound
    have hbefore := hall _ _ hget
    rw [decide_eq_false hlast] at hbefore
    rw [decide_eq_true rfl]
    exact hlaw.switchIn hbefore
  · rw [if_neg hhere] at hfound
    rw [decide_eq_false fun heq => hhere (Option.some.inj heq)]
    split at hfound
    · next hwas =>
        obtain ⟨before, hbefore, rfl⟩ := Option.map_eq_some_iff.mp hfound
        have hactive := hall _ _ hbefore
        rw [decide_eq_true hwas] at hactive
        exact hlaw.switchOut hactive
    · next hwas =>
        have hidle := hall _ _ hfound
        rw [decide_eq_false hwas] at hidle
        exact hidle

theorem Exact.activate (h : table.Exact) (hall : table.Attended law) (hlaw : Passes law now)
    (key : ContextKey) (filter : ThreadFilter) (capacity : Nat)
    (hfresh : table.find? key = none → table.get? table.slots.size = none →
      law false table.slots.size (.fresh key (filter.traces key.thread) capacity)) :
    Activated table (table.activate key now filter capacity).1 law key
      (table.activate key now filter capacity).2 := by
  unfold ContextTable.activate
  cases hactive : table.active? key with
  | some handle =>
      obtain ⟨hlast, hkey⟩ := Option.filter_eq_some_iff.mp hactive
      obtain ⟨context, hget⟩ := h.last hlast
      rw [hget, Option.any_some, decide_eq_true_eq] at hkey
      exact ⟨h, Keeps.refl table, hall, hlast, context, hget, hkey⟩
  | none =>
      have hother : ∀ {handle : Nat}, table.find? key = some handle →
          table.last ≠ some handle := by
        intro handle hfind hlast
        obtain ⟨context, hget, hkey⟩ := h.find.mp hfind
        rw [active?, hlast, Option.filter_some, hget, Option.any_some,
          if_pos (decide_eq_true hkey)] at hactive
        cases hactive
      simp only [slotFor]
      cases hfind : table.find? key with
      | some handle =>
          obtain ⟨context, hget, rfl⟩ := h.find.mp hfind
          exact h.switchTo hall hlaw hget (hother hfind)
      | none =>
          obtain ⟨hexact, hkeeps⟩ := h.insert
            (show table.find? (Context.fresh key (filter.traces key.thread) capacity).key = none
              from hfind)
          have hnew := h.attended_insert hall (hfresh hfind table.get?_size)
          have hput : (table.insert (.fresh key (filter.traces key.thread) capacity)).get?
              table.slots.size = some (.fresh key (filter.traces key.thread) capacity) := by
            rw [get?_insert, if_pos rfl]
          obtain ⟨hdone, hkept, hattended, hlast, hfound⟩ :=
            hexact.switchTo hnew hlaw hput h.last_ne_size
          exact ⟨hdone, hkeeps.trans hkept, hattended, hlast, hfound⟩

end ContextTable

/-! ## Events and the end of a run -/

namespace Session

open ContextTable

variable [Amount α] {session : Session α} {table : ContextTable α}
  {law later : Bool → Handle → Context α → Prop}

/-- An event makes its context active and is recorded there, and nowhere else. -/
theorem activated_handle (hactive : session.phase.isActive = true)
    (h : session.contexts.Exact) (hall : session.contexts.Attended law) (event : Event α)
    (hlaw : Passes law event.sample)
    (hfresh : session.contexts.find? ⟨event.thread, event.fiber⟩ = none →
      session.contexts.get? session.contexts.slots.size = none →
      law false session.contexts.slots.size (.fresh ⟨event.thread, event.fiber⟩
        (session.filter.traces event.thread) session.config.initialStackCapacity))
    (hown : ∀ {handle : Nat} {context : Context α}, law true handle context →
      context.key = ⟨event.thread, event.fiber⟩ →
      later true handle (session.record event context))
    (hother : ∀ {handle : Nat} {context : Context α}, law false handle context →
      context.key ≠ ⟨event.thread, event.fiber⟩ → later false handle context) :
    ∃ handle, Activated session.contexts (session.handle event).contexts later
      ⟨event.thread, event.fiber⟩ handle := by
  have hactivated := h.activate hall hlaw ⟨event.thread, event.fiber⟩ session.filter
    session.config.initialStackCapacity hfresh
  rw [contexts_handle hactive]
  exact ⟨_, hactivated.modify _ (session.key_record event) hown hother⟩

/-- Closing the calls of one context, after which it is the active one. -/
theorem attended_unwind (session : Session α) (h : table.Exact) (hall : table.Attended law)
    (now : α) (hlaw : Passes law now)
    (hunwind : ∀ {handle : Nat} {context : Context α}, law true handle context →
      law true handle (context.unwind now)) (handle : Nat) :
    (session.unwind now table handle).Exact ∧ Keeps table (session.unwind now table handle) ∧
      (session.unwind now table handle).Attended law := by
  unfold Session.unwind
  cases hget : table.get? handle with
  | none => exact ⟨h, Keeps.refl table, hall⟩
  | some context =>
      have hfind := h.find.mpr ⟨context, hget, rfl⟩
      have hactivated := h.activate hall hlaw context.key session.filter
        session.config.initialStackCapacity fun hnone => by
          rw [hfind] at hnone
          cases hnone
      obtain ⟨found, hfound, hkey⟩ := hactivated.found
      obtain ⟨kept, hkept, hsame⟩ := hactivated.keeps _ _ hget
      have hhere := hactivated.exact.unique hkept hfound (hkey.trans hsame.symm)
      have hdone := hactivated.modify (·.unwind now) (fun _ => rfl) (fun hc _ => hunwind hc)
        fun hc _ => hc
      rw [hhere] at hdone
      exact ⟨hdone.exact, hdone.keeps, hdone.attended⟩

theorem attended_unwindAll (session : Session α) (now : α) (hlaw : Passes law now)
    (hunwind : ∀ {handle : Nat} {context : Context α}, law true handle context →
      law true handle (context.unwind now)) :
    ∀ (handles : List Handle) {table : ContextTable α}, table.Exact → table.Attended law →
      (handles.foldl (session.unwind now) table).Exact ∧
        Keeps table (handles.foldl (session.unwind now) table) ∧
        (handles.foldl (session.unwind now) table).Attended law := by
  intro handles
  induction handles with
  | nil => intro table h hall; exact ⟨h, Keeps.refl table, hall⟩
  | cons handle handles ih =>
      intro table h hall
      obtain ⟨hexact, hkeeps, hattended⟩ :=
        attended_unwind session h hall now hlaw hunwind handle
      obtain ⟨hdone, hkept, hfinal⟩ := ih hexact hattended
      exact ⟨hdone, hkeeps.trans hkept, hfinal⟩

end Session

end CallLedger
