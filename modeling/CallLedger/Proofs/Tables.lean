import Mathlib.Data.List.Basic
import CallLedger.Context.Table
import CallLedger.Session.Fibers

/-!
# What holds everywhere in a table

A table changes slot by slot. A property of the contexts in their slots
(`Everywhere`) survives a change of activity when it survives the end and the
beginning of a wait and holds of fresh contexts, and it survives the rest when
the one context that changes keeps it.
-/

namespace CallLedger.ContextTable

variable {α : Type} {table : ContextTable α}

/-! ## Contexts by slot -/

theorem get?_modify (handle other : Handle) (change : Context α → Context α) :
    (table.modify handle change).get? other =
      if handle = other then (table.get? other).map change else table.get? other := by
  unfold get? modify
  rw [Array.getElem?_modify]
  split
  · cases table.slots[other]? with
    | none => rfl
    | some slot => rfl
  · rfl

/-- What is changed alike in a slot is changed alike in the table. -/
theorem modify_congr {handle : Nat} {change other : Context α → Context α}
    (h : ∀ context, table.get? handle = some context → change context = other context) :
    table.modify handle change = table.modify handle other := by
  unfold modify
  congr 1
  refine Array.ext_getElem? fun i => ?_
  rw [Array.getElem?_modify, Array.getElem?_modify]
  split
  · next heq =>
      subst heq
      cases hslot : table.slots[handle]? with
      | none => rfl
      | some slot =>
          cases slot with
          | none => rfl
          | some context =>
              have hget : table.get? handle = some context := by
                unfold get?
                rw [hslot]
                rfl
              rw [Option.map_some, Option.map_some, Option.map_some, Option.map_some, h _ hget]
  · rfl

theorem modify_self (table : ContextTable α) (handle : Handle) :
    (table.modify handle fun context => context) = table := by
  have hslots : table.slots.modify handle (·.map fun context => context) = table.slots := by
    refine Array.ext_getElem? fun i => ?_
    rw [Array.getElem?_modify]
    split
    · simp
    · rfl
  unfold modify
  rw [hslots]

theorem get?_lt {handle : Nat} {context : Context α} (h : table.get? handle = some context) :
    handle < table.slots.size := by
  unfold get? at h
  rcases Nat.lt_or_ge handle table.slots.size with hlt | hge
  · exact hlt
  · rw [Array.getElem?_eq_none hge] at h
    cases h

theorem get?_insert (context : Context α) (handle : Nat) :
    (table.insert context).get? handle =
      if handle = table.slots.size then some context else table.get? handle := by
  unfold get? insert
  rw [Array.getElem?_push]
  split
  · rfl
  · rfl

theorem get?_mapLive (change : Context α → Context α) (handle : Handle) :
    (table.mapLive change).get? handle = (table.get? handle).map change := by
  unfold get? mapLive
  rw [Array.getElem?_map]
  cases table.slots[handle]? with
  | none => rfl
  | some slot => rfl

theorem get?_releaseAll (handle : Handle) : table.releaseAll.get? handle = none := by
  unfold get? releaseAll
  rw [Array.getElem?_map]
  cases table.slots[handle]? with
  | none => rfl
  | some slot => rfl

theorem get?_release (handle other : Handle) :
    (table.release handle).get? other = if handle = other then none else table.get? other := by
  unfold release
  cases hfound : table.get? handle with
  | none =>
      show table.get? other = _
      by_cases heq : handle = other
      · rw [if_pos heq, ← heq, hfound]
      · rw [if_neg heq]
  | some context =>
      show (table.slots.modify handle fun _ => none)[other]?.join = _
      rw [Array.getElem?_modify]
      split
      · cases table.slots[other]? with
        | none => rfl
        | some slot => rfl
      · rfl

theorem mem_live {handle : Nat} {context : Context α} :
    (handle, context) ∈ table.live ↔ table.get? handle = some context := by
  unfold live
  rw [List.mem_filterMap]
  constructor
  · rintro ⟨i, -, hi⟩
    obtain ⟨found, hfound, heq⟩ := Option.map_eq_some_iff.mp hi
    cases heq
    exact hfound
  · intro h
    exact ⟨handle, List.mem_range.mpr (get?_lt h), by rw [h]; rfl⟩

theorem mem_handles {handle : Nat} :
    handle ∈ table.handles ↔ ∃ context, table.get? handle = some context := by
  unfold handles
  rw [List.mem_map]
  constructor
  · rintro ⟨⟨i, context⟩, hmem, rfl⟩
    exact ⟨context, mem_live.mp hmem⟩
  · rintro ⟨context, hget⟩
    exact ⟨(handle, context), mem_live.mpr hget, rfl⟩

/-- A context that is put in comes last. -/
theorem live_insert (context : Context α) :
    (table.insert context).live = table.live ++ [(table.slots.size, context)] := by
  have hsize : (table.insert context).slots.size = table.slots.size + 1 := Array.size_push _
  unfold live
  rw [hsize, List.range_succ, List.filterMap_append]
  congr 1
  · refine List.filterMap_congr fun handle hhandle => ?_
    rw [get?_insert, if_neg (Nat.ne_of_lt (List.mem_range.mp hhandle))]
  · rw [List.filterMap_cons, get?_insert, if_pos rfl]
    rfl

theorem live_foldl_insert : ∀ {contexts : List (Context α)} {table : ContextTable α},
    (contexts.foldl ContextTable.insert table).live.map (·.2) =
      table.live.map (·.2) ++ contexts := by
  intro contexts
  induction contexts with
  | nil => intro table; exact (List.append_nil _).symm
  | cons context contexts ih =>
      intro table
      rw [List.foldl_cons, ih, live_insert, List.map_append, List.append_assoc]
      rfl

/-! ## Everywhere -/

/-- What every context has in its slot. -/
def Everywhere (table : ContextTable α) (law : Handle → Context α → Prop) : Prop :=
  ∀ (handle : Nat) (context : Context α), table.get? handle = some context → law handle context

variable {law : Handle → Context α → Prop}

theorem everywhere_empty : (empty : ContextTable α).Everywhere law :=
  fun _ _ h => absurd (get?_lt h) (Nat.not_lt_zero _)

theorem everywhere_releaseAll : table.releaseAll.Everywhere law := by
  intro handle context h
  rw [get?_releaseAll] at h
  cases h

theorem Everywhere.modify (h : table.Everywhere law) (handle : Nat)
    {change : Context α → Context α}
    (hchange : ∀ {context : Context α}, table.get? handle = some context →
      law handle (change context)) : (table.modify handle change).Everywhere law := by
  intro other context hget
  rw [get?_modify] at hget
  split at hget
  · next heq =>
      obtain ⟨before, hbefore, rfl⟩ := Option.map_eq_some_iff.mp hget
      subst heq
      exact hchange hbefore
  · exact h _ _ hget

theorem Everywhere.insert (h : table.Everywhere law) {context : Context α}
    (hnew : law table.slots.size context) : (table.insert context).Everywhere law := by
  intro handle found hget
  rw [get?_insert] at hget
  split at hget
  · next heq =>
      cases hget
      rw [heq]
      exact hnew
  · exact h _ _ hget

theorem Everywhere.foldl_insert {law : Context α → Prop} : ∀ {contexts : List (Context α)}
    {table : ContextTable α}, (table.Everywhere fun _ => law) →
      (∀ context ∈ contexts, law context) →
      (contexts.foldl ContextTable.insert table).Everywhere fun _ => law := by
  intro contexts
  induction contexts with
  | nil => intro table h _; exact h
  | cons context contexts ih =>
      intro table h hcontexts
      refine ih (h.insert (hcontexts context List.mem_cons_self)) fun later hlater => ?_
      exact hcontexts later (List.mem_cons_of_mem _ hlater)

theorem Everywhere.mapLive (h : table.Everywhere law) {change : Context α → Context α}
    (hchange : ∀ {handle : Nat} {context : Context α}, law handle context →
      law handle (change context)) : (table.mapLive change).Everywhere law := by
  intro handle context hget
  rw [get?_mapLive] at hget
  obtain ⟨before, hbefore, rfl⟩ := Option.map_eq_some_iff.mp hget
  exact hchange (h _ _ hbefore)

theorem Everywhere.release (h : table.Everywhere law) (handle : Nat) :
    (table.release handle).Everywhere law := by
  intro other context hget
  rw [get?_release] at hget
  split at hget
  · cases hget
  · exact h _ _ hget

theorem Everywhere.resetLast (h : table.Everywhere law) : table.resetLast.Everywhere law := h

theorem Everywhere.foldl_release (h : table.Everywhere law)
    (entries : List (Handle × Context α)) :
    (entries.foldl (fun table entry => table.release entry.1) table).Everywhere law := by
  induction entries generalizing table with
  | nil => exact h
  | cons entry entries ih => exact ih (h.release entry.1)

/-- The fibers of a thread are contexts of the table. -/
theorem Everywhere.fibers (h : table.Everywhere law) (thread : UInt64) :
    ∀ entry ∈ table.fibers thread, law entry.1 entry.2 := by
  intro entry hentry
  have hlive := (List.mem_filter.mp (List.mem_mergeSort.mp hentry)).1
  exact h _ _ (mem_live.mp hlive)

/-! ## Activity -/

variable [Amount α]

/-- What outlasts waits and holds of fresh contexts. -/
structure Steady (law : Handle → Context α → Prop) : Prop where
  switchIn : ∀ {handle : Nat} {context : Context α} (now : α), law handle context →
    law handle (context.switchIn now)
  switchOut : ∀ {handle : Nat} {context : Context α} (now : α), law handle context →
    law handle (context.switchOut now)
  fresh : ∀ (handle : Nat) (key : ContextKey) (traced : Bool) (capacity : Nat),
    law handle (.fresh key traced capacity)

theorem Everywhere.switchTo (h : table.Everywhere law) (hlaw : Steady law) (handle : Nat)
    (now : α) : (table.switchTo handle now).Everywhere law := by
  have hresumed : (table.modify handle (·.switchIn now)).Everywhere law :=
    h.modify handle fun hget => hlaw.switchIn now (h _ _ hget)
  unfold ContextTable.switchTo
  cases table.last with
  | none => exact hresumed
  | some last => exact hresumed.modify last fun hget => hlaw.switchOut now (hresumed _ _ hget)

theorem Everywhere.activate (h : table.Everywhere law) (hlaw : Steady law) (key : ContextKey)
    (now : α) (filter : ThreadFilter) (capacity : Nat) :
    (table.activate key now filter capacity).1.Everywhere law := by
  unfold ContextTable.activate
  cases table.active? key with
  | some handle => exact h
  | none =>
      have hslot : (table.slotFor key filter capacity).1.Everywhere law := by
        unfold slotFor
        cases table.find? key with
        | some handle => exact h
        | none => exact h.insert (hlaw.fresh _ _ _ _)
      exact hslot.switchTo hlaw _ now

/-! ## Folding fibers -/

theorem Everywhere.foldFibers (h : table.Everywhere law)
    (hmerge : ∀ {handle source : Handle} {context other : Context α}, law handle context →
      law source other → law handle (context.merge other)) : table.foldFibers.Everywhere law := by
  have hthread : ∀ {table : ContextTable α} (thread : UInt64), table.Everywhere law →
      (table.foldThread thread).Everywhere law := by
    intro table thread h
    have hfibers := h.fibers thread
    have hmerged : ∀ {others : List (Handle × Context α)} {handle : Handle}
        {context : Context α}, (∀ entry ∈ others, law entry.1 entry.2) → law handle context →
          law handle (others.foldl (fun context other => context.merge other.2) context) := by
      intro others
      induction others with
      | nil => intro handle context _ hc; exact hc
      | cons other others ih =>
          intro handle context hothers hc
          exact ih (fun entry hentry => hothers entry (List.mem_cons_of_mem _ hentry))
            (hmerge hc (hothers other List.mem_cons_self))
    unfold ContextTable.foldThread
    cases hcase : table.fibers thread with
    | nil => exact h
    | cons first others =>
        obtain ⟨handle, context⟩ := first
        rw [hcase] at hfibers
        refine (h.foldl_release others).modify handle fun hget => ?_
        exact hmerged (fun entry hentry => hfibers entry (List.mem_cons_of_mem _ hentry))
          (h.foldl_release others _ _ hget)
  unfold ContextTable.foldFibers
  generalize table.threads = threads
  induction threads generalizing table with
  | nil => exact h
  | cons thread threads ih => exact ih (hthread thread h)

end CallLedger.ContextTable
