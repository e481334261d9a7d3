import CallLedger.Proofs.RoundTrip
import CallLedger.Proofs.Activity

/-!
# One context for a key

In every session that can come about the index of the contexts is right
(`Reachable.exact`): a key leads to the handle of its context, and no two contexts
have one key. Releasing a context takes its key out of the index, so this also
outlasts the folding of fibers; and a dump names every key once because the
session it was made of did.
-/

namespace CallLedger

namespace ContextTable

variable {α : Type} {table : ContextTable α}

theorem exact_releaseAll : table.releaseAll.Exact where
  find {key handle} := by
    constructor
    · nofun
    · rintro ⟨context, hget, -⟩
      rw [get?_releaseAll] at hget
      cases hget
  last := nofun

theorem Exact.resetLast (h : table.Exact) : table.resetLast.Exact where
  find := h.find
  last := nofun

theorem Exact.release (h : table.Exact) (handle : Nat) : (table.release handle).Exact := by
  cases hget : table.get? handle with
  | none =>
      unfold ContextTable.release
      rw [hget]
      exact h
  | some context =>
      refine ⟨fun {key other} => ?_, fun {other} hlast => ?_⟩
      · have hindex : (table.release handle).find? key =
            if key = context.key then none else table.find? key := by
          unfold ContextTable.release
          rw [hget]
          exact Links.get?_erase _ _ _
        rw [hindex, get?_release]
        by_cases hkey : key = context.key
        · rw [if_pos hkey]
          refine iff_of_false nofun ?_
          rintro ⟨found, hfound, hsame⟩
          split at hfound
          · cases hfound
          · next hne => exact hne (h.unique hget hfound (hsame.trans hkey)).symm
        · rw [if_neg hkey, h.find]
          refine exists_congr fun found => ?_
          constructor
          · rintro ⟨hfound, hsame⟩
            rw [if_neg ?_]
            · exact ⟨hfound, hsame⟩
            · rintro rfl
              rw [hget] at hfound
              cases hfound
              exact hkey hsame.symm
          · rintro ⟨hfound, hsame⟩
            split at hfound
            · cases hfound
            · exact ⟨hfound, hsame⟩
      · rw [get?_release]
        have hbefore : table.last = some other ∧ handle ≠ other := by
          unfold ContextTable.release at hlast
          rw [hget] at hlast
          change (if table.last = some handle then none else table.last) = some other at hlast
          split at hlast
          · cases hlast
          · next hne => exact ⟨hlast, fun heq => hne (heq ▸ hlast)⟩
        rw [if_neg hbefore.2]
        exact h.last hbefore.1

theorem Exact.foldl_insert : ∀ {contexts : List (Context α)} {table : ContextTable α},
    table.Exact → (contexts.map (·.key)).Nodup →
    (∀ context ∈ contexts, table.find? context.key = none) →
    (contexts.foldl ContextTable.insert table).Exact := by
  intro contexts
  induction contexts with
  | nil => intro table h _ _; exact h
  | cons context contexts ih =>
      intro table h hnodup hnew
      obtain ⟨hfirst, hrest⟩ := List.nodup_cons.mp hnodup
      refine ih (h.insert (hnew context List.mem_cons_self)).1 hrest fun later hlater => ?_
      show (table.index.insert context.key table.slots.size).get? later.key = none
      rw [Links.get?_insert, if_neg fun heq => hfirst (List.mem_map.mpr ⟨later, hlater, heq⟩)]
      exact hnew later (List.mem_cons_of_mem _ hlater)

/-- The slots in their order, each once. -/
theorem nodup_live (table : ContextTable α) : (table.live.map (·.1)).Nodup := by
  have hlive : table.live.map (·.1) =
      (List.range table.slots.size).filter fun handle => (table.get? handle).isSome := by
    unfold live
    rw [List.map_filterMap, ← List.filterMap_eq_filter]
    refine List.filterMap_congr fun handle _ => ?_
    rw [Option.guard]
    cases table.get? handle with
    | none => rfl
    | some context => rfl
  rw [hlive]
  exact List.nodup_range.filter _

theorem Exact.pairwise_live (h : table.Exact) :
    table.live.Pairwise fun a b => a.2.key ≠ b.2.key := by
  refine (List.pairwise_map.mp table.nodup_live).imp_of_mem fun {a b} ha hb hne hkey => hne ?_
  exact h.unique (mem_live.mp hb) (mem_live.mp ha) hkey

variable [Amount α]

/-- Merging changes the profile of a context and nothing else. -/
theorem foldl_merge_eq : ∀ (others : List (Handle × Context α)) (context : Context α),
    others.foldl (fun context other => context.merge other.2) context =
      { context with
        profile := (others.map (·.2.profile)).foldl Profile.merge context.profile } := by
  intro others
  induction others with
  | nil => intro context; rfl
  | cons other others ih => intro context; exact ih (context.merge other.2)

/-- Folding releases contexts and changes others, whose keys stay what they were. -/
theorem foldFibers_keeps {law : ContextTable α → Prop}
    (hrelease : ∀ {table : ContextTable α} (handle : Nat), law table → law (table.release handle))
    (hmodify : ∀ {table : ContextTable α} (handle : Nat) {change : Context α → Context α},
      (∀ context, (change context).key = context.key) → law table →
        law (table.modify handle change)) (h : law table) : law table.foldFibers := by
  have hreleased : ∀ {others : List (Handle × Context α)} {table : ContextTable α}, law table →
      law (others.foldl (fun table other => table.release other.1) table) := by
    intro others
    induction others with
    | nil => intro table h; exact h
    | cons other others ih => intro table h; exact ih (hrelease other.1 h)
  have hthread : ∀ {table : ContextTable α} (thread : UInt64), law table →
      law (table.foldThread thread) := by
    intro table thread h
    unfold ContextTable.foldThread
    split
    · exact h
    · exact hmodify _ (fun context => by rw [foldl_merge_eq]) (hreleased h)
  unfold ContextTable.foldFibers
  generalize table.threads = threads
  induction threads generalizing table with
  | nil => exact h
  | cons thread threads ih => exact ih (hthread thread h)

theorem Exact.foldFibers (h : table.Exact) : table.foldFibers.Exact :=
  foldFibers_keeps (fun handle h => h.release handle)
    (fun handle _ hkey h => (h.modify handle hkey).1) h

end ContextTable

namespace Session

open ContextTable

variable {α : Type} {session : Session α}

theorem thread_eq_ok {handle : Nat} {context : Context α} :
    session.thread handle = .ok context ↔ session.contexts.get? handle = some context := by
  unfold thread
  cases session.contexts.get? handle with
  | none => exact iff_of_false nofun nofun
  | some found => exact ⟨fun h => by cases h; rfl, fun h => by cases h; rfl⟩

variable [Amount α]

theorem exact_handle (h : session.contexts.Exact) (event : Event α) :
    (session.handle event).contexts.Exact := by
  cases hactive : session.phase.isActive with
  | false =>
      unfold Session.handle
      rw [hactive]
      exact h
  | true =>
      have hactivated : ∃ handle, Activated session.contexts (session.handle event).contexts
          (fun _ _ _ => True) ⟨event.thread, event.fiber⟩ handle :=
        activated_handle hactive h (attended_true _) event (passes_true _) (fun _ _ => trivial)
          (fun _ _ => trivial) fun _ _ => trivial
      exact hactivated.choose_spec.exact

theorem exact_after (h : session.contexts.Exact) (operation : Operation α) :
    (session.after operation).contexts.Exact := by
  have hunwound := fun now => (attended_unwindAll session now (passes_true now) (fun _ => trivial)
    session.contexts.handles h (attended_true _)).1.resetLast
  have houtlasts : Outlasts session ContextTable.Exact :=
    { here := h
      paused := fun now => (h.mapLive (·.pause now) fun _ => rfl).1
      resumed := fun now => (h.mapLive (·.resume now) fun _ => rfl).1
      unwound := hunwound
      unwoundFolded := fun now => (hunwound now).foldFibers
      recorded := exact_handle h
      folded := fun _ => h.foldFibers
      released := exact_releaseAll }
  exact houtlasts.after operation

theorem exact_loaded (h : session.contexts.Exact) {loaded : Session α}
    (hload : ofDump session.dump = .ok loaded) : loaded.contexts.Exact := by
  obtain ⟨-, contexts, hcontexts, rfl⟩ := ofDump_eq_ok.mp hload
  have hkeys : contexts.map (·.key) =
      session.dump.contexts.map fun dumped => ⟨dumped.thread, dumped.fiber⟩ := by
    refine map_of_mapM (fun {dumped loaded} hok => ?_) hcontexts
    obtain ⟨profile, -, rfl⟩ := DumpedContext.toContext_eq_ok.mp hok
    rfl
  have hnodup : (contexts.map (·.key)).Nodup := by
    rw [hkeys]
    show (List.map _ (session.threads.map fun entry => DumpedContext.ofContext entry.2)).Nodup
    rw [List.map_map]
    exact List.pairwise_map.mpr (h.pairwise_live.filter _)
  exact exact_empty.foldl_insert hnodup fun _ _ => rfl

/-- In every session that can come about a key leads to the handle of its context. -/
theorem Reachable.exact {dumps : Phase → Prop} (h : Reachable dumps session) :
    session.contexts.Exact := by
  induction h with
  | @made config session hmade =>
      unfold ofConfig at hmade
      split at hmade
      · cases hmade
        exact exact_empty
      · cases hmade
  | after _ operation ih => exact exact_after ih operation
  | loaded _ _ hload ih => exact exact_loaded ih hload

end Session

end CallLedger
