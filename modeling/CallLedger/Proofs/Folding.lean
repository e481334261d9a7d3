import CallLedger.Proofs.Books
import CallLedger.Proofs.Endings
import CallLedger.Proofs.Handles
import CallLedger.Proofs.Pathwise

/-!
# Folding fibers

Folding the fibers of a thread touches the contexts of that thread and no
others, so the threads can be looked at one by one, in the table as it was
before the first of them was folded (`within_foldFibers`). Of each thread there is
one context left, the one with the lowest fiber. Its profile is the sum of all
profiles of the thread, which is where merging profiles comes in, and folding
again finds single fibers only and changes nothing.

All this is what folding comes to when its searches end and its counts fit.
They end where the candidates of the methods differ for long enough, and folding
again needs none.
-/

namespace CallLedger

theorem nodup_eraseDups {γ : Type} [BEq γ] [LawfulBEq γ] (members : List γ) :
    members.eraseDups.Nodup := by
  generalize hlength : members.length = length
  induction length using Nat.strongRecOn generalizing members with
  | ind length ih =>
      cases members with
      | nil => exact List.nodup_nil
      | cons first rest =>
          rw [List.eraseDups_cons, List.nodup_cons]
          refine ⟨fun hmem => ?_, ih _ ?_ _ rfl⟩
          · have hne := (List.mem_filter.mp (List.mem_eraseDups.mp hmem)).2
            simp at hne
          · rw [← hlength]
            exact Nat.lt_succ_of_le (List.length_filter_le _ _)

theorem ContextKey.eq_of {a b : ContextKey} (hthread : a.thread = b.thread)
    (hfiber : a.fiber = b.fiber) : a = b := by
  obtain ⟨_, _⟩ := a
  obtain ⟨_, _⟩ := b
  cases hthread
  cases hfiber
  rfl

namespace ContextTable

variable {α : Type} {table after : ContextTable α} {thread : UInt64}

/-! ## The contexts of one thread -/

/-- What a handle leads to as far as one thread is concerned. -/
def within (table : ContextTable α) (thread : UInt64) (handle : Handle) : Option (Context α) :=
  (table.get? handle).filter (·.key.thread = thread)

theorem within_eq_some {handle : Nat} {context : Context α} :
    table.within thread handle = some context ↔
      table.get? handle = some context ∧ context.key.thread = thread := by
  rw [within, Option.filter_eq_some_iff, decide_eq_true_eq]

theorem mem_fibers {handle : Nat} {context : Context α} :
    (handle, context) ∈ table.fibers thread ↔ table.within thread handle = some context := by
  rw [fibers, List.mem_mergeSort, List.mem_filter, mem_live, within_eq_some, decide_eq_true_eq]

/-- The fibers of a thread are what one sees of it. -/
theorem fibers_congr (hsize : after.slots.size = table.slots.size)
    (hwithin : ∀ handle : Nat, after.within thread handle = table.within thread handle) :
    after.fibers thread = table.fibers thread := by
  have hfiltered : ∀ table : ContextTable α,
      (table.live.filter fun entry => entry.2.key.thread = thread) =
        (List.range table.slots.size).filterMap fun handle =>
          (table.within thread handle).map fun context => (handle, context) := by
    intro table
    rw [live, List.filter_filterMap]
    refine List.filterMap_congr fun handle _ => ?_
    rw [within]
    cases table.get? handle with
    | none => rfl
    | some context =>
        rw [Option.map_some, Option.filter_some, Option.filter_some]
        split <;> rfl
  unfold fibers
  rw [hfiltered, hfiltered, hsize]
  simp only [hwithin]

theorem nodup_fibers (table : ContextTable α) (thread : UInt64) :
    ((table.fibers thread).map (·.1)).Nodup := by
  unfold fibers
  rw [((List.mergeSort_perm _ _).map _).nodup_iff]
  exact table.nodup_live.sublist (List.filter_sublist.map _)

/-- The fibers of a thread in the order of their numbers. -/
theorem Exact.pairwise_fibers (h : table.Exact) (thread : UInt64) :
    (table.fibers thread).Pairwise fun a b => a.2.key.fiber < b.2.key.fiber := by
  have hsorted : (table.fibers thread).Pairwise fun a b =>
      decide (a.2.key.fiber ≤ b.2.key.fiber) = true := by
    refine List.pairwise_mergeSort (fun a b c hab hbc => ?_) (fun a b => ?_) _
    · exact decide_eq_true (UInt64.le_trans (of_decide_eq_true hab) (of_decide_eq_true hbc))
    · rw [Bool.or_eq_true, decide_eq_true_eq, decide_eq_true_eq]
      exact UInt64.le_total _ _
  refine ((List.pairwise_map.mp (table.nodup_fibers thread)).and hsorted).imp_of_mem
    fun {a b} ha hb hab => ?_
  obtain ⟨hne, hle⟩ := hab
  obtain ⟨hgetA, hthreadA⟩ := within_eq_some.mp (mem_fibers.mp ha)
  obtain ⟨hgetB, hthreadB⟩ := within_eq_some.mp (mem_fibers.mp hb)
  refine UInt64.lt_of_le_of_ne (of_decide_eq_true hle) fun hfiber => hne ?_
  exact h.unique hgetB hgetA (ContextKey.eq_of (hthreadA.trans hthreadB.symm) hfiber)

/-! ## Folding one thread -/

theorem size_release (table : ContextTable α) (handle : Handle) :
    (table.release handle).slots.size = table.slots.size := by
  unfold release
  cases table.get? handle with
  | none => rfl
  | some context => exact Array.size_modify

theorem foldl_release : ∀ (entries : List (Handle × Context α)) (table : ContextTable α),
    (entries.foldl (fun table entry => table.release entry.1) table).slots.size =
        table.slots.size ∧
      ∀ handle : Nat, (entries.foldl (fun table entry => table.release entry.1) table).get? handle =
        if handle ∈ entries.map (·.1) then none else table.get? handle := by
  intro entries
  induction entries with
  | nil => intro table; exact ⟨rfl, fun _ => rfl⟩
  | cons entry entries ih =>
      intro table
      obtain ⟨hsize, hget⟩ := ih (table.release entry.1)
      refine ⟨hsize.trans (size_release table entry.1), fun handle => ?_⟩
      rw [List.foldl_cons, hget, get?_release, List.map_cons]
      by_cases hlater : handle ∈ entries.map (·.1)
      · rw [if_pos hlater, if_pos (List.mem_cons_of_mem _ hlater)]
      · rw [if_neg hlater]
        by_cases hhere : entry.1 = handle
        · rw [if_pos hhere, if_pos (hhere ▸ List.mem_cons_self)]
        · rw [if_neg hhere, if_neg]
          rintro (_ | ⟨_, hmem⟩)
          · exact hhere rfl
          · exact hlater hmem

variable [Amount α]

/-- What folding makes of the fibers of a thread: all of them in the place of the first. -/
def folded (fibers : List (Handle × Context α)) : List (Handle × Context α) :=
  match fibers with
  | [] => []
  | (first, context) :: others =>
    [(first, others.foldl (fun context other => context.merge other.2) context)]

theorem size_foldThread (table : ContextTable α) (thread : UInt64) :
    (table.foldThread thread).slots.size = table.slots.size := by
  unfold foldThread
  split
  · rfl
  · exact Array.size_modify.trans (foldl_release _ _).1

theorem size_foldFibers (table : ContextTable α) :
    table.foldFibers.slots.size = table.slots.size := by
  unfold foldFibers
  generalize table.threads = threads
  induction threads generalizing table with
  | nil => rfl
  | cons thread threads ih => exact (ih (table.foldThread thread)).trans (size_foldThread _ _)

theorem get?_foldThread {first : Nat} {context : Context α} {others : List (Handle × Context α)}
    (hfibers : table.fibers thread = (first, context) :: others) (handle : Nat) :
    (table.foldThread thread).get? handle =
      if handle = first then
        some (others.foldl (fun context other => context.merge other.2) context)
      else if handle ∈ others.map (·.1) then none else table.get? handle := by
  have hnodup := table.nodup_fibers thread
  rw [hfibers, List.map_cons, List.nodup_cons] at hnodup
  obtain ⟨hget, -⟩ := within_eq_some.mp (mem_fibers.mp (hfibers ▸ List.mem_cons_self))
  unfold foldThread
  rw [hfibers]
  show ((others.foldl (fun table other => table.release other.1) table).modify first _).get?
    handle = _
  rw [get?_modify, (foldl_release others table).2]
  by_cases hhere : handle = first
  · rw [if_pos hhere.symm, if_pos hhere, hhere, if_neg hnodup.1, hget]
    rfl
  · rw [if_neg fun heq => hhere heq.symm, if_neg hhere]

/-- Folding a thread leaves the contexts of other threads alone. -/
theorem get?_foldThread_other {handle : Nat} {context : Context α}
    (hget : table.get? handle = some context) (hthread : context.key.thread ≠ thread) :
    (table.foldThread thread).get? handle = some context := by
  cases hfibers : table.fibers thread with
  | nil =>
      unfold foldThread
      rw [hfibers]
      exact hget
  | cons first others =>
      obtain ⟨first, lowest⟩ := first
      have hnone : ∀ entry ∈ (first, lowest) :: others, entry.1 ≠ handle := by
        rintro ⟨other, found⟩ hentry rfl
        obtain ⟨hfound, hsame⟩ := within_eq_some.mp (mem_fibers.mp (hfibers ▸ hentry))
        rw [hget] at hfound
        cases hfound
        exact hthread hsame
      rw [get?_foldThread hfibers, if_neg fun heq => hnone _ List.mem_cons_self heq.symm, if_neg,
        hget]
      rintro hmem
      obtain ⟨entry, hentry, heq⟩ := List.mem_map.mp hmem
      exact hnone entry (List.mem_cons_of_mem _ hentry) heq

theorem within_foldThread (table : ContextTable α) (thread : UInt64) (handle : Nat)
    (context : Context α) : (table.foldThread thread).within thread handle = some context ↔
      (handle, context) ∈ folded (table.fibers thread) := by
  cases hfibers : table.fibers thread with
  | nil =>
      unfold foldThread
      rw [hfibers, ← mem_fibers, hfibers]
      rfl
  | cons first others =>
      obtain ⟨first, lowest⟩ := first
      obtain ⟨-, hlowest⟩ := within_eq_some.mp (mem_fibers.mp (hfibers ▸ List.mem_cons_self))
      rw [within_eq_some, get?_foldThread hfibers, folded, List.mem_singleton, Prod.mk.injEq]
      by_cases hhere : handle = first
      · rw [if_pos hhere, Option.some.injEq]
        constructor
        · rintro ⟨rfl, -⟩
          exact ⟨hhere, rfl⟩
        · rintro ⟨-, rfl⟩
          refine ⟨rfl, ?_⟩
          rw [foldl_merge_eq]
          exact hlowest
      · rw [if_neg hhere]
        refine iff_of_false ?_ fun heq => hhere heq.1
        rintro ⟨hget, hthread⟩
        split at hget
        · cases hget
        · next hnone =>
            have hmem := mem_fibers.mpr (within_eq_some.mpr ⟨hget, hthread⟩)
            rw [hfibers] at hmem
            rcases List.mem_cons.mp hmem with heq | hother
            · exact hhere (congrArg Prod.fst heq)
            · exact hnone (List.mem_map_of_mem hother)

theorem within_foldThread_other {other : UInt64} (hne : other ≠ thread) (handle : Nat) :
    (table.foldThread thread).within other handle = table.within other handle := by
  refine Option.ext fun context => ?_
  rw [within_eq_some, within_eq_some]
  constructor
  · rintro ⟨hget, rfl⟩
    cases hfibers : table.fibers thread with
    | nil =>
        unfold foldThread at hget
        rw [hfibers] at hget
        exact ⟨hget, rfl⟩
    | cons first others =>
        obtain ⟨first, lowest⟩ := first
        obtain ⟨-, hlowest⟩ := within_eq_some.mp (mem_fibers.mp (hfibers ▸ List.mem_cons_self))
        rw [get?_foldThread hfibers] at hget
        split at hget
        · cases hget
          refine absurd ?_ hne
          rw [foldl_merge_eq]
          exact hlowest
        · split at hget
          · cases hget
          · exact ⟨hget, rfl⟩
  · rintro ⟨hget, rfl⟩
    exact ⟨get?_foldThread_other hget hne, rfl⟩

/-! ## Folding every thread -/

theorem within_foldl_foldThread : ∀ {threads : List UInt64} {table : ContextTable α},
    threads.Nodup → ∀ (thread : UInt64) (handle : Nat) (context : Context α),
      (threads.foldl foldThread table).within thread handle = some context ↔
        if thread ∈ threads then (handle, context) ∈ folded (table.fibers thread)
        else table.within thread handle = some context := by
  intro threads
  induction threads with
  | nil => intro table _ thread handle context; rfl
  | cons first threads ih =>
      intro table hnodup thread handle context
      obtain ⟨hfirst, hrest⟩ := List.nodup_cons.mp hnodup
      rw [List.foldl_cons, ih hrest]
      by_cases heq : thread = first
      · subst heq
        rw [if_neg hfirst, if_pos List.mem_cons_self]
        exact within_foldThread table thread handle context
      · have hsame : ∀ handle : Nat,
            (table.foldThread first).within thread handle = table.within thread handle :=
          fun handle => within_foldThread_other heq handle
        rw [fibers_congr (size_foldThread table first) hsame, hsame]
        simp only [List.mem_cons, heq, false_or]

/-- Every thread is folded as if it were the only one. -/
theorem within_foldFibers (thread : UInt64) (handle : Nat) (context : Context α) :
    table.foldFibers.within thread handle = some context ↔
      (handle, context) ∈ folded (table.fibers thread) := by
  have hthreads : thread ∈ table.threads ↔ ∃ entry, entry ∈ table.fibers thread := by
    rw [threads, List.mem_eraseDups, List.mem_map]
    refine exists_congr fun entry => ?_
    rw [fibers, List.mem_mergeSort, List.mem_filter, decide_eq_true_eq]
  have hnodup : table.threads.Nodup := nodup_eraseDups _
  rw [foldFibers, within_foldl_foldThread hnodup]
  split
  · rfl
  · next hnone =>
      have hempty : table.fibers thread = [] := by
        refine List.eq_nil_iff_forall_not_mem.mpr fun entry hentry => hnone ?_
        exact hthreads.mpr ⟨entry, hentry⟩
      rw [← mem_fibers, hempty]
      rfl

/-- A context that is left has been there under its handle. -/
theorem get?_of_foldFibers {handle : Nat} {context : Context α}
    (h : table.foldFibers.get? handle = some context) :
    ∃ before, table.get? handle = some before ∧ before.key = context.key := by
  have hmem := (within_foldFibers context.key.thread handle context).mp
    (within_eq_some.mpr ⟨h, rfl⟩)
  cases hfibers : table.fibers context.key.thread with
  | nil =>
      rw [hfibers] at hmem
      cases hmem
  | cons first others =>
      obtain ⟨first, lowest⟩ := first
      rw [hfibers, folded, List.mem_singleton, Prod.mk.injEq] at hmem
      obtain ⟨rfl, rfl⟩ := hmem
      refine ⟨lowest, (within_eq_some.mp (mem_fibers.mp (hfibers ▸ List.mem_cons_self))).1, ?_⟩
      rw [foldl_merge_eq]

theorem fibers_foldFibers (table : ContextTable α) (thread : UInt64) :
    table.foldFibers.fibers thread = folded (table.fibers thread) := by
  have hmem : ∀ entry, entry ∈ table.foldFibers.fibers thread ↔
      entry ∈ folded (table.fibers thread) := fun ⟨handle, context⟩ =>
    mem_fibers.trans (within_foldFibers thread handle context)
  have hnodup := (table.foldFibers.nodup_fibers thread).of_map
  cases hfibers : table.fibers thread with
  | nil =>
      rw [hfibers] at hmem
      exact List.eq_nil_iff_forall_not_mem.mpr fun entry hentry =>
        List.not_mem_nil ((hmem entry).mp hentry)
  | cons first others =>
      rw [hfibers] at hmem
      refine List.perm_singleton.mp ((List.perm_ext_iff_of_nodup hnodup ?_).mpr hmem)
      exact List.nodup_singleton _

/-- It takes no search to fold threads of single fibers. -/
theorem search_foldFibers_single (hsingle : ∀ thread : UInt64, (table.fibers thread).length ≤ 1) :
    Searching.foldFibers table = some table := by
  have hthread : ∀ thread : UInt64, Searching.foldThread table thread = some table := by
    intro thread
    unfold Searching.foldThread
    cases hfibers : table.fibers thread with
    | nil => rfl
    | cons lowest others =>
        obtain ⟨first, lowest⟩ := lowest
        obtain ⟨hget, -⟩ := within_eq_some.mp (mem_fibers.mp (hfibers ▸ List.mem_cons_self))
        have hlength := hsingle thread
        rw [hfibers, List.length_cons] at hlength
        obtain rfl : others = [] := List.eq_nil_of_length_eq_zero (by omega)
        simp only [Searching.modify, List.foldl_nil, hget]
        refine congrArg some ((modify_congr fun found hfound => ?_).trans (modify_self table first))
        exact Option.some.inj (hget.symm.trans hfound)
  unfold Searching.foldFibers
  generalize table.threads = threads
  induction threads with
  | nil => rfl
  | cons thread threads ih =>
      rw [List.foldlM_cons, hthread]
      exact ih

theorem length_fibers_foldFibers (table : ContextTable α) (thread : UInt64) :
    (table.foldFibers.fibers thread).length ≤ 1 := by
  rw [fibers_foldFibers]
  cases table.fibers thread with
  | nil => exact Nat.zero_le _
  | cons first others => exact Nat.le_refl _

end ContextTable

/-! ## Merging the fibers of a session -/

namespace Session

open ContextTable

variable {α : Type} [ExactAmount α] {session : Session α}

/-- How the contexts of a thread come out of a merge, in the order of their fibers. -/
structure ThreadMerged (session folded : Session α) (thread : UInt64) (first : Handle)
    (context : Context α) (others : List (Handle × Context α)) : Prop where
  former : ∀ (handle : Handle) (found : Context α),
    (handle, found) ∈ (first, context) :: others ↔
      session.contexts.get? handle = some found ∧ found.key.thread = thread
  ascending : ((first, context) :: others).Pairwise fun a b => a.2.key.fiber < b.2.key.fiber
  /-- The lowest fiber keeps its handle and takes everything in, as far as counts can be added
  up. -/
  merged : ∃ profile, folded.thread first = .ok { context with profile := profile } ∧
    (profile.CountsFit → Profile.SumOf (context.profile :: others.map (·.2.profile)) profile)
  freed : ∀ other ∈ others, folded.thread other.1 = .error .alreadyFreed
  only : ∀ (handle : Handle) (found : Context α), folded.contexts.get? handle = some found →
    found.key.thread = thread → handle = first
  /-- A thread with one context stays as it is. -/
  alone : others = [] → folded.thread first = .ok context

theorem threadMerged (hexact : session.contexts.Exact) {exclusions : Exclusions}
    (hmergeable : session.contexts.Everywhere fun _ context =>
      context.profile.Mergeable exclusions) {first : Nat} {context : Context α}
    {others : List (Handle × Context α)} {thread : UInt64}
    (hfibers : session.contexts.fibers thread = (first, context) :: others) :
    ThreadMerged session { session with contexts := session.contexts.foldFibers } thread first
      context others := by
  have hformer : ∀ (handle : Handle) (other : Context α),
      (handle, other) ∈ (first, context) :: others ↔
        session.contexts.get? handle = some other ∧ other.key.thread = thread := by
    intro handle other
    rw [← hfibers, mem_fibers, within_eq_some]
  have hlater : ∀ (handle : Handle) (other : Context α),
      session.contexts.foldFibers.get? handle = some other → other.key.thread = thread →
        handle = first := by
    intro handle other hget hthread
    have hmem := (within_foldFibers thread handle other).mp (within_eq_some.mpr ⟨hget, hthread⟩)
    rw [hfibers] at hmem
    exact congrArg Prod.fst (List.mem_singleton.mp hmem)
  have hown : session.contexts.foldFibers.get? first =
      some (others.foldl (fun context other => context.merge other.2) context) := by
    refine (within_eq_some.mp ((within_foldFibers thread first _).mpr ?_)).1
    rw [hfibers]
    exact List.mem_cons_self
  have hgood : ∀ entry ∈ (first, context) :: others, entry.2.profile.Mergeable exclusions :=
    fun entry hentry => hmergeable _ _ ((hformer entry.1 entry.2).mp hentry).1
  have hfirst := hgood _ List.mem_cons_self
  have hrest : ∀ other ∈ others.map (·.2.profile), other.Mergeable exclusions := by
    intro other hother
    obtain ⟨entry, hentry, rfl⟩ := List.mem_map.mp hother
    exact hgood entry (List.mem_cons_of_mem _ hentry)
  refine ⟨hformer, hfibers ▸ hexact.pairwise_fibers thread, ⟨_, ?_,
    fun _ => hfirst.sumOf_foldl hrest hfirst.accounted.sound.sumOf_self⟩, ?_, hlater, ?_⟩
  · rw [foldl_merge_eq] at hown
    unfold Session.thread
    rw [hown]
  · rintro ⟨other, left⟩ hother
    obtain ⟨hleft, hthread⟩ := (hformer other left).mp (List.mem_cons_of_mem _ hother)
    have hnone : session.contexts.foldFibers.get? other = none := by
      refine Option.eq_none_iff_forall_ne_some.mpr fun found hfound => ?_
      obtain ⟨before, hbefore, hkey⟩ := get?_of_foldFibers hfound
      rw [hleft] at hbefore
      cases hbefore
      have hnodup := session.contexts.nodup_fibers thread
      rw [hfibers, List.map_cons, List.nodup_cons] at hnodup
      obtain rfl := hlater other found hfound (hkey ▸ hthread)
      exact hnodup.1 (List.mem_map.mpr ⟨_, hother, rfl⟩)
    unfold Session.thread
    rw [hnone]
  · rintro rfl
    unfold Session.thread
    rw [hown]
    rfl

/-- Outside a run the fibers of every thread can be merged into the lowest one, if merging ends, and
it does where the candidates of the methods differ for long enough. The lowest fiber then holds the
sum of all profiles of its thread, provided that the counts in it fit; nothing else is changed, and
merging again changes nothing. -/
theorem Reachable.fibers_merged {dumps : Phase → Prop} (h : Reachable dumps session)
    (hphase : session.phase.isActive = false) :
    (Key.Spread (session.contexts.live.flatMap fun entry =>
        entry.2.profile.methods.identities) →
      ∃ outcome, Searching.mergeFibers session = some outcome) ∧
    ∀ outcome, Searching.mergeFibers session = some outcome →
      ∃ folded, outcome = .ok folded ∧
      Searching.mergeFibers folded = some (.ok folded) ∧
      folded = { session with contexts := folded.contexts } ∧
      (∀ (handle : Handle) (context : Context α),
        folded.contexts.get? handle = some context →
          ∃ before, session.contexts.get? handle = some before ∧ before.key = context.key) ∧
      (∀ (thread : UInt64) (handle : Handle) (context : Context α),
        session.contexts.get? handle = some context → context.key.thread ≠ thread →
          (session.contexts.foldThread thread).get? handle = some context) ∧
      ∀ (handle : Handle) (context : Context α), session.contexts.get? handle = some context →
        ∃ first lowest others,
          ThreadMerged session folded context.key.thread first lowest others := by
  obtain ⟨excluded, hlawful⟩ := h.lawful Context.keptLaw (survives_kept _)
  have hmergeable : session.contexts.Everywhere fun _ context =>
      context.profile.Mergeable excluded := by
    intro handle context hget
    have haccounted := (hlawful.contexts _ _ hget).accounted
    rw [Context.openCalls_of_frames (hlawful.settled hphase _ _ hget)] at haccounted
    exact ⟨haccounted, (h.filed _ _ hget).profile⟩
  refine ⟨fun hspread => ?_, fun outcome hends => ?_⟩
  · have hwithin : session.contexts.Everywhere fun _ => Searching.Within
        (session.contexts.live.flatMap fun entry => entry.2.profile.methods.identities) := by
      intro handle context hget
      refine ⟨(hmergeable handle context hget).accounted.sound.methods, fun method hmethod => ?_⟩
      exact List.mem_flatMap.mpr ⟨(handle, context), mem_live.mpr hget, hmethod⟩
    obtain ⟨folded, hfolded, -⟩ := Searching.yields_foldFibers hspread hwithin
    exact ⟨.ok { session with contexts := folded }, by
      simp [Searching.mergeFibers, hphase, hfolded]⟩
  · obtain rfl := Searching.comesTo_mergeFibers session outcome hends
    refine ⟨{ session with contexts := session.contexts.foldFibers }, ?_, ?_, rfl, ?_, ?_, ?_⟩
    · simp [Session.mergeFibers, hphase]
    · simp [Searching.mergeFibers, hphase,
        search_foldFibers_single (length_fibers_foldFibers session.contexts)]
    · exact fun _ _ => get?_of_foldFibers
    · exact fun _ _ _ => get?_foldThread_other
    · intro handle context hget
      cases hfibers : session.contexts.fibers context.key.thread with
      | nil =>
          have hmem : (handle, context) ∈ session.contexts.fibers context.key.thread :=
            mem_fibers.mpr (within_eq_some.mpr ⟨hget, rfl⟩)
          rw [hfibers] at hmem
          cases hmem
      | cons lowest others =>
          obtain ⟨first, lowest⟩ := lowest
          exact ⟨first, lowest, others, threadMerged h.exact hmergeable hfibers⟩

/-- Counts fit after folding if they do whichever way the contexts of a thread are taken. -/
theorem countsFit_foldFibers
    (h : ∀ entry ∈ session.contexts.live,
      ∀ fibers ∈ (session.contexts.live.filter fun other =>
          other.2.key.thread = entry.2.key.thread).permutations',
        ∀ left ∈ folded fibers, left.2.profile.CountsFit) :
    ({ session with contexts := session.contexts.foldFibers } : Session α).CountsFit := by
  rintro ⟨handle, context⟩ hentry
  obtain ⟨before, hbefore, hkey⟩ := get?_of_foldFibers (mem_live.mp hentry)
  refine h _ (mem_live.mpr hbefore) (session.contexts.fibers before.key.thread)
    (List.mem_permutations'.mpr (List.mergeSort_perm _ _)) (handle, context) ?_
  exact (within_foldFibers _ _ _).mp (within_eq_some.mpr ⟨mem_live.mp hentry, hkey ▸ rfl⟩)

/-- Two fibers of one thread, of which the higher one came first, and another thread. -/
theorem fibers_merged_shared :
    ∃ session folded : Session Int, ∃ lowest others profile,
      (unconfigured : Session Int).run
        [.start 0,
          .event (((Event.call ⟨.owner .plain, "A"⟩ "f").on 1 5).sampled 10),
          .event (((Event.call ⟨.owner .plain, "A"⟩ "f").on 1 2).sampled 20),
          .event (((Event.call ⟨.owner .plain, "A"⟩ "g").on 1 2).sampled 25),
          .event (((Event.call ⟨.owner .plain, "A"⟩ "g").on 2 0).sampled 30),
          .stop 50] = session ∧
      (session.contexts.live.map fun entry => (entry.1, entry.2.key)) =
        [(0, ⟨1, 5⟩), (1, ⟨1, 2⟩), (2, ⟨2, 0⟩)] ∧
      session.phase.isActive = false ∧
      Key.Spread (session.contexts.live.flatMap fun entry =>
        entry.2.profile.methods.identities) ∧
      Searching.mergeFibers session = some (.ok folded) ∧
      Searching.mergeFibers folded = some (.ok folded) ∧
      ThreadMerged session folded 1 1 lowest others ∧
      folded.thread 1 = .ok { lowest with profile := profile } ∧ profile.CountsFit ∧
      Profile.SumOf (lowest.profile :: others.map (·.2.profile)) profile := by
  generalize hrun : Session.run (α := Int) _ _ = session
  have hlive : (session.contexts.live.map fun entry => (entry.1, entry.2.key)) =
      [(0, ⟨1, 5⟩), (1, ⟨1, 2⟩), (2, ⟨2, 0⟩)] := by
    rw [← hrun]
    decide +kernel
  have hphase : session.phase.isActive = false := by
    rw [← hrun]
    decide +kernel
  have hreachable : Reachable (fun _ => True) session :=
    hrun ▸ (reachable_unconfigured _).run _
  have hspread : Key.Spread (session.contexts.live.flatMap fun entry =>
      entry.2.profile.methods.identities) := by
    rw [← hrun]
    decide +kernel
  have hcounts :
      ({ session with contexts := session.contexts.foldFibers } : Session Int).CountsFit := by
    refine countsFit_foldFibers ?_
    rw [← hrun]
    decide +kernel
  obtain ⟨hends, hmerges⟩ := hreachable.fibers_merged hphase
  obtain ⟨outcome, hmerge⟩ := hends hspread
  obtain ⟨folded, rfl, hagain, -, -, -, hthreads⟩ := hmerges outcome hmerge
  have hfits : folded.CountsFit := by
    have hcomes := Searching.comesTo_mergeFibers session _ hmerge
    rw [Session.mergeFibers, hphase] at hcomes
    cases hcomes
    exact hcounts
  have hlower : (1, ⟨1, 2⟩) ∈ session.contexts.live.map fun entry => (entry.1, entry.2.key) := by
    rw [hlive]
    decide
  obtain ⟨⟨slot, context⟩, hcontext, hpair⟩ := List.mem_map.mp hlower
  obtain ⟨rfl, hkey⟩ := Prod.mk.inj hpair
  obtain ⟨first, lowest, others, hmerged⟩ := hthreads 1 context (mem_live.mp hcontext)
  rw [hkey] at hmerged
  have hfirst : first = 1 := by
    obtain ⟨hget, hthread⟩ := (hmerged.former first lowest).mp List.mem_cons_self
    have hhere := (hmerged.former 1 context).mpr ⟨mem_live.mp hcontext, by rw [hkey]⟩
    rcases List.mem_cons.mp hhere with heq | hlater
    · exact (congrArg Prod.fst heq).symm
    · -- no fiber of the thread is lower
      have hlt := (List.pairwise_cons.mp hmerged.ascending).1 _ hlater
      have hmem := List.mem_map_of_mem (f := fun entry => (entry.1, entry.2.key))
        (mem_live.mpr hget)
      rw [hlive] at hmem
      rw [hkey] at hlt
      generalize lowest.key = key at hlt hmem hthread
      simp only [List.mem_cons, Prod.mk.injEq, List.not_mem_nil, or_false] at hmem
      rcases hmem with ⟨-, rfl⟩ | ⟨-, rfl⟩ | ⟨-, rfl⟩
      · exact absurd hlt (by decide)
      · exact absurd hlt (by decide)
      · exact absurd hthread (by decide)
  subst hfirst
  obtain ⟨profile, hthread, hsum⟩ := hmerged.merged
  have hprofile : profile.CountsFit := hfits (1, _) (mem_live.mpr (thread_eq_ok.mp hthread))
  exact ⟨session, folded, lowest, others, profile, rfl, hlive, hphase, hspread, hmerge, hagain,
    hmerged, hthread, hprofile, hsum hprofile⟩

end Session

end CallLedger
