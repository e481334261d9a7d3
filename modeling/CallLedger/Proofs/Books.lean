import CallLedger.Proofs.Merging
import CallLedger.Proofs.Reachable
import CallLedger.Proofs.Recording
import CallLedger.Proofs.Reloading

/-!
# The books of every context

The two laws that recording keeps, that records and nodes keep one account and
that no cost is lost at a node, are laws in the sense of `Context.Law`: they
hold of every context of every session that can come about. What a dump gives
back keeps the first one at any time. It keeps the second one when nothing was
open, for what open calls were credited with is not part of a dump.
-/

namespace CallLedger

variable {α : Type}

namespace Context

variable [ExactAmount α]

theorem keptLaw (exclusions : Exclusions) :
    Law exclusions (Kept exclusions : Context α → Prop) where
  fresh _ _ _ := ⟨Profile.accounted_empty, Profile.rooted_empty⟩
  restacked h heq := ⟨heq ▸ h.accounted, h.rooted⟩
  called event paused h := (h.called event paused).1
  popped now h := (h.popped now).1
  allocated event h := (h.allocated event).1
  merge {context other} h ho hframes hother := by
    have haccounted := h.accounted
    have hadded := ho.accounted
    rw [openCalls_of_frames hframes] at haccounted
    rw [openCalls_of_frames hother] at hadded
    have hmerged := haccounted.merged_merge hadded
    refine ⟨?_, hmerged.rooted h.rooted ho.rooted⟩
    show (context.profile.merge other.profile).Accounted exclusions context.stack.openCalls
    rw [openCalls_of_frames hframes]
    exact hmerged.accounted

theorem conservedLaw (exclusions : Exclusions) :
    Law exclusions fun context : Context α => context.Kept exclusions ∧ context.Conserved where
  fresh _ _ _ := ⟨⟨Profile.accounted_empty, Profile.rooted_empty⟩, Profile.conserved_empty⟩
  restacked {context stack} h heq := by
    refine ⟨(keptLaw exclusions).restacked h.1 heq, ?_⟩
    show context.profile.Conserved stack.openCalls
    rw [heq]
    exact h.2
  called event paused h := ⟨(h.1.called event paused).1, (h.1.called event paused).2 h.2⟩
  popped now h := ⟨(h.1.popped now).1, (h.1.popped now).2 h.2⟩
  allocated event h := ⟨(h.1.allocated event).1, (h.1.allocated event).2 h.2⟩
  merge {context other} h ho hframes hother := by
    refine ⟨(keptLaw exclusions).merge h.1 ho.1 hframes hother, ?_⟩
    have haccounted := h.1.accounted
    have hadded := ho.1.accounted
    have hconserved := h.2
    have hconservedOther := ho.2
    unfold Conserved at hconserved hconservedOther
    rw [openCalls_of_frames hframes] at haccounted hconserved
    rw [openCalls_of_frames hother] at hadded hconservedOther
    show (context.profile.merge other.profile).Conserved context.stack.openCalls
    rw [openCalls_of_frames hframes]
    exact (haccounted.merged_merge hadded).conserved hconserved hconservedOther

/-- The context that a dump gives back. -/
theorem Kept.reloaded {exclusions : Exclusions} {context loaded : Context α}
    (h : context.Kept exclusions)
    (hload : (DumpedContext.ofContext context).toContext = .ok loaded) :
    loaded.stack.frames = [] ∧
      Profile.Reloaded exclusions context.profile loaded.profile := by
  obtain ⟨after, hafter, hreloaded⟩ := h.accounted.reloaded_ofDump
  unfold DumpedContext.toContext at hload
  rw [show Profile.ofDump (DumpedContext.ofContext context).methods
    (DumpedContext.ofContext context).nodes = .ok after from hafter] at hload
  cases hload
  exact ⟨rfl, hreloaded⟩

end Context

namespace Session

variable [ExactAmount α]

theorem survives_kept (dumps : Phase → Prop) :
    Survives (α := α) (fun exclusions context => context.Kept exclusions) dumps := by
  intro phase exclusions context loaded _ h _ hload
  obtain ⟨hframes, hreloaded⟩ := h.reloaded hload
  refine ⟨⟨?_, fun method => ?_⟩, hframes⟩
  · rw [Context.openCalls_of_frames hframes]
    exact hreloaded.accounted
  · rw [hreloaded.roots, hreloaded.paths]
    exact h.rooted method

theorem survives_conserved {dumps : Phase → Prop}
    (hdumps : ∀ phase, dumps phase → phase.isActive = false) :
    Survives (α := α) (fun exclusions context => context.Kept exclusions ∧ context.Conserved)
      dumps := by
  intro phase exclusions context loaded hphase h hsettled hload
  obtain ⟨hkept, hframes⟩ := survives_kept dumps phase hphase h.1 hsettled hload
  obtain ⟨-, hreloaded⟩ := h.1.reloaded hload
  refine ⟨⟨hkept, ?_⟩, hframes⟩
  have hconserved := h.2
  unfold Context.Conserved at hconserved ⊢
  rw [Context.openCalls_of_frames (hsettled (hdumps phase hphase))] at hconserved
  rw [Context.openCalls_of_frames hframes]
  intro path hpath
  rw [hreloaded.ledger, hconserved path hpath]
  rfl

end Session

end CallLedger
