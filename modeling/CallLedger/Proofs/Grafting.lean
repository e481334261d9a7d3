import CallLedger.Proofs.Nesting
import CallLedger.Proofs.Ways
import CallLedger.Proofs.Endings

/-!
# Adding a subtree to a node

Any node of one profile may be given to any node of another one. They have to stand for the same
call: the same method, called by the same method or by none. Who called the callers does not
matter, so the two may be at different paths. When they do not correspond nothing happens, and
otherwise the profiles are added up along every way down from the two nodes
(`Built.mergeNode_adds`).

Below the node the descent finds its way as in any merge. What is new is that something is left
alone, all that is not below the node: a step changes the node where something belongs, or files a
copy under its parent, and of both the path goes on from that of the node (`Steps.outside`).

The profiles are those that recording and merging bring about, in any number of sessions and in any
order (`Built`). They are sound, and nothing else is asked of them. Whatever comes of a merge that
ends is one of them again (`Built.searched`).

Profiles can be merged back and forth until their counts no longer fit in 64 bits. They add up as
long as what comes out fits.
-/

namespace CallLedger.Profile

variable {α : Type} [Amount α] {profile other after : Profile α}

/-! ## What is left alone -/

theorem Sound.steps_mergeNode (hs : profile.Sound) (ho : other.Sound) {target source : Nat}
    (h : profile.corresponds other target source = true) {held : NodeId → Bool}
    (htells : Tells (other.grafted (other.path source) (profile.path target)) profile held
      (other.tree.walk source)) :
    Steps (other.grafted (other.path source) (profile.path target)) other profile
      (profile.mergeNode other target source).1 (other.tree.mergeOrder held source) := by
  obtain ⟨htarget, hsource, -⟩ := (hs.corresponds_iff ho).mp h
  rw [mergeNode, if_pos h]
  refine ho.steps_addWithin hs hsource (Nat.le_add_right _ _) (List.suffix_refl _) htarget ?_ htells
  exact (grafted_eq (List.nil_append _).symm).symm

theorem Sound.intake_mergeNode (hs : profile.Sound) (ho : other.Sound) {target source : Nat}
    (h : profile.corresponds other target source = true) :
    Intake (other.grafted (other.path source) (profile.path target)) other profile
      (profile.mergeNode other target source).1 (other.tree.walk source) := by
  obtain ⟨held, htells⟩ := exists_tells (other.grafted (other.path source) (profile.path target))
    profile (other.tree.walk source)
  obtain ⟨-, hsource, -⟩ := (hs.corresponds_iff ho).mp h
  exact ⟨_, ho.tree.branching.mergeOrder_perm held hsource, hs.steps_mergeNode ho h htells⟩

theorem Sound.mergeNode (hs : profile.Sound) (ho : other.Sound) (target source : NodeId) :
    (profile.mergeNode other target source).1.Sound := by
  cases h : profile.corresponds other target source with
  | true => exact (hs.intake_mergeNode ho h).gains.sound
  | false =>
      rw [Profile.mergeNode, if_neg (Bool.eq_false_iff.mp h)]
      exact hs

/-! ## Profiles that come about -/

/-- The profiles that recording and merging bring about. -/
inductive Built : Profile α → Prop
  | recorded {dumps : Phase → Prop} {session : Session α} (h : Session.Reachable dumps session)
      {handle : Nat} {context : Context α} (hget : session.contexts.get? handle = some context) :
      Built context.profile
  | mergedNode {profile other : Profile α} (h : Built profile) (ho : Built other)
      (target source : NodeId) : Built (profile.mergeNode other target source).1
  | mergedTree {profile other : Profile α} (h : Built profile) (ho : Built other) :
      Built (profile.mergeTree other)
  | merged {profile other : Profile α} (h : Built profile) (ho : Built other) :
      Built (profile.merge other)

theorem Built.sound (h : Built profile) : profile.Sound := by
  induction h with
  | recorded h hget =>
      obtain ⟨excluded, hlawful⟩ := h.nested
      exact (hlawful.contexts _ _ hget).orderly.sound
  | mergedNode _ _ target source ih iho => exact ih.mergeNode iho target source
  | mergedTree _ _ ih iho => exact (iho.intake_mergeTree ih).gains.sound
  | merged _ _ ih iho => exact ih.merge iho

/-- Merges that end lead from such profiles to such profiles. -/
theorem Built.searched (h : Built profile) (ho : Built other) :
    (∀ {target source : NodeId} {merged : Bool},
      Searching.mergeNode profile other target source = some (after, merged) → Built after) ∧
    (Searching.mergeTree profile other = some after → Built after) ∧
    (Searching.merge profile other = some after → Built after) := by
  refine ⟨fun {target source merged} hends => ?_, fun hends => ?_, fun hends => ?_⟩
  · have hcomes := Searching.comesTo_mergeNode profile other target source _ hends
    obtain rfl := congrArg Prod.fst hcomes
    exact .mergedNode h ho target source
  · exact Searching.comesTo_mergeTree profile other _ hends ▸ .mergedTree h ho
  · exact Searching.comesTo_merge profile other _ hends ▸ .merged h ho

/-! ## Adding up -/

section Along

variable {target source : Nat}

/-- Afterwards a way leads somewhere when it did so in one of the two profiles. -/
theorem Gains.follow?_isSome_iff (hs : profile.Sound) (ho : other.Sound)
    (htarget : target < profile.tree.size) (hsource : source < other.tree.size)
    (h : Gains (other.grafted (other.path source) (profile.path target)) other profile after
      (other.tree.walk source)) (way : List Method) :
    (after.follow? target way).isSome ↔
      (profile.follow? target way).isSome ∨ (other.follow? source way).isSome := by
  rw [h.sound.follow?_isSome_iff (Nat.lt_of_lt_of_le htarget h.grows.size_le),
    h.grows.path_eq hs h.sound htarget, h.paths, hs.follow?_isSome_iff htarget]
  refine or_congr_right ?_
  rw [Option.isSome_iff_exists]
  constructor
  · rintro ⟨x, hx, hplace⟩
    exact ⟨x, (ho.grafted_eq_iff hsource hx _ way).mp hplace⟩
  · rintro ⟨x, hx⟩
    have hwalk := ho.mem_walk_of_follow hsource hx
    exact ⟨x, hwalk, (ho.grafted_eq_iff hsource hwalk _ way).mpr hx⟩

end Along

section Exact

variable {α : Type} [ExactAmount α] {profile other after : Profile α} {target source : Nat}

omit [ExactAmount α] in
/-- Two values are added when both are there, and each stands for itself when it is alone. -/
theorem eq_merge_of_getD {M : Type} [AddMonoid M] {whole mine theirs : Option M}
    (hsome : whole.isSome ↔ mine.isSome ∨ theirs.isSome)
    (hsum : whole.getD 0 = mine.getD 0 + theirs.getD 0) :
    whole = Option.merge (· + ·) mine theirs := by
  cases whole <;> cases mine <;> cases theirs <;> simp_all

theorem Intake.costAlong?_eq (hs : profile.Sound) (ho : other.Sound)
    (htarget : target < profile.tree.size) (hsource : source < other.tree.size)
    (h : Intake (other.grafted (other.path source) (profile.path target)) other profile after
      (other.tree.walk source)) (way : List Method) :
    after.costAlong? target way =
      Option.merge (· + ·) (profile.costAlong? target way) (other.costAlong? source way) := by
  have hgains := h.gains
  have hafter := Nat.lt_of_lt_of_le htarget hgains.grows.size_le
  refine eq_merge_of_getD ?_ ?_
  · rw [hgains.sound.costAlong?_eq hafter, hs.costAlong?_eq htarget, ho.costAlong?_eq hsource,
      Option.isSome_map, Option.isSome_map, Option.isSome_map]
    exact hgains.follow?_isSome_iff hs ho htarget hsource way
  · rw [← hgains.sound.ledger_along hafter, h.ledger, hgains.grows.path_eq hs hgains.sound htarget,
      Finsupp.add_apply, hs.ledger_along htarget, ho.costsOf_along hsource]

end Exact

end CallLedger.Profile
