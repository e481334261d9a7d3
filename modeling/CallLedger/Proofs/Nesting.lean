import CallLedger.Proofs.Reloading
import CallLedger.Proofs.Leading
import CallLedger.Proofs.Reachable

/-!
# No node below its own method

A method that calls itself directly stays on its node, so no call path has a method twice in a
row (`Profile.Unstuttered`). A merge adds no paths but those of the other profile, and loading
a dump gives the paths back, so both keep this.

With the order of the accounts it makes a law of contexts (`Context.Nested`). Whatever happens to
a context under it, the context goes on: its nodes stay what they were made as
(`Context.Continued`). Nothing is asked of amounts.
-/

namespace CallLedger

variable {α : Type} {exclusions : Exclusions}

/-! ## Profiles -/

namespace Profile

variable {profile : Profile α}

/-- No call path has a method twice in a row. -/
def Unstuttered (profile : Profile α) : Prop :=
  ∀ path, profile.HasPath path → path.IsChain (· ≠ ·)

theorem unstuttered_empty [Amount α] : Unstuttered (empty : Profile α) :=
  fun _ ⟨_, hid, _⟩ => absurd hid (Nat.not_lt_zero _)

theorem Unstuttered.of_paths {after : Profile α} (h : profile.Unstuttered)
    (hpaths : ∀ path, after.HasPath path → profile.HasPath path) : after.Unstuttered :=
  fun path hpath => h path (hpaths path hpath)

/-- A node and its parent have different methods. -/
theorem Unstuttered.method_ne (h : profile.Unstuttered) (hs : profile.Sound) {id parent : Nat}
    {node above : Node α} (hnode : profile.tree.node? id = some node)
    (hparent : node.parent = some parent) (habove : profile.tree.node? parent = some above) :
    node.method ≠ above.method := by
  intro hsame
  obtain ⟨record, hrecord, -⟩ := hs.bound hnode
  have hpath := hs.path_eq hnode hrecord
  rw [hparent] at hpath
  change profile.path id = record.method :: profile.path parent at hpath
  rw [hs.path_eq habove (hsame ▸ hrecord)] at hpath
  have hchain := h _ ⟨id, CallTree.node?_lt hnode, hpath⟩
  exact (List.isChain_cons_cons.mp hchain).1 rfl

variable [Amount α]

/-- A node may be put under one of another method. -/
theorem Unstuttered.attach (h : profile.Unstuttered) (hs : profile.Sound)
    {parent : Option NodeId} {method : Nat} {record : MethodRecord α} (site : CallSite)
    (hrecord : profile.methods.record? method = some record)
    (hparent : profile.HasParent parent)
    (hnew : profile.tree.childOf? parent record.key = none)
    (hother : ∀ p : Nat, parent = some p → profile.methodOf? p ≠ some method) :
    (profile.attach parent method site).Unstuttered := by
  intro path hpath
  rcases (hs.hasPath_attach site hrecord hparent hnew).mp hpath with hold | rfl
  · exact h path hold
  · cases parent with
    | none => exact List.isChain_singleton _
    | some p =>
        obtain ⟨above, found, habove, hfound, -, hcons⟩ := hs.exists_path_eq (hparent p rfl)
        have hchain := h _ ⟨p, hparent p rfl, hcons⟩
        show (record.method :: profile.path p).IsChain _
        rw [hcons]
        refine List.isChain_cons_cons.mpr ⟨fun hsame => hother p rfl ?_, hchain⟩
        rw [methodOf?_eq habove, hs.methods.method_inj hfound hrecord hsame.symm]

theorem Unstuttered.child (h : profile.Unstuttered) (hs : profile.Sound)
    {parent : Option NodeId} {method : Nat} {record : MethodRecord α} (site : CallSite)
    (hrecord : profile.methods.record? method = some record)
    (hparent : profile.HasParent parent)
    (hother : ∀ p : Nat, parent = some p → profile.methodOf? p ≠ some method) :
    (profile.child parent method site).1.Unstuttered := by
  rw [child_of_record hrecord]
  cases hchild : profile.tree.childOf? parent record.key with
  | some id => exact h
  | none => exact h.attach hs site hrecord hparent hchild hother

end Profile

/-! ## Contexts -/

namespace Context

variable {context : Context α}

/-- A context in good order whose call paths never stutter. -/
structure Nested (exclusions : Exclusions) (context : Context α) : Prop where
  orderly : context.Orderly exclusions
  unstuttered : context.profile.Unstuttered

/-- What a context with the law may become: one with the law, which has every node it had. -/
structure Continued (exclusions : Exclusions) (context later : Context α) : Prop where
  nested : later.Nested exclusions
  grows : context.profile.Grows later.profile

theorem Continued.trans {later last : Context α} (h : Continued exclusions context later)
    (hnext : Continued exclusions later last) : Continued exclusions context last :=
  ⟨hnext.nested, h.grows.trans hnext.grows⟩

theorem Nested.restacked (h : context.Nested exclusions) {stack : Stack α}
    (hcalls : stack.openCalls = context.stack.openCalls) :
    Continued exclusions context { context with stack := stack } :=
  ⟨⟨h.orderly.restacked hcalls, h.unstuttered⟩, Profile.Grows.refl _⟩

/-- Measuring and counting are nothing to the call paths. -/
theorem Nested.of_shape (h : context.Nested exclusions) {later : Context α}
    (horderly : later.Orderly exclusions)
    (hshape : context.profile.SameShape later.profile) : Continued exclusions context later := by
  refine ⟨⟨horderly, h.unstuttered.of_paths fun path hpath => ?_⟩, hshape.grows⟩
  exact (hshape.hasPath_iff h.orderly.sound).mp hpath

theorem Nested.allocated (h : context.Nested exclusions) (event : Event α) :
    Continued exclusions context (context.allocated event) := by
  refine h.of_shape (h.orderly.allocated event) ?_
  unfold Context.allocated
  split
  · split
    · exact Profile.sameShape_modifyMethod (fun _ => rfl) (fun _ => rfl) fun _ => rfl
    · exact Profile.SameShape.refl _
  · exact Profile.SameShape.refl _

variable [Amount α]

theorem nested_fresh (exclusions : Exclusions) (key : ContextKey) (traced : Bool)
    (capacity : Nat) : Nested exclusions (.fresh key traced capacity : Context α) :=
  ⟨orderly_fresh exclusions key traced capacity, Profile.unstuttered_empty⟩

theorem Nested.lookup (h : context.Nested exclusions) (event : Event α) (method : Method) :
    Continued exclusions context
      (context.knowing (context.lookup event method exclusions).1) := by
  obtain ⟨horderly, hgrows, -⟩ := h.orderly.lookup event method
  refine ⟨⟨horderly, h.unstuttered.of_paths fun path hpath => ?_⟩, hgrows⟩
  exact (hgrows.hasPath_iff_of_tree h.orderly.sound horderly.sound rfl).mp hpath

/-- A call leads to a child only when the caller has another method. -/
theorem Nested.unstuttered_enterNode (h : context.Nested exclusions) {method : Nat}
    {record : MethodRecord α} (hrecord : context.profile.methods.record? method = some record) :
    (context.enterNode method).1.Unstuttered := by
  rcases context.enterNode_cases method with
    ⟨top, -, -, heq⟩ | ⟨top, htop, hother, heq⟩ | ⟨-, heq⟩
  · rw [heq]
    exact h.unstuttered
  · rw [heq]
    refine h.unstuttered.child h.orderly.sound _ hrecord (h.orderly.hasParent_top htop) ?_
    rintro p hp
    cases hp
    rw [h.orderly.methodOf?_top htop]
    exact fun hsame => hother (Option.some.inj hsame)
  · obtain ⟨hmarked, hshape, hroot⟩ := h.orderly.marked hrecord
    rw [heq]
    refine (h.unstuttered.of_paths fun path hpath => ?_).child hmarked.sound _ hroot
      Profile.hasParent_none nofun
    exact (hshape.hasPath_iff h.orderly.sound).mp hpath

theorem Nested.openCall (h : context.Nested exclusions) {method : Nat} {record : MethodRecord α}
    (hrecord : context.profile.methods.record? method = some record)
    (hexcluded : record.excluded = false) (event : Event α) (paused : Bool) :
    Continued exclusions context (context.openCall method event paused) := by
  have hled := h.orderly.enterNode hrecord hexcluded
  have hprofile := (openCall_eq hled.method event paused).1
  have hshape : (context.enterNode method).1.SameShape
      (context.openCall method event paused).profile := by
    rw [hprofile]
    exact Profile.sameShape_enter _ _
  refine ⟨⟨h.orderly.openCall hrecord hexcluded event paused, ?_⟩,
    hled.grows.trans hshape.grows⟩
  refine (h.unstuttered_enterNode hrecord).of_paths fun path hpath => ?_
  exact (hshape.hasPath_iff hled.ordered.sound).mp hpath

theorem Nested.called (h : context.Nested exclusions) (event : Event α) (paused : Bool) :
    Continued exclusions context (context.called event exclusions paused) := by
  cases hmethod : event.method? with
  | none =>
      rw [called_of_unnamed hmethod]
      exact h.restacked context.openCalls_pass
  | some method =>
      have hknown := h.lookup event method
      obtain ⟨-, -, record, hrecord, -, hexcluded⟩ := h.orderly.lookup event method
      rw [h.orderly.called_eq hmethod]
      split
      · exact hknown.trans (hknown.nested.restacked context.openCalls_pass)
      · next hcounts =>
          refine hknown.trans (hknown.nested.openCall hrecord ?_ event paused)
          rw [hexcluded]
          exact Bool.eq_false_iff.mpr hcounts

theorem Nested.popped (h : context.Nested exclusions) (now : α) :
    Continued exclusions context (context.popped now) := by
  refine h.of_shape (h.orderly.popped now) ?_
  show context.profile.SameShape (context.stack.pop context.profile now).2.2
  rcases context.stack.pop_cases context.profile now with
    ⟨-, hprofile⟩ | ⟨call, below, selfTime, waitTime, totalTime, -, -, -, hprofile⟩
  · rw [hprofile]
    exact Profile.SameShape.refl _
  · rw [hprofile]
    exact Profile.sameShape_settle _ _ _ _ _

theorem Nested.merge {other : Context α} (h : context.Nested exclusions)
    (ho : other.Nested exclusions) (hframes : context.stack.frames = [])
    (hother : other.stack.frames = []) :
    Continued exclusions context (context.merge other) := by
  have hordered := h.orderly
  have hadded := ho.orderly
  unfold Orderly at hordered hadded
  rw [openCalls_of_frames hframes] at hordered
  rw [openCalls_of_frames hother] at hadded
  refine ⟨⟨?_, fun path hpath => ?_⟩, hordered.sound.grows_merge hadded.sound⟩
  · show (context.profile.merge other.profile).Ordered exclusions context.stack.openCalls
    rw [openCalls_of_frames hframes]
    exact hordered.merge hadded
  · rcases (hordered.sound.hasPath_merge hadded.sound path).mp hpath with hold | hnew
    · exact h.unstuttered path hold
    · exact ho.unstuttered path hnew

theorem nestedLaw (exclusions : Exclusions) :
    Law exclusions (Nested exclusions : Context α → Prop) where
  fresh := nested_fresh exclusions
  restacked h hcalls := (h.restacked hcalls).nested
  called event paused h := (h.called event paused).nested
  popped now h := (h.popped now).nested
  allocated event h := (h.allocated event).nested
  merge h ho hframes hother := (h.merge ho hframes hother).nested

/-- The context that a dump gives back. -/
theorem Nested.reloaded (h : context.Nested exclusions) {loaded : Context α}
    (hload : (DumpedContext.ofContext context).toContext = .ok loaded) :
    loaded.Nested exclusions ∧ loaded.stack.frames = [] := by
  obtain ⟨after, hafter, hintake⟩ := h.orderly.sound.reloaded
  unfold DumpedContext.toContext at hload
  rw [show Profile.ofDump (DumpedContext.ofContext context).methods
    (DumpedContext.ofContext context).nodes = .ok after from hafter] at hload
  cases hload
  have hordered := Profile.Ordered.of_reloaded h.orderly hintake
  refine ⟨⟨hordered, h.unstuttered.of_paths fun path hpath => ?_⟩, rfl⟩
  exact (hintake.hasPath_iff h.orderly.sound path).mp hpath

end Context

/-! ## Sessions -/

namespace Session

variable [Amount α] {session : Session α}

theorem survives_nested (dumps : Phase → Prop) :
    Survives (α := α) (fun exclusions context => context.Nested exclusions) dumps :=
  fun _ _ _ _ _ h _ hload => h.reloaded hload

theorem Reachable.nested {dumps : Phase → Prop} (h : Reachable dumps session) :
    ∃ excluded, Lawful (fun exclusions context => context.Nested exclusions) excluded session :=
  h.lawful Context.nestedLaw (survives_nested dumps)

end Session

end CallLedger
