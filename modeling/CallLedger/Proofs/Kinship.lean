import CallLedger.Proofs.Leading
import CallLedger.Proofs.Twins

/-!
# Contexts that differ in hidden methods

Of two contexts one has seen the calls of excluded methods and calls without a name,
and the other one has not (`Context.Twin`). Their profiles are twins, and their frames
are the same but for method ids and passes, of which the second context has none. What
is recorded on both alike keeps them so, and so do a pass and the return that pays it
off, which only the first context sees.

At the end of a run the first context has more returns to go through than the second.
The additional ones pay off passes.
-/

namespace CallLedger

variable {α : Type}

/-! ## Frames -/

/-- A frame, whatever id its method goes by, that owes no pass. -/
def Frame.anonymous (frame : Frame α) : Frame α := { frame with method := 0, passes := 0 }

namespace Frame

/-- A frame without passes that is the same but for the id of its method. -/
structure Kin (frame twin : Frame α) : Prop where
  same : twin.anonymous = frame.anonymous
  paid : twin.passes = 0

theorem Kin.node_eq {frame twin : Frame α} (h : Kin frame twin) : twin.node = frame.node := by
  have hnode := congrArg Frame.node h.same
  exact hnode

/-- Both change in a way that notices neither ids nor passes. -/
theorem Kin.map {frame twin : Frame α} (h : Kin frame twin) (change : Frame α → Frame α)
    (hchange : ∀ frame, (change frame).anonymous = change frame.anonymous)
    (hpasses : ∀ frame, (change frame).passes = frame.passes) :
    Kin (change frame) (change twin) :=
  ⟨by rw [hchange, hchange, h.same], by rw [hpasses, h.paid]⟩

/-- A change that neither asks for ids and passes nor touches what is open. -/
structure Oblivious (change : Frame α → Frame α) : Prop where
  openCall : ∀ frame, (change frame).openCall = frame.openCall
  passes : ∀ frame, (change frame).passes = frame.passes
  anonymous : ∀ frame, (change frame).anonymous = change frame.anonymous

theorem oblivious_pause (now : α) : Oblivious (Frame.pause · now) where
  openCall frame := (frame.samePlace_pause now).openCall
  passes frame := (frame.samePlace_pause now).passes
  anonymous frame := by
    obtain ⟨_, _, _, pausedAt, _⟩ := frame
    cases pausedAt <;> rfl

theorem oblivious_moved (event : Event α) :
    Oblivious fun frame : Frame α =>
      { frame with file := event.file <|> frame.file, line := event.line } :=
  ⟨fun _ => rfl, fun _ => rfl, fun _ => rfl⟩

variable [Amount α]

theorem oblivious_unpause (now : α) : Oblivious (Frame.unpause · now) where
  openCall frame := (frame.samePlace_unpause now).openCall
  passes frame := (frame.samePlace_unpause now).passes
  anonymous frame := by
    obtain ⟨_, _, _, pausedAt, _⟩ := frame
    cases pausedAt <;> rfl

theorem oblivious_switchIn (now : α) : Oblivious (Frame.switchIn · now) where
  openCall frame := (frame.samePlace_switchIn now).openCall
  passes frame := (frame.samePlace_switchIn now).passes
  anonymous frame := by
    obtain ⟨_, _, _, _, switchedAt, _⟩ := frame
    cases switchedAt <;> rfl

theorem oblivious_switchOut (now : α) : Oblivious (Frame.switchOut · now) :=
  ⟨fun _ => rfl, fun _ => rfl, fun _ => rfl⟩

theorem Kin.unpause {frame twin : Frame α} (h : Kin frame twin) (now : α) :
    Kin (frame.unpause now) (twin.unpause now) :=
  h.map (Frame.unpause · now) (oblivious_unpause now).anonymous (oblivious_unpause now).passes

/-- A call that ends now costs the same in both. -/
theorem Kin.charges {frame twin : Frame α} (h : Kin frame twin) (now : α) :
    twin.totalTime now = frame.totalTime now ∧ twin.selfTime now = frame.selfTime now ∧
      twin.waitTime = frame.waitTime ∧ twin.deadTime = frame.deadTime := by
  have htotal : twin.anonymous.totalTime now = frame.anonymous.totalTime now := by rw [h.same]
  have hself : twin.anonymous.selfTime now = frame.anonymous.selfTime now := by rw [h.same]
  have hwait : twin.anonymous.waitTime = frame.anonymous.waitTime := by rw [h.same]
  have hdead : twin.anonymous.deadTime = frame.anonymous.deadTime := by rw [h.same]
  exact ⟨htotal, hself, hwait, hdead⟩

theorem kin_begun (node : NodeId) (method otherMethod : MethodId) (event : Event α)
    (paused : Bool) :
    Kin (.begun node method event paused) (.begun node otherMethod event paused) := by
  cases paused <;> exact ⟨rfl, rfl⟩

end Frame

namespace Stack

variable {stack twin : Stack α}

/-- The innermost frames change, each in its own way. -/
theorem kin_modifyTop (h : List.Forall₂ Frame.Kin stack.frames twin.frames)
    {change alter : Frame α → Frame α}
    (hchange : ∀ {frame other : Frame α}, Frame.Kin frame other →
      Frame.Kin (change frame) (alter other)) :
    List.Forall₂ Frame.Kin (stack.modifyTop change).frames (twin.modifyTop alter).frames := by
  obtain ⟨frames, capacity⟩ := stack
  obtain ⟨others, room⟩ := twin
  cases h with
  | nil => exact .nil
  | cons hkin hrest => exact .cons (hchange hkin) hrest

/-- Only the innermost frame that may have passes changes. -/
theorem kin_modifyTop_left (h : List.Forall₂ Frame.Kin stack.frames twin.frames)
    {change : Frame α → Frame α}
    (hchange : ∀ {frame other : Frame α}, Frame.Kin frame other → Frame.Kin (change frame) other) :
    List.Forall₂ Frame.Kin (stack.modifyTop change).frames twin.frames := by
  obtain ⟨frames, capacity⟩ := stack
  obtain ⟨others, room⟩ := twin
  cases h with
  | nil => exact .nil
  | cons hkin hrest => exact .cons (hchange hkin) hrest

end Stack

/-! ## Contexts -/

namespace Context

variable {exclusions : Exclusions}

/-- Two contexts that show the same, of which the second one has never had a pass. -/
structure Twin (exclusions : Exclusions) (context twin : Context α) : Prop where
  key : twin.key = context.key
  traced : twin.traced = context.traced
  orderly : context.Orderly exclusions
  twinOrderly : twin.Orderly exclusions
  frames : List.Forall₂ Frame.Kin context.stack.frames twin.stack.frames
  profile : context.profile.Twins exclusions twin.profile

variable {context twin : Context α}

/-- Frames that belong together have one method, by identity, and it is not excluded. -/
theorem Twin.records (h : Twin exclusions context twin) {frame other : Frame α}
    (hframe : frame ∈ context.stack.frames) (hother : other ∈ twin.stack.frames)
    (hkin : frame.Kin other) :
    ∃ record found, context.profile.methods.record? frame.method = some record ∧
      twin.profile.methods.record? other.method = some found ∧ found.method = record.method ∧
      exclusions.contains record.method = false := by
  have hopen : frame.openCall ∈ context.stack.openCalls := List.mem_map_of_mem hframe
  have hotherOpen : other.openCall ∈ twin.stack.openCalls := List.mem_map_of_mem hother
  obtain ⟨node, hnode, hmethod⟩ := Profile.methodOf?_eq_some (h.orderly.stacked.methodOf? hopen)
  obtain ⟨otherNode, hotherNode, hotherMethod⟩ :=
    Profile.methodOf?_eq_some (h.twinOrderly.stacked.methodOf? hotherOpen)
  obtain ⟨record, hrecord, -⟩ := h.orderly.sound.bound hnode
  obtain ⟨found, hfound, -⟩ := h.twinOrderly.sound.bound hotherNode
  have hsameNode : twin.profile.tree.node? frame.node = some otherNode :=
    hkin.node_eq ▸ hotherNode
  have hname := h.profile.method_eq h.orderly.sound h.twinOrderly.sound hnode hsameNode hrecord
    hfound
  have hexcluded := h.orderly.unbound hnode hrecord
  rw [h.orderly.excluded hrecord] at hexcluded
  rw [hmethod] at hrecord
  rw [hotherMethod] at hfound
  exact ⟨record, found, hrecord, hfound, hname, hexcluded⟩

theorem Twin.top (h : Twin exclusions context twin) {top : Frame α}
    (htop : context.stack.top? = some top) :
    ∃ other, twin.stack.top? = some other ∧ top.Kin other ∧
      ∃ record found, context.profile.methods.record? top.method = some record ∧
        twin.profile.methods.record? other.method = some found ∧
        found.method = record.method ∧ exclusions.contains record.method = false := by
  obtain ⟨rest, hframes⟩ := List.head?_eq_some_iff.mp htop
  have hall := h.frames
  rw [hframes] at hall
  obtain ⟨other, others, hkin, -, hothers⟩ := List.forall₂_cons_left_iff.mp hall
  refine ⟨other, ?_, hkin, h.records ?_ ?_ hkin⟩
  · rw [Stack.top?, hothers, List.head?_cons]
  · rw [hframes]
    exact List.mem_cons_self
  · rw [hothers]
    exact List.mem_cons_self

theorem Twin.top_none (h : Twin exclusions context twin) (htop : context.stack.top? = none) :
    twin.stack.top? = none := by
  have hall := h.frames
  rw [List.head?_eq_none_iff.mp htop] at hall
  rw [Stack.top?, List.forall₂_nil_left_iff.mp hall, List.head?_nil]

theorem Twin.modifyTop (h : Twin exclusions context twin) {change : Frame α → Frame α}
    (hchange : Frame.Oblivious change) :
    Twin exclusions { context with stack := context.stack.modifyTop change }
      { twin with stack := twin.stack.modifyTop change } :=
  ⟨h.key, h.traced, h.orderly.restacked (context.stack.openCalls_modifyTop hchange.openCall),
    h.twinOrderly.restacked (twin.stack.openCalls_modifyTop hchange.openCall),
    Stack.kin_modifyTop h.frames fun hkin => hkin.map change hchange.anonymous hchange.passes,
    h.profile⟩

/-- What happens to the passes is the affair of the first context. -/
theorem Twin.repass (h : Twin exclusions context twin) (change : Nat → Nat) :
    Twin exclusions
      { context with stack := context.stack.modifyTop fun frame =>
          { frame with passes := change frame.passes } } twin :=
  ⟨h.key, h.traced, h.orderly.restacked (context.stack.openCalls_modifyTop fun _ => rfl),
    h.twinOrderly, Stack.kin_modifyTop_left h.frames fun hkin => ⟨hkin.same, hkin.paid⟩,
    h.profile⟩

variable [Amount α]

theorem twin_fresh (exclusions : Exclusions) (key : ContextKey) (traced : Bool)
    (capacity : Nat) :
    Twin exclusions (.fresh key traced capacity : Context α) (.fresh key traced capacity) :=
  ⟨rfl, rfl, orderly_fresh _ _ _ _, orderly_fresh _ _ _ _, .nil, .refl _⟩

theorem Twin.switchIn (h : Twin exclusions context twin) (now : α) :
    Twin exclusions (context.switchIn now) (twin.switchIn now) :=
  h.modifyTop (Frame.oblivious_switchIn now)

theorem Twin.switchOut (h : Twin exclusions context twin) (now : α) :
    Twin exclusions (context.switchOut now) (twin.switchOut now) :=
  h.modifyTop (Frame.oblivious_switchOut now)

/-! ## Calls -/

/-- What there is on a method after a look-up. -/
theorem recordsOf_lookup (h : context.Orderly exclusions) (event : Event α)
    (method other : Method) :
    ((context.lookup event method exclusions).1.recordsOf other).map MethodRecord.unkeyed =
      (context.profile.methods.recordsOf other).map MethodRecord.unkeyed ++
        if other = method ∧ context.profile.methods.recordsOf method = [] then
          [({ MethodRecord.fresh (.spare 0) method with
              source :=
                if exclusions.contains method || event.kind = .nativeCall then none
                else event.file.map fun file => ⟨file, event.line⟩
              excluded := exclusions.contains method } : MethodRecord α)]
        else [] := by
  unfold lookup Registry.lookupOrCreate
  cases hlocate : context.profile.methods.locate method with
  | found id =>
      obtain ⟨record, hrecord, hmethod⟩ := Registry.locate_found hlocate
      rw [if_neg, List.append_nil]
      rintro ⟨-, hnone⟩
      rw [← hmethod, h.sound.methods.recordsOf_record hrecord] at hnone
      cases hnone
  | free key =>
      have hunknown : context.profile.methods.recordsOf method = [] :=
        Registry.recordsOf_unknown fun hid hmethod => by
          have hlocated := h.sound.methods.locate_record hid
          rw [hmethod, hlocate] at hlocated
          cases hlocated
      simp only [hunknown, and_true]
      rw [Registry.recordsOf_push, List.map_append]
      congr 1
      by_cases heq : other = method
      · rw [if_pos heq]
        exact (if_pos heq).symm ▸ rfl
      · rw [if_neg heq]
        exact congrArg (List.map MethodRecord.unkeyed) (if_neg heq)

/-- Both learn the method of a call. -/
theorem Twin.lookup (h : Twin exclusions context twin) (event : Event α) {method : Method}
    (hexcluded : exclusions.contains method = false) :
    Twin exclusions (context.knowing (context.lookup event method exclusions).1)
      (twin.knowing (twin.lookup event method exclusions).1) := by
  obtain ⟨horderly, hgrows, -⟩ := h.orderly.lookup event method
  obtain ⟨htwin, hothers, -⟩ := h.twinOrderly.lookup event method
  refine ⟨h.key, h.traced, horderly, htwin, h.frames,
    h.profile.knowing h.orderly.sound h.twinOrderly.sound horderly.sound htwin.sound hgrows
      hothers fun other hother => ?_⟩
  have hknown : twin.profile.methods.recordsOf method = [] ↔
      context.profile.methods.recordsOf method = [] := by
    rw [← List.map_eq_nil_iff (f := MethodRecord.unkeyed), h.profile.records method hexcluded,
      List.map_eq_nil_iff]
  rw [recordsOf_lookup h.orderly, recordsOf_lookup h.twinOrderly, h.profile.records other hother]
  simp only [hknown]

/-- The first one learns an excluded method, of which nothing is said. -/
theorem Twin.lookup_excluded (h : Twin exclusions context twin) (event : Event α)
    {method : Method} (hexcluded : exclusions.contains method = true) :
    Twin exclusions (context.knowing (context.lookup event method exclusions).1) twin := by
  obtain ⟨horderly, hgrows, -⟩ := h.orderly.lookup event method
  refine ⟨h.key, h.traced, horderly, h.twinOrderly, h.frames,
    h.profile.knowing h.orderly.sound h.twinOrderly.sound horderly.sound h.twinOrderly.sound
      hgrows (Profile.Grows.refl _) fun other hother => ?_⟩
  have hdiffers : other ≠ method := by
    rintro rfl
    rw [hexcluded] at hother
    cases hother
  rw [recordsOf_lookup h.orderly, if_neg fun hboth => hdiffers hboth.1, List.append_nil]
  exact h.profile.records other hother

/-- A call leads both to one node. -/
theorem Twin.enterNode (h : Twin exclusions context twin) {id otherId : Nat}
    {record found : MethodRecord α} (hrecord : context.profile.methods.record? id = some record)
    (hfound : twin.profile.methods.record? otherId = some found)
    (hname : found.method = record.method) :
    (twin.enterNode otherId).2 = (context.enterNode id).2 ∧
      (context.enterNode id).1.Twins exclusions (twin.enterNode otherId).1 := by
  have hs := h.orderly.sound
  have ho := h.twinOrderly.sound
  rcases context.enterNode_cases id with
    ⟨top, htop, rfl, heq⟩ | ⟨top, htop, hdiffers, heq⟩ | ⟨htop, heq⟩
  · obtain ⟨other, hother, hkin, known, otherKnown, hknown, hotherKnown, hsame, -⟩ := h.top htop
    rw [hrecord] at hknown
    cases hknown
    have hid : other.method = otherId :=
      ho.methods.method_inj hotherKnown hfound (hsame.trans hname.symm)
    have hotherEq : twin.enterNode otherId = (twin.profile, other.node) := by
      rw [Context.enterNode, hother]
      exact if_pos hid
    rw [heq, hotherEq]
    exact ⟨hkin.node_eq, h.profile⟩
  · obtain ⟨other, hother, hkin, known, otherKnown, hknown, hotherKnown, hsame, -⟩ := h.top htop
    have hotherDiffers : other.method ≠ otherId := by
      rintro rfl
      rw [hfound] at hotherKnown
      cases hotherKnown
      exact hdiffers (hs.methods.method_inj hknown hrecord (hsame.symm.trans hname))
    have hsite : (⟨other.file, other.line⟩ : CallSite) = ⟨top.file, top.line⟩ := by
      have hfile := congrArg Frame.file hkin.same
      have hline := congrArg Frame.line hkin.same
      change other.file = top.file at hfile
      change other.line = top.line at hline
      rw [hfile, hline]
    have hotherEq : twin.enterNode otherId =
        twin.profile.child (some top.node) otherId ⟨top.file, top.line⟩ := by
      rw [Context.enterNode, hother, ← hsite, ← hkin.node_eq]
      exact if_neg hotherDiffers
    rw [heq, hotherEq]
    exact h.profile.child hs ho (h.orderly.hasParent_top htop) hrecord hfound hname _
  · have hotherEq : twin.enterNode otherId =
        (twin.profile.modifyMethod otherId ({ · with root := true })).child none otherId
          .none := by
      rw [Context.enterNode, h.top_none htop]
    obtain ⟨hmarked, -, hroot⟩ := h.orderly.marked hrecord
    obtain ⟨hotherMarked, -, hotherRoot⟩ := h.twinOrderly.marked hfound
    have hboth : Profile.Twins exclusions
        (context.profile.modifyMethod id ({ · with root := true }))
        (twin.profile.modifyMethod otherId ({ · with root := true })) :=
      h.profile.modifyMethod hs ho hrecord hfound hname (fun _ => rfl) (fun _ => rfl)
        (fun _ => rfl) fun _ => rfl
    rw [heq, hotherEq]
    exact hboth.child hmarked.sound hotherMarked.sound Profile.hasParent_none hroot hotherRoot
      hname _

/-- Both open a call of one method. -/
theorem Twin.openCall (h : Twin exclusions context twin) {id otherId : Nat}
    {record found : MethodRecord α} (hrecord : context.profile.methods.record? id = some record)
    (hfound : twin.profile.methods.record? otherId = some found)
    (hname : found.method = record.method) (hexcluded : exclusions.contains record.method = false)
    (event : Event α) (paused : Bool) :
    Twin exclusions (context.openCall id event paused) (twin.openCall otherId event paused) := by
  have hmark : record.excluded = false := (h.orderly.excluded hrecord).trans hexcluded
  have hotherMark : found.excluded = false :=
    (h.twinOrderly.excluded hfound).trans (hname ▸ hexcluded)
  have hled := h.orderly.enterNode hrecord hmark
  have hotherLed := h.twinOrderly.enterNode hfound hotherMark
  obtain ⟨hnode, hprofiles⟩ := h.enterNode hrecord hfound hname
  obtain ⟨hprofile, hframes⟩ := openCall_eq hled.method event paused
  obtain ⟨hotherProfile, hotherFrames⟩ := openCall_eq hotherLed.method event paused
  obtain ⟨after, hafter, -, hafterName⟩ := hled.grows.record? hrecord
  obtain ⟨otherAfter, hotherAfter, -, hotherName⟩ := hotherLed.grows.record? hfound
  refine ⟨h.key, h.traced, h.orderly.openCall hrecord hmark event paused,
    h.twinOrderly.openCall hfound hotherMark event paused, ?_, ?_⟩
  · rw [hframes, hotherFrames, hnode]
    exact .cons (Frame.kin_begun _ _ _ _ _)
      (Stack.kin_modifyTop h.frames fun hkin => hkin.unpause event.sample)
  · rw [hprofile, hotherProfile, hnode]
    exact hprofiles.enter hled.ordered.sound hotherLed.ordered.sound _ hafter hotherAfter
      (by rw [hotherName, hafterName, hname])

/-- A call of a method that is not excluded is seen by both. -/
theorem Twin.called (h : Twin exclusions context twin) {event : Event α} {method : Method}
    (hmethod : event.method? = some method) (hexcluded : exclusions.contains method = false)
    (paused : Bool) :
    Twin exclusions (context.called event exclusions paused)
      (twin.called event exclusions paused) := by
  obtain ⟨-, -, record, hrecord, rfl, -⟩ := h.orderly.lookup event method
  obtain ⟨-, -, found, hfound, hname, -⟩ := h.twinOrderly.lookup event record.method
  rw [h.orderly.called_eq hmethod, h.twinOrderly.called_eq hmethod, hexcluded]
  exact (h.lookup event hexcluded).openCall hrecord hfound hname hexcluded event paused

/-- A call that opens no frame is seen by the first one. -/
theorem Twin.called_hidden (h : Twin exclusions context twin) {event : Event α}
    (hhidden : ∀ method, event.method? = some method → exclusions.contains method = true)
    (paused : Bool) :
    Twin exclusions (context.called event exclusions paused) twin ∧
      (context.called event exclusions paused).stack = context.stack.pass := by
  cases hmethod : event.method? with
  | none =>
      rw [called_of_unnamed hmethod]
      exact ⟨h.repass (· + 1), rfl⟩
  | some method =>
      have hexcluded := hhidden method hmethod
      rw [h.orderly.called_eq hmethod, if_pos hexcluded]
      exact ⟨(h.lookup_excluded event hexcluded).repass (· + 1), rfl⟩

/-! ## Returns -/

/-- A return that pays off a pass is seen by the first one. -/
theorem Twin.popped_pass (h : Twin exclusions context twin) {top : Frame α}
    (htop : context.stack.top? = some top) (hpass : top.isPass = true) (now : α) :
    Twin exclusions (context.popped now) twin := by
  obtain ⟨rest, hframes⟩ := List.head?_eq_some_iff.mp htop
  rw [Context.popped_pass hframes hpass]
  exact h.repass (· - 1)

/-- A return that closes a call is seen by both. -/
theorem Twin.popped_close (h : Twin exclusions context twin)
    (hpaid : ∀ top, context.stack.top? = some top → ¬ top.isPass = true) (now : α) :
    Twin exclusions (context.popped now) (twin.popped now) := by
  have horderly := h.orderly.popped now
  have hotherOrderly := h.twinOrderly.popped now
  cases hframes : context.stack.frames with
  | nil =>
      have hall := h.frames
      rw [hframes] at hall
      rw [popped_empty hframes, popped_empty (List.forall₂_nil_left_iff.mp hall)]
      exact h
  | cons top rest =>
      have htop : context.stack.top? = some top := by
        rw [Stack.top?, hframes, List.head?_cons]
      have hall := h.frames
      rw [hframes] at hall
      obtain ⟨other, others, hkin, hrest, hothers⟩ := List.forall₂_cons_left_iff.mp hall
      obtain ⟨record, found, hrecord, hfound, hname, -⟩ :=
        h.records (hframes ▸ List.mem_cons_self) (hothers ▸ List.mem_cons_self) hkin
      have hnoPass : ¬ other.isPass = true := by
        rw [Frame.isPass, hkin.paid]
        simp
      obtain ⟨htotal, hself, hwait, hdead⟩ := (hkin.unpause now).charges now
      rw [Context.popped_close hframes (hpaid top htop)] at horderly ⊢
      rw [Context.popped_close hothers hnoPass] at hotherOrderly ⊢
      refine ⟨h.key, h.traced, horderly, hotherOrderly, ?_, ?_⟩
      · refine Stack.kin_modifyTop hrest fun {frame caller} hcaller => ?_
        rw [htotal, hdead]
        exact hcaller.map (Frame.credit · _ _) (fun _ => rfl) fun _ => rfl
      · show (context.profile.settle top.node top.method _ _ _).Twins exclusions
          (twin.profile.settle other.node other.method _ _ _)
        rw [htotal, hself, hwait, hkin.node_eq]
        exact h.profile.settle h.orderly.sound h.twinOrderly.sound _ hrecord hfound hname _ _ _

/-- At the end of a run the first one pays off its passes besides. -/
theorem Twin.unwind (now : α) : ∀ {context twin : Context α}, Twin exclusions context twin →
    Twin exclusions (context.unwind now) (twin.unwind now) := by
  intro context
  generalize hpending : Stack.pending context.stack.frames = pending
  induction pending generalizing context with
  | zero =>
      intro twin h
      have hframes := Stack.frames_eq_nil hpending
      have hall := h.frames
      rw [hframes] at hall
      rw [unwind_of_empty hframes, unwind_of_empty (List.forall₂_nil_left_iff.mp hall)]
      exact h
  | succ pending ih =>
      intro twin h
      have hpopped : Stack.pending (context.popped now).stack.frames = pending := by
        have hpop := Stack.pending_pop context.stack context.profile now
        rw [hpending] at hpop
        exact hpop
      cases hframes : context.stack.frames with
      | nil =>
          rw [hframes] at hpending
          cases hpending
      | cons top rest =>
          have htop : context.stack.top? = some top := by
            rw [Stack.top?, hframes, List.head?_cons]
          rw [unwind_popped (hframes ▸ List.cons_ne_nil _ _)]
          by_cases hpass : top.isPass = true
          · exact ih hpopped (h.popped_pass htop hpass now)
          · have hall := h.frames
            rw [hframes] at hall
            obtain ⟨other, others, -, -, hothers⟩ := List.forall₂_cons_left_iff.mp hall
            rw [unwind_popped (hothers ▸ List.cons_ne_nil _ _ : twin.stack.frames ≠ [])]
            refine ih hpopped (h.popped_close (fun found hfound => ?_) now)
            rw [htop] at hfound
            cases hfound
            exact hpass

/-! ## Allocations -/

theorem rel_findSome? {β γ δ ε : Type} {law : β → γ → Prop} {found : δ → ε → Prop}
    {find : β → Option δ} {search : γ → Option ε} {members : List β} {others : List γ}
    (h : List.Forall₂ law members others)
    (hfind : ∀ {member : β} {other : γ}, member ∈ members → other ∈ others → law member other →
      Option.Rel found (find member) (search other)) :
    Option.Rel found (members.findSome? find) (others.findSome? search) := by
  induction h with
  | nil => exact .none
  | @cons member other members others hlaw _ ih =>
      have hfirst := hfind List.mem_cons_self List.mem_cons_self hlaw
      rw [List.findSome?_cons, List.findSome?_cons]
      generalize find member = seen at hfirst
      generalize search other = otherSeen at hfirst
      cases hfirst with
      | some hsame => exact .some hsame
      | none =>
          exact ih fun hmember hother =>
            hfind (List.mem_cons_of_mem _ hmember) (List.mem_cons_of_mem _ hother)

omit [Amount α] in
/-- Both find the same method at a source position. -/
theorem Twin.enclosing? (h : Twin exclusions context twin) (file : String) (line : UInt32) :
    Option.Rel (fun id otherId => ∃ record found,
        context.profile.methods.record? id = some record ∧
        twin.profile.methods.record? otherId = some found ∧ found.method = record.method)
      (context.stack.enclosing? context.profile.methods file line)
      (twin.stack.enclosing? twin.profile.methods file line) := by
  refine rel_findSome? h.frames fun {frame other} hframe hother hkin => ?_
  obtain ⟨record, found, hrecord, hfound, hname, hexcluded⟩ := h.records hframe hother hkin
  have hsource : found.unkeyed.source = record.unkeyed.source := by
    rw [h.profile.unkeyed_eq h.orderly.sound h.twinOrderly.sound hrecord hfound hname hexcluded]
  change found.source = record.source at hsource
  rw [hrecord, hfound]
  simp only [Option.bind_eq_bind, Option.bind_some]
  rw [hsource]
  cases record.source with
  | none => exact .none
  | some source =>
      simp only [Option.bind_some]
      split
      · exact .some ⟨record, found, hrecord, hfound, hname⟩
      · exact .none

omit [Amount α] in
/-- Both charge an allocation to one method. -/
theorem Twin.allocated (h : Twin exclusions context twin) (event : Event α) :
    Twin exclusions (context.allocated event) (twin.allocated event) := by
  have horderly := h.orderly.allocated event
  have hotherOrderly := h.twinOrderly.allocated event
  unfold Context.allocated at horderly hotherOrderly ⊢
  split
  · next file object hfile hobject =>
      rw [hfile, hobject] at horderly hotherOrderly
      simp only [] at horderly hotherOrderly
      have hmethods := h.enclosing? file event.line
      generalize context.stack.enclosing? context.profile.methods file event.line = here
        at hmethods horderly ⊢
      generalize twin.stack.enclosing? twin.profile.methods file event.line = there
        at hmethods hotherOrderly ⊢
      cases hmethods with
      | none => exact h
      | some hsame =>
          obtain ⟨record, found, hrecord, hfound, hname⟩ := hsame
          exact ⟨h.key, h.traced, horderly, hotherOrderly, h.frames,
            h.profile.modifyMethod h.orderly.sound h.twinOrderly.sound hrecord hfound hname
              (fun _ => rfl) (fun _ => rfl) (fun _ => rfl) fun _ => rfl⟩
  · exact h

end Context

end CallLedger
