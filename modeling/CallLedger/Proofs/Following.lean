import CallLedger.Proofs.Trail

/-!
# Following a trail

Whatever happens to a context, it follows the trail that its events leave
(`Context.Follows`): one lemma says so for each kind of event, and for what happens
to it without an event of its own, which leaves no trail. A call has the one case
with an argument (`Follows.enterNode`). A method that calls itself stays on the node
of its path, as the path does not notice the repetition, and any other call goes to
the child that extends the path by the method.
-/

namespace CallLedger

variable {α : Type} {exclusions : Exclusions}

namespace Context

variable {context : Context α} {trail : Trail}

/-- A context is where its trail says it is. -/
structure Follows (exclusions : Exclusions) (context : Context α) (trail : Trail) : Prop where
  orderly : context.Orderly exclusions
  entries : Matches context.profile context.stack.frames trail.entries
  trie : Trie trail.calls context.profile

/-- The paths of the frames outlast the growth of the profile. -/
theorem Follows.entries_of_grows (h : Follows exclusions context trail) {profile : Profile α}
    (hs : profile.Sound) (hgrows : context.profile.Grows profile) :
    Matches profile context.stack.frames trail.entries := by
  refine h.entries.of_paths fun frame hmem => hgrows.path_eq h.orderly.sound hs ?_
  have hopen : frame.openCall ∈ context.stack.openCalls := List.mem_map_of_mem hmem
  exact h.orderly.stacked.node_lt hopen

/-- The method of the innermost frame is that of the innermost open call. -/
theorem Follows.method_top (h : Follows exclusions context trail) {top : Frame α}
    (htop : context.stack.top? = some top) :
    ∃ entry below, trail.entries = entry :: below ∧ entry.site = top.site ∧
      context.profile.path top.node = Trail.pathOf trail.entries ∧
      ∃ record, context.profile.methods.record? top.method = some record ∧
        record.method = entry.method := by
  obtain ⟨rest, hframes⟩ := List.head?_eq_some_iff.mp htop
  obtain ⟨node, hnode, hmethod⟩ := Profile.methodOf?_eq_some (h.orderly.methodOf?_top htop)
  obtain ⟨record, hrecord, -⟩ := h.orderly.sound.bound hnode
  have hentries := h.entries
  rw [hframes] at hentries
  cases hcase : trail.entries with
  | nil =>
      rw [hcase] at hentries
      cases hentries
  | cons entry below =>
      rw [hcase] at hentries
      cases hentries with
      | cons _ hpath _ hsite =>
          refine ⟨entry, below, rfl, hsite, hpath, record, hmethod ▸ hrecord, ?_⟩
          have hhead := congrArg List.head? hpath
          rw [h.orderly.sound.path_eq hnode hrecord, Trail.pathOf, head?_collapse] at hhead
          exact Option.some.inj hhead

/-! ## What leaves no trail -/

theorem Follows.modifyTop (h : Follows exclusions context trail) {change : Frame α → Frame α}
    (hchange : ∀ frame : Frame α, frame.SamePlace (change frame)) :
    Follows exclusions { context with stack := context.stack.modifyTop change } trail where
  orderly := h.orderly.restacked
    (context.stack.openCalls_modifyTop fun frame => (hchange frame).openCall)
  entries := h.entries.samePlace hchange
  trie := h.trie

theorem Follows.pause (h : Follows exclusions context trail) (now : α) :
    Follows exclusions (context.pause now) trail :=
  h.modifyTop (Frame.samePlace_pause · now)

variable [Amount α]

theorem follows_fresh (exclusions : Exclusions) (key : ContextKey) (traced : Bool)
    (capacity : Nat) : Follows exclusions (.fresh key traced capacity : Context α) .empty where
  orderly := orderly_fresh exclusions key traced capacity
  entries := .nil
  trie := Trie.empty

theorem Follows.resume (h : Follows exclusions context trail) (now : α) :
    Follows exclusions (context.resume now) trail :=
  h.modifyTop (Frame.samePlace_unpause · now)

theorem Follows.switchIn (h : Follows exclusions context trail) (now : α) :
    Follows exclusions (context.switchIn now) trail :=
  h.modifyTop (Frame.samePlace_switchIn · now)

theorem Follows.switchOut (h : Follows exclusions context trail) (now : α) :
    Follows exclusions (context.switchOut now) trail :=
  h.modifyTop (Frame.samePlace_switchOut · now)

omit [Amount α] in
theorem Follows.allocated (h : Follows exclusions context trail) (event : Event α) :
    Follows exclusions (context.allocated event) trail := by
  have horderly := h.orderly.allocated event
  unfold Context.allocated at horderly ⊢
  split
  · next file object hfile hobject =>
      rw [hfile, hobject] at horderly
      simp only [] at horderly
      split
      · next method hmethod =>
          rw [hmethod] at horderly
          have hshape : context.profile.SameShape (context.profile.modifyMethod method
              fun record => { record with
                allocations := record.allocations.record
                  ⟨file, event.line, object.className⟩ object.size.toNat }) :=
            Profile.sameShape_modifyMethod (fun _ => rfl) (fun _ => rfl) fun _ => rfl
          refine ⟨horderly, h.entries_of_grows horderly.sound hshape.grows,
            Trie.of_shape h.trie h.orderly.sound hshape fun hid hbefore => ?_⟩
          rw [Option.some.inj (hid.symm.trans hbefore)]
      · exact h
  · exact h

/-! ## Passes, lines and returns -/

omit [Amount α] in
theorem Follows.pass (h : Follows exclusions context trail) :
    Follows exclusions { context with stack := context.stack.pass } trail.pass where
  orderly := h.orderly.pass
  entries := h.entries.modifyHead (fun _ => rfl) (fun _ => rfl)
    (fun _ _ heq => congrArg (· + 1) heq) fun _ _ heq => heq
  trie := h.trie

omit [Amount α] in
theorem Follows.moved (h : Follows exclusions context trail) (event : Event α) :
    Follows exclusions (context.moved event) (trail.move event.file event.line) where
  orderly := h.orderly.restacked (context.stack.openCalls_modifyTop fun _ => rfl)
  entries := by
    refine h.entries.modifyHead (fun _ => rfl) (fun _ => rfl) (fun _ _ heq => heq) ?_
    intro frame entry heq
    show (⟨event.file <|> entry.site.file, event.line⟩ : CallSite) = _
    rw [heq]
    rfl
  trie := h.trie

theorem Follows.popped (h : Follows exclusions context trail) (now : α) :
    Follows exclusions (context.popped now) trail.back := by
  obtain ⟨entries, calls⟩ := trail
  have horderly := h.orderly.popped now
  cases hframes : context.stack.frames with
  | nil =>
      have hentries := h.entries
      rw [hframes] at hentries
      cases hentries
      rw [popped_empty hframes]
      exact h
  | cons top rest =>
      have hentries := h.entries
      rw [hframes] at hentries
      cases hentries with
      | @cons _ _ entry below hbelow hpath hpasses hsite =>
          by_cases hpass : top.isPass = true
          · have hpositive : entry.passes > 0 := by
              rw [hpasses]
              exact of_decide_eq_true hpass
            rw [popped_pass hframes hpass] at horderly ⊢
            rw [Trail.back]
            simp only [hpositive, if_true]
            have hpaid : Matches context.profile
                (context.stack.modifyTop fun frame =>
                  { frame with passes := frame.passes - 1 }).frames
                ((entry :: below).modifyHead fun entry =>
                  { entry with passes := entry.passes - 1 }) :=
              h.entries.modifyHead (fun _ => rfl) (fun _ => rfl)
                (fun _ _ heq => congrArg (· - 1) heq) fun _ _ heq => heq
            exact ⟨horderly, hpaid, h.trie⟩
          · have hzero : ¬ entry.passes > 0 := by
              rw [hpasses]
              exact fun hpositive => hpass (decide_eq_true hpositive)
            rw [popped_close hframes hpass] at horderly ⊢
            rw [Trail.back]
            simp only [hzero, if_false]
            have hshape : context.profile.SameShape (context.profile.settle top.node top.method
                ((top.unpause now).selfTime now) (top.unpause now).waitTime
                ((top.unpause now).totalTime now)) := Profile.sameShape_settle _ _ _ _ _
            have hall := h.entries_of_grows horderly.sound hshape.grows
            rw [hframes] at hall
            cases hall with
            | cons hrest _ _ _ =>
                refine ⟨horderly, ?_, Trie.of_shape h.trie h.orderly.sound hshape ?_⟩
                · exact Matches.modifyTop hrest (fun _ => rfl) (fun _ => rfl) fun _ => rfl
                · intro id node before hid hbefore
                  obtain ⟨found, hfound, ⟨-, rfl⟩ | ⟨-, rfl⟩⟩ :=
                    CallTree.node?_modify_cases hid
                  · rw [Option.some.inj (hbefore.symm.trans hfound)]
                    rfl
                  · rw [Option.some.inj (hbefore.symm.trans hfound)]

theorem Follows.returned (h : Follows exclusions context trail) (now : α) (paused : Bool) :
    Follows exclusions (context.returned now paused) trail.back := by
  cases paused with
  | false => exact h.popped now
  | true => exact (h.popped now).pause now

/-- The end of a run closes what is open, and adds no call. -/
theorem Follows.unwind (h : Follows exclusions context trail) (now : α) :
    ∃ entries, Follows exclusions (context.unwind now) ⟨entries, trail.calls⟩ := by
  have hlaw : ∀ {context : Context α},
      (∃ entries, Follows exclusions context ⟨entries, trail.calls⟩) →
        ∃ entries, Follows exclusions (context.popped now) ⟨entries, trail.calls⟩ := by
    rintro context ⟨entries, hcontext⟩
    have hpopped := hcontext.popped now
    cases entries with
    | nil => exact ⟨[], hpopped⟩
    | cons top below => exact ⟨_, hpopped⟩
  exact @popTimes_keeps α _ (fun context =>
    ∃ entries, Follows exclusions context ⟨entries, trail.calls⟩) now hlaw
      (Stack.pending context.stack.frames) context ⟨trail.entries, h⟩

/-! ## Calls -/

/-- A call leads to its path, and is counted there. -/
theorem Follows.enterNode (h : Follows exclusions context trail) {method : Nat}
    {record : MethodRecord α} (hrecord : context.profile.methods.record? method = some record)
    (site : CallSite) :
    (context.enterNode method).1.path (context.enterNode method).2 =
        Trail.pathOf (⟨record.method, 0, site⟩ :: trail.entries) ∧
      Trie (trail.call record.method site).calls
        ((context.enterNode method).1.enter (context.enterNode method).2 method) := by
  have hs := h.orderly.sound
  rcases context.enterNode_cases method with
    ⟨top, htop, hsame, heq⟩ | ⟨top, htop, hother, heq⟩ | ⟨htop, heq⟩
  · -- the path does not notice the repetition
    obtain ⟨entry, below, hentries, -, hpath, found, hfound, hname⟩ := h.method_top htop
    rw [hsame, hrecord] at hfound
    cases hfound
    have hcollapse : Trail.pathOf (⟨record.method, 0, site⟩ :: trail.entries) =
        Trail.pathOf trail.entries := by
      rw [hentries, Trail.pathOf, Trail.pathOf, List.map_cons, List.map_cons, ← hname,
        collapse_repeat]
    rw [heq, hcollapse]
    refine ⟨hpath, h.trie.again hs (h.orderly.hasParent_top htop _ rfl) ?_ method⟩
    exact hpath.trans hcollapse.symm
  · obtain ⟨entry, below, hentries, hsite, hpath, found, hfound, hname⟩ := h.method_top htop
    have hdiffers : entry.method ≠ record.method := fun hmethod =>
      hother (hs.methods.method_inj hfound hrecord (hname.trans hmethod))
    have hcollapse : Trail.pathOf (⟨record.method, 0, site⟩ :: trail.entries) =
        record.method :: context.profile.pathTo (some top.node) := by
      rw [show context.profile.pathTo (some top.node) = _ from hpath, hentries, Trail.pathOf,
        Trail.pathOf, List.map_cons, List.map_cons, collapse_cons hdiffers]
    have hcurrent : trail.current = ⟨top.file, top.line⟩ := by
      rw [Trail.current, hentries]
      exact hsite
    have hparent := h.orderly.hasParent_top htop
    rw [heq]
    refine ⟨(hs.path_child _ hrecord hparent).trans hcollapse.symm, ?_⟩
    rw [← hcurrent]
    exact h.trie.child hs hrecord hparent hcollapse
  · obtain ⟨hmarked, hshape, hroot⟩ := h.orderly.marked hrecord
    have hentries : trail.entries = [] := by
      have hall := h.entries
      rw [List.head?_eq_none_iff.mp htop] at hall
      cases hcase : trail.entries with
      | nil => rfl
      | cons entry below =>
          rw [hcase] at hall
          cases hall
    have hcurrent : trail.current = .none := by
      rw [Trail.current, hentries]
    have htrie := Trie.of_shape h.trie hs hshape fun hid hbefore => by
      rw [Option.some.inj (hid.symm.trans hbefore)]
    rw [heq]
    refine ⟨(hmarked.sound.path_child _ hroot Profile.hasParent_none).trans ?_, ?_⟩
    · rw [hentries]
      rfl
    · rw [← hcurrent]
      refine htrie.child hmarked.sound hroot Profile.hasParent_none ?_
      show Trail.pathOf _ = _
      rw [hentries]
      rfl

theorem Follows.openCall (h : Follows exclusions context trail) {method : Nat}
    {record : MethodRecord α} (hrecord : context.profile.methods.record? method = some record)
    (hexcluded : record.excluded = false) (event : Event α) (paused : Bool) :
    Follows exclusions (context.openCall method event paused)
      (trail.call record.method ⟨event.file, event.line⟩) := by
  have hled := h.orderly.enterNode hrecord hexcluded
  have horderly := h.orderly.openCall hrecord hexcluded event paused
  obtain ⟨hpath, htrie⟩ := h.enterNode hrecord ⟨event.file, event.line⟩
  obtain ⟨hprofile, hframes⟩ := openCall_eq hled.method event paused
  have hshape : (context.enterNode method).1.SameShape
      ((context.enterNode method).1.enter (context.enterNode method).2 method) :=
    Profile.sameShape_enter _ _
  have hs := hled.ordered.sound
  refine ⟨horderly, ?_, hprofile ▸ htrie⟩
  rw [hframes, hprofile]
  have hbelow := h.entries_of_grows (hs.of_shape hshape) (hled.grows.trans hshape.grows)
  have hcallers := hbelow.samePlace (Frame.samePlace_unpause · event.sample)
  refine .cons hcallers ?_ ?_ ?_
  · obtain ⟨node, hnode, -⟩ := Profile.methodOf?_eq_some hled.method
    have hbegun : (Frame.begun (context.enterNode method).2 method event paused).node =
        (context.enterNode method).2 := by
      cases paused <;> rfl
    rw [hbegun, hshape.grows.path_eq hs (hs.of_shape hshape) (CallTree.node?_lt hnode), hpath]
  · cases paused <;> rfl
  · cases paused <;> rfl

theorem Follows.lookup (h : Follows exclusions context trail) (event : Event α)
    (method : Method) :
    Follows exclusions (context.knowing (context.lookup event method exclusions).1) trail := by
  obtain ⟨horderly, hgrows, -⟩ := h.orderly.lookup event method
  refine ⟨horderly, h.entries_of_grows horderly.sound hgrows,
    h.trie.of_profile rfl (fun id hid => hgrows.path_eq h.orderly.sound horderly.sound hid)
      fun {id node} hid => ⟨node, hid, rfl, rfl⟩⟩

theorem Follows.called (h : Follows exclusions context trail) (event : Event α) (paused : Bool) :
    Follows exclusions (context.called event exclusions paused)
      (trail.called exclusions event) := by
  rw [Trail.called]
  cases hmethod : event.method? with
  | none =>
      rw [called_of_unnamed hmethod]
      exact h.pass
  | some method =>
      have hknown := h.lookup event method
      obtain ⟨-, -, record, hrecord, rfl, hmark⟩ := h.orderly.lookup event method
      rw [h.orderly.called_eq hmethod]
      simp only []
      cases hexcluded : exclusions.contains record.method with
      | true =>
          rw [if_pos rfl, if_pos rfl]
          exact hknown.pass
      | false =>
          rw [if_neg Bool.false_ne_true, if_neg Bool.false_ne_true]
          exact hknown.openCall hrecord (hmark.trans hexcluded) event paused

end Context

end CallLedger
