import CallLedger.Proofs.Leading

/-!
# The trail of a context

The events of a context tell a story of their own, without a tree. It has a list of
open calls with the passes that each still owes, and it names the call path that
every recorded call leads to: the open calls from the innermost out, those that only
repeat the one below them left out (`Trail`).

A context follows its trail (`Context.Follows`). Its frames are the open calls of the
trail, each on the node of its path (`Matches`), and its tree is the trie of the paths
that were called: a node for every path, in the order in which they first came up,
counting how often (`Trie`).
-/

namespace CallLedger

/-! ## What the events tell -/

/-- A call that is open, with the source position that was reached in it. -/
structure OpenEntry where
  method : Method
  passes : Nat
  site : CallSite
deriving DecidableEq

/-- A call that was recorded: the path it leads to, and where it stands. -/
structure RecordedCall where
  path : List Method
  site : CallSite
deriving DecidableEq

/-- Leaves out what only repeats its successor. -/
def collapse : List Method → List Method
  | [] => []
  | method :: below =>
    if below.head? = some method then collapse below else method :: collapse below

structure Trail where
  /-- The open calls, the innermost first. -/
  entries : List OpenEntry
  /-- The recorded calls, the earliest first. -/
  calls : List RecordedCall
deriving DecidableEq

namespace Trail

def empty : Trail := ⟨[], []⟩

/-- The call path of a list of open calls. -/
def pathOf (entries : List OpenEntry) : List Method := collapse (entries.map (·.method))

/-- Where a call would stand now. -/
def current (trail : Trail) : CallSite :=
  match trail.entries with
  | [] => .none
  | top :: _ => top.site

def pass (trail : Trail) : Trail :=
  { trail with
    entries := trail.entries.modifyHead fun top => { top with passes := top.passes + 1 } }

def call (trail : Trail) (method : Method) (site : CallSite) : Trail :=
  let entries := ⟨method, 0, site⟩ :: trail.entries
  ⟨entries, trail.calls ++ [⟨pathOf entries, trail.current⟩]⟩

def back (trail : Trail) : Trail :=
  match trail.entries with
  | [] => trail
  | top :: below =>
    { trail with
      entries :=
        if top.passes > 0 then { top with passes := top.passes - 1 } :: below else below }

def move (trail : Trail) (file : Option String) (line : UInt32) : Trail :=
  { trail with
    entries := trail.entries.modifyHead fun top =>
      { top with site := ⟨file <|> top.site.file, line⟩ } }

/-- What the event of a call tells. An unnamed call and one of an excluded method are passes. -/
def called {α : Type} (trail : Trail) (exclusions : Exclusions) (event : Event α) : Trail :=
  match event.method? with
  | none => trail.pass
  | some method =>
    if exclusions.contains method then trail.pass
    else trail.call method ⟨event.file, event.line⟩

/-- What an event tells. -/
def observe {α : Type} (trail : Trail) (exclusions : Exclusions) (event : Event α) : Trail :=
  match event.kind with
  | .call | .nativeCall => trail.called exclusions event
  | .return | .nativeReturn => trail.back
  | .line => trail.move event.file event.line
  | .allocation => trail

end Trail

theorem collapse_repeat (method : Method) (below : List Method) :
    collapse (method :: method :: below) = collapse (method :: below) := by
  rw [collapse, List.head?_cons, if_pos rfl]

theorem collapse_cons {method other : Method} (h : other ≠ method) (below : List Method) :
    collapse (method :: other :: below) = method :: collapse (other :: below) := by
  rw [collapse, List.head?_cons, if_neg (fun heq => h (Option.some.inj heq))]

theorem head?_collapse : ∀ (methods : List Method), (collapse methods).head? = methods.head? := by
  intro methods
  induction methods with
  | nil => rfl
  | cons method below ih =>
      rw [collapse]
      split
      · next hsame => rw [ih, hsame, List.head?_cons]
      · rfl

variable {α : Type}

/-! ## Frames and open calls -/

/-- The frames of a stack are the open calls, each on the node of its path. -/
inductive Matches (profile : Profile α) : List (Frame α) → List OpenEntry → Prop
  | nil : Matches profile [] []
  | cons {frame : Frame α} {frames : List (Frame α)} {entry : OpenEntry}
      {entries : List OpenEntry} (below : Matches profile frames entries)
      (path : profile.path frame.node = Trail.pathOf (entry :: entries))
      (passes : entry.passes = frame.passes) (site : entry.site = frame.site) :
      Matches profile (frame :: frames) (entry :: entries)

namespace Matches

variable {profile other : Profile α} {frames : List (Frame α)} {entries : List OpenEntry}

theorem of_paths (h : Matches profile frames entries)
    (hpath : ∀ frame ∈ frames, other.path frame.node = profile.path frame.node) :
    Matches other frames entries := by
  induction h with
  | nil => exact .nil
  | cons _ path passes site ih =>
      refine .cons (ih fun frame hmem => hpath frame (List.mem_cons_of_mem _ hmem)) ?_ passes site
      rw [hpath _ List.mem_cons_self, path]

/-- The innermost frame and the innermost open call change together. -/
theorem modifyHead {stack : Stack α} (h : Matches profile stack.frames entries)
    {change : Frame α → Frame α} {alter : OpenEntry → OpenEntry}
    (hnode : ∀ frame, (change frame).node = frame.node)
    (hmethod : ∀ entry, (alter entry).method = entry.method)
    (hpasses : ∀ frame entry, entry.passes = frame.passes →
      (alter entry).passes = (change frame).passes)
    (hsite : ∀ frame entry, entry.site = frame.site → (alter entry).site = (change frame).site) :
    Matches profile (stack.modifyTop change).frames (entries.modifyHead alter) := by
  obtain ⟨frames, capacity⟩ := stack
  cases h with
  | nil => exact .nil
  | cons below path passes site =>
      refine .cons below ?_ (hpasses _ _ passes) (hsite _ _ site)
      rw [hnode, path, Trail.pathOf, Trail.pathOf, List.map_cons, List.map_cons, hmethod]

/-- A change that the open calls do not notice. -/
theorem modifyTop {stack : Stack α} (h : Matches profile stack.frames entries)
    {change : Frame α → Frame α} (hnode : ∀ frame, (change frame).node = frame.node)
    (hpasses : ∀ frame, (change frame).passes = frame.passes)
    (hsite : ∀ frame, (change frame).site = frame.site) :
    Matches profile (stack.modifyTop change).frames entries := by
  have hsame : Matches profile (stack.modifyTop change).frames (entries.modifyHead id) :=
    h.modifyHead hnode (fun _ => rfl) (fun frame entry heq => heq.trans (hpasses frame).symm)
      fun frame entry heq => heq.trans (hsite frame).symm
  rwa [List.modifyHead_id] at hsame

theorem samePlace {stack : Stack α} (h : Matches profile stack.frames entries)
    {change : Frame α → Frame α} (hchange : ∀ frame : Frame α, frame.SamePlace (change frame)) :
    Matches profile (stack.modifyTop change).frames entries :=
  h.modifyTop (fun frame => congrArg OpenCall.node (hchange frame).openCall)
    (fun frame => (hchange frame).passes) fun frame => (hchange frame).site

end Matches

/-! ## The trie of the calls -/

/-- The tree has a node for every path that was called, in the order in which the paths first
came up; each counts the calls that led there and shows where the first one stood. -/
structure Trie (calls : List RecordedCall) (profile : Profile α) : Prop where
  paths : (List.range profile.tree.size).map profile.path = (calls.map (·.path)).eraseDups
  called : ∀ {id : Nat} {node : Node α}, profile.tree.node? id = some node →
    node.measurement.called = calls.countP (·.path = profile.path id)
  site : ∀ {id : Nat} {node : Node α}, profile.tree.node? id = some node →
    (calls.find? (·.path = profile.path id)).map (·.site) = some node.site

namespace Trie

variable {profile other : Profile α} {calls : List RecordedCall}

theorem empty [Amount α] : Trie [] (Profile.empty : Profile α) where
  paths := rfl
  called hid := absurd (CallTree.node?_lt hid) (Nat.not_lt_zero _)
  site hid := absurd (CallTree.node?_lt hid) (Nat.not_lt_zero _)

/-- The paths of a tree are those of the calls. -/
theorem hasPath_iff (h : Trie calls profile) {path : List Method} :
    profile.HasPath path ↔ path ∈ calls.map (·.path) := by
  rw [← List.mem_eraseDups, ← h.paths, List.mem_map]
  exact exists_congr fun id => and_congr_left fun _ => List.mem_range.symm

/-- What does not touch paths, counts and call sites. -/
theorem of_profile (h : Trie calls profile) (hsize : other.tree.size = profile.tree.size)
    (hpath : ∀ id < profile.tree.size, other.path id = profile.path id)
    (hnodes : ∀ {id : Nat} {node : Node α}, other.tree.node? id = some node →
      ∃ before, profile.tree.node? id = some before ∧
        node.measurement.called = before.measurement.called ∧ node.site = before.site) :
    Trie calls other where
  paths := by
    rw [hsize, ← h.paths]
    exact List.map_congr_left fun id hid => hpath id (List.mem_range.mp hid)
  called {id node} hid := by
    obtain ⟨before, hbefore, hcalled, -⟩ := hnodes hid
    rw [hcalled, hpath id (CallTree.node?_lt hbefore)]
    exact h.called hbefore
  site {id node} hid := by
    obtain ⟨before, hbefore, -, hsite⟩ := hnodes hid
    rw [hsite, hpath id (CallTree.node?_lt hbefore)]
    exact h.site hbefore

/-- What neither adds a node nor counts a call. -/
theorem of_shape (h : Trie calls profile) (hs : profile.Sound) (hshape : profile.SameShape other)
    (hcalled : ∀ {id : Nat} {node before : Node α}, other.tree.node? id = some node →
      profile.tree.node? id = some before →
        node.measurement.called = before.measurement.called) : Trie calls other := by
  refine h.of_profile hshape.size
    (fun id hid => hshape.grows.path_eq hs (hs.of_shape hshape) hid) fun {id node} hid => ?_
  obtain ⟨before, hbefore, horigin, -⟩ := hshape.node? hid
  exact ⟨before, hbefore, hcalled hid hbefore, (Node.of_origin horigin).2.2.2.symm⟩

/-- A call that leads to a path that was there. -/
theorem again [Amount α] (h : Trie calls profile) (hs : profile.Sound) {call : RecordedCall}
    {id : Nat} (hid : id < profile.tree.size) (hpath : profile.path id = call.path)
    (method : MethodId) : Trie (calls ++ [call]) (profile.enter id method) := by
  have hshape : profile.SameShape (profile.enter id method) := Profile.sameShape_enter id method
  have hpaths : ∀ i < profile.tree.size, (profile.enter id method).path i = profile.path i :=
    fun i hi => hshape.grows.path_eq hs (hs.of_shape hshape) hi
  have hknown : call.path ∈ calls.map (·.path) := h.hasPath_iff.mp ⟨id, hid, hpath⟩
  have hnodes : ∀ {i : Nat} {after : Node α},
      (profile.enter id method).tree.node? i = some after →
        ∃ before, profile.tree.node? i = some before ∧ after.site = before.site ∧
          after.measurement.called =
            before.measurement.called + if call.path = profile.path i then 1 else 0 := by
    intro i after hi
    obtain ⟨before, hbefore, ⟨rfl, rfl⟩ | ⟨hne, rfl⟩⟩ := CallTree.node?_modify_cases hi
    · rw [if_pos hpath.symm]
      exact ⟨before, hbefore, rfl, rfl⟩
    · have hother : call.path ≠ profile.path i := by
        rw [← hpath]
        exact fun heq => hne (hs.path_inj hid (CallTree.node?_lt hbefore) heq).symm
      rw [if_neg hother]
      exact ⟨after, hbefore, rfl, rfl⟩
  refine ⟨?_, fun {i after} hi => ?_, fun {i after} hi => ?_⟩
  · rw [hshape.size, List.map_append, List.map_singleton, eraseDups_concat_of_mem hknown,
      ← h.paths]
    exact List.map_congr_left fun i hi => hpaths i (List.mem_range.mp hi)
  · obtain ⟨before, hbefore, -, hcalled⟩ := hnodes hi
    rw [hcalled, hpaths i (CallTree.node?_lt hbefore), h.called hbefore, List.countP_append,
      List.countP_singleton]
    simp only [decide_eq_true_eq]
  · obtain ⟨before, hbefore, hsite, -⟩ := hnodes hi
    have hfirst := h.site hbefore
    obtain ⟨first, hfind, -⟩ := Option.map_eq_some_iff.mp hfirst
    rw [hpaths i (CallTree.node?_lt hbefore), List.find?_append, hfind, Option.some_or, hsite,
      ← hfirst, hfind]

/-- A call that leads to a new path. -/
theorem first [Amount α] (h : Trie calls profile) (hs : profile.Sound) {call : RecordedCall}
    {parent : Option NodeId} {method : Nat} {record : MethodRecord α}
    (hrecord : profile.methods.record? method = some record)
    (hparent : profile.HasParent parent)
    (hnew : profile.tree.childOf? parent record.key = none)
    (hpath : call.path = record.method :: profile.pathTo parent) :
    Trie (calls ++ [call])
      ((profile.attach parent method call.site).enter profile.tree.size method) := by
  have hattached := hs.attach call.site hrecord hparent hnew
  have hsize := Profile.size_attach parent call.site hrecord
  have hgrows := Profile.grows_attach call.site hrecord hparent
  have hshape : (profile.attach parent method call.site).SameShape
      ((profile.attach parent method call.site).enter profile.tree.size method) :=
    Profile.sameShape_enter _ _
  have hold : ∀ i < profile.tree.size,
      ((profile.attach parent method call.site).enter profile.tree.size method).path i =
        profile.path i := by
    intro i hi
    rw [hshape.grows.path_eq hattached (hattached.of_shape hshape) (by omega)]
    exact hgrows.path_eq hs hattached hi
  have hlast : ((profile.attach parent method call.site).enter profile.tree.size method).path
      profile.tree.size = call.path := by
    rw [hshape.grows.path_eq hattached (hattached.of_shape hshape) (by omega), hpath]
    exact hs.path_attach call.site hrecord hparent hnew
  have hunknown : call.path ∉ calls.map (·.path) := by
    rw [← h.hasPath_iff, hpath]
    exact (hs.childOf?_eq_none hparent hrecord).mp hnew
  have hothers : ∀ earlier ∈ calls, earlier.path ≠ call.path := by
    intro earlier hmem heq
    exact hunknown (heq ▸ List.mem_map_of_mem hmem)
  have hnodes : ∀ {i : Nat} {after : Node α},
      ((profile.attach parent method call.site).enter profile.tree.size method).tree.node? i =
        some after →
      (i = profile.tree.size ∧ after.measurement.called = 1 ∧ after.site = call.site) ∨
        ∃ before, profile.tree.node? i = some before ∧
          after.measurement.called = before.measurement.called ∧ after.site = before.site := by
    intro i after hi
    obtain ⟨linked, hlinked, hcase⟩ := CallTree.node?_modify_cases hi
    rw [Profile.attach_of_record hrecord] at hlinked
    rcases CallTree.node?_link_cases (hparent.fresh method record.key call.site) hlinked with
      ⟨rfl, rfl⟩ | ⟨before, hbefore, horigin, hcost, -⟩
    · rcases hcase with ⟨-, rfl⟩ | ⟨hne, -⟩
      · exact Or.inl ⟨rfl, rfl, rfl⟩
      · exact absurd rfl hne
    · rcases hcase with ⟨rfl, -⟩ | ⟨-, rfl⟩
      · exact absurd (CallTree.node?_lt hbefore) (Nat.lt_irrefl _)
      · exact Or.inr ⟨before, hbefore, congrArg Measurement.called hcost.symm,
          (Node.of_origin horigin).2.2.2.symm⟩
  refine ⟨?_, fun {i after} hi => ?_, fun {i after} hi => ?_⟩
  · rw [hshape.size, hsize, List.range_succ, List.map_append, List.map_append,
      List.map_singleton, List.map_singleton, eraseDups_concat hunknown, hlast, ← h.paths]
    exact congrArg (· ++ _) (List.map_congr_left fun i hi => hold i (List.mem_range.mp hi))
  · rw [List.countP_append, List.countP_singleton]
    rcases hnodes hi with ⟨rfl, hcalled, -⟩ | ⟨before, hbefore, hcalled, -⟩
    · rw [hcalled, hlast, List.countP_eq_zero.mpr]
      · simp
      · simpa using hothers
    · have hne : call.path ≠ profile.path i := fun heq =>
        hunknown (h.hasPath_iff.mp ⟨i, CallTree.node?_lt hbefore, heq.symm⟩)
      rw [hcalled, hold i (CallTree.node?_lt hbefore), h.called hbefore]
      simp [hne]
  · rw [List.find?_append]
    rcases hnodes hi with ⟨rfl, -, hsite⟩ | ⟨before, hbefore, -, hsite⟩
    · rw [hlast, List.find?_eq_none.mpr (by simpa using hothers), hsite]
      simp
    · have hfirst := h.site hbefore
      obtain ⟨first, hfind, -⟩ := Option.map_eq_some_iff.mp hfirst
      rw [hold i (CallTree.node?_lt hbefore), hfind, Option.some_or, hsite, ← hfirst, hfind]

/-- A call under a parent. -/
theorem child [Amount α] (h : Trie calls profile) (hs : profile.Sound) {call : RecordedCall}
    {parent : Option NodeId} {method : Nat} {record : MethodRecord α}
    (hrecord : profile.methods.record? method = some record)
    (hparent : profile.HasParent parent)
    (hpath : call.path = record.method :: profile.pathTo parent) :
    Trie (calls ++ [call])
      ((profile.child parent method call.site).1.enter (profile.child parent method call.site).2
        method) := by
  rw [Profile.child_of_record hrecord]
  cases hchild : profile.tree.childOf? parent record.key with
  | some id =>
      obtain ⟨hid, heq⟩ := (hs.childOf?_path hparent hrecord).mp hchild
      exact h.again hs hid (heq.trans hpath.symm) method
  | none => exact h.first hs hrecord hparent hchild hpath

end Trie

end CallLedger
