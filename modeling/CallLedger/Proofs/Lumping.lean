import CallLedger.Proofs.Recording
import CallLedger.Session.Basic

/-!
# Waiting counted as work

When a context waits is the business of the others. Whoever reads its measurements without telling
self time from waiting time sees nothing of that (`Reading`): either the two are added up, where
amounts are exact (`Reading.lumped`), or both are left out (`Reading.masked`). A frame then no
longer has to know since when another context has been running, and a context no longer notices that
it is made active, or that another one is (`Context.read_switchIn`, `Context.read_switchOut`).

Nothing else is lost. Contexts that read alike still do so when the same has been recorded on both
(`Session.read_record`). A settled invocation is the only place where the two times are written, and
whatever part of what the body took is put down as waiting there, it reads the same
(`Reading.settled`).
-/

namespace CallLedger

variable {α : Type} [Amount α]

/-! ## Readings -/

/-- A way to read measurements that does not tell self time from waiting time. -/
structure Reading (α : Type) [Amount α] where
  of : Measurement α → Measurement α
  twice : ∀ m, of (of m) = of m
  empty : of .empty = .empty
  totalTime : ∀ m, (of m).totalTime = m.totalTime
  entered : ∀ m, of { m with called := m.called + 1 } = { of m with called := (of m).called + 1 }
  /-- It makes no difference how much of what a body took was waiting. -/
  settled : ∀ (m : Measurement α) (body waited total : α),
    of { m with
      selfTime := m.selfTime + (body - waited)
      waitTime := m.waitTime + waited
      totalTime := total } =
    of { of m with
      selfTime := (of m).selfTime + (body - 0)
      waitTime := (of m).waitTime + 0
      totalTime := total }

/-- Neither of the two times is read. -/
def Reading.masked : Reading α where
  of m := { m with selfTime := 0, waitTime := 0 }
  twice _ := rfl
  empty := rfl
  totalTime _ := rfl
  entered _ := rfl
  settled _ _ _ _ := rfl

section

variable {α : Type} [ExactAmount α]

def Measurement.lumped (m : Measurement α) : Measurement α :=
  { m with selfTime := m.selfTime + m.waitTime, waitTime := 0 }

def MethodRecord.lumped (record : MethodRecord α) : MethodRecord α :=
  { record with measurement := record.measurement.lumped }

def Registry.lumped (methods : Registry α) : Registry α :=
  ⟨methods.records.map MethodRecord.lumped⟩

def Node.lumped (node : Node α) : Node α :=
  { node with measurement := node.measurement.lumped }

def CallTree.lumped (tree : CallTree α) : CallTree α :=
  { tree with nodes := tree.nodes.map Node.lumped }

def Profile.lumped (profile : Profile α) : Profile α :=
  ⟨profile.methods.lumped, profile.tree.lumped⟩

/-- Waiting is read as work. -/
def Reading.lumped : Reading α where
  of := Measurement.lumped
  twice m := by simp only [Measurement.lumped, add_zero]
  empty := by
    show (⟨0 + 0, 0, 0, 0⟩ : Measurement α) = ⟨0, 0, 0, 0⟩
    rw [add_zero]
  totalTime _ := rfl
  entered _ := rfl
  settled m body waited total := by
    simp only [Measurement.lumped, sub_zero, add_zero, add_add_add_comm m.selfTime,
      sub_add_cancel]

end

variable (reading : Reading α)

def MethodRecord.read (record : MethodRecord α) : MethodRecord α :=
  { record with measurement := reading.of record.measurement }

def Registry.read (methods : Registry α) : Registry α :=
  ⟨methods.records.map (MethodRecord.read reading)⟩

def Node.read (node : Node α) : Node α :=
  { node with measurement := reading.of node.measurement }

def CallTree.read (tree : CallTree α) : CallTree α :=
  { tree with nodes := tree.nodes.map (Node.read reading) }

def Profile.read (profile : Profile α) : Profile α :=
  ⟨profile.methods.read reading, profile.tree.read reading⟩

/-- An invocation that knows nothing of its waits. -/
def Frame.unwaited (frame : Frame α) : Frame α :=
  { frame with switchedAt := none, switchDead := 0, waitTime := 0 }

def Stack.unwaited (stack : Stack α) : Stack α :=
  { stack with frames := stack.frames.map Frame.unwaited }

/-- What a context looks like to one who cannot tell the two times apart. -/
def Context.read (context : Context α) : Context α :=
  { context with profile := context.profile.read reading, stack := context.stack.unwaited }

theorem Profile.read_lumped {α : Type} [ExactAmount α] (profile : Profile α) :
    profile.read .lumped = profile.lumped := rfl

/-! ## Measurements -/

/-- A change of one cell, seen through a view of all cells. -/
theorem map_modify_of_comm {β γ : Type} (cells : Array β) (id : Nat) {view : β → γ}
    (change : β → β) (seen : γ → γ) (h : ∀ cell, view (change cell) = seen (view cell)) :
    (cells.modify id change).map view = (cells.map view).modify id seen := by
  refine Array.ext_getElem? fun i => ?_
  rw [Array.getElem?_map, Array.getElem?_modify, Array.getElem?_modify, Array.getElem?_map]
  split
  · rw [Option.map_map, Option.map_map]
    exact congrArg (Option.map · _) (funext h)
  · rfl

/-- A change that has to be viewed again to look the same. -/
theorem map_modify_again {β : Type} (cells : Array β) (id : Nat) {view : β → β}
    (htwice : ∀ cell, view (view cell) = view cell) (change seen : β → β)
    (h : ∀ cell, view (change cell) = view (seen (view cell))) :
    (cells.modify id change).map view = ((cells.map view).modify id seen).map view := by
  refine Array.ext_getElem? fun i => ?_
  simp only [Array.getElem?_map, Array.getElem?_modify]
  split
  · simp only [Option.map_map]
    exact congrArg (Option.map · _) (funext h)
  · rw [Option.map_map]
    exact congrArg (Option.map · _) (funext fun cell => (htwice cell).symm)

theorem MethodRecord.read_read (record : MethodRecord α) :
    (record.read reading).read reading = record.read reading := by
  unfold read
  rw [reading.twice]

theorem Node.read_read (node : Node α) : (node.read reading).read reading = node.read reading := by
  unfold read
  rw [reading.twice]

theorem MethodRecord.read_entered (record : MethodRecord α) :
    record.entered.read reading = (record.read reading).entered := by
  simp only [MethodRecord.entered, read, reading.entered]
  rfl

theorem Node.read_entered (node : Node α) :
    node.entered.read reading = (node.read reading).entered := by
  simp only [Node.entered, read, reading.entered]

theorem MethodRecord.read_settled (record : MethodRecord α) (body waited total : α) :
    (record.settled (body - waited) waited total).read reading =
      ((record.read reading).settled (body - 0) 0 total).read reading := by
  simp only [settled, read, reading.totalTime, reading.settled record.measurement body waited]

theorem Node.read_settled (node : Node α) (body waited total : α) :
    (node.settled (body - waited) waited total).read reading =
      ((node.read reading).settled (body - 0) 0 total).read reading := by
  simp only [settled, read, reading.totalTime, reading.settled node.measurement body waited]

theorem Node.read_fresh (method : MethodId) (key : Key) (parent : Option NodeId)
    (site : CallSite) : (fresh method key parent site : Node α).read reading =
      fresh method key parent site := by
  simp only [fresh, read, reading.empty]

/-! ## Methods -/

namespace Registry

variable (methods : Registry α)

theorem record?_read (id : MethodId) :
    (methods.read reading).record? id = (methods.record? id).map (MethodRecord.read reading) := by
  unfold read record?
  rw [Array.getElem?_map]

theorem size_read : (methods.read reading).size = methods.size :=
  Array.size_map

theorem locate_read (method : Method) :
    (methods.read reading).locate method = methods.locate method := by
  have hnames : (methods.read reading).names = methods.names := by
    unfold read names
    rw [Array.map_map]
    rfl
  exact locate_congr hnames

theorem read_modify (id : MethodId) (change seen : MethodRecord α → MethodRecord α)
    (h : ∀ record, (change record).read reading = seen (record.read reading)) :
    (methods.modify id change).read reading = (methods.read reading).modify id seen :=
  congrArg mk (map_modify_of_comm methods.records id change seen h)

theorem read_lookupOrCreate (method : Method) (native : Bool) (source : Option SourceLocation)
    (exclusions : Exclusions) :
    (methods.read reading).lookupOrCreate method native source exclusions =
      ((methods.lookupOrCreate method native source exclusions).1.read reading,
        (methods.lookupOrCreate method native source exclusions).2) := by
  unfold lookupOrCreate
  rw [locate_read, size_read]
  cases methods.locate method with
  | found id => rfl
  | free key =>
      have hpush : ∀ record : MethodRecord α, record.measurement = .empty →
          (methods.read reading).push record = (methods.push record).read reading := by
        intro record hempty
        have hrecord : record.read reading = record := by
          rw [MethodRecord.read, hempty, reading.empty, ← hempty]
        unfold read push
        rw [Array.map_push, hrecord]
      exact congrArg (·, methods.size) (hpush _ rfl)

end Registry

/-! ## Call trees -/

namespace CallTree

variable (tree : CallTree α)

theorem node?_read (id : NodeId) :
    (tree.read reading).node? id = (tree.node? id).map (Node.read reading) := by
  unfold read node?
  rw [Array.getElem?_map]

theorem size_read : (tree.read reading).size = tree.size :=
  Array.size_map

theorem childOf?_read (parent : Option NodeId) (key : Key) :
    (tree.read reading).childOf? parent key = tree.childOf? parent key := by
  cases parent with
  | none => rfl
  | some id =>
      show ((tree.read reading).node? id).bind (·.child? key) = (tree.node? id).bind (·.child? key)
      rw [node?_read]
      cases tree.node? id with
      | none => rfl
      | some node => rfl

theorem read_modify (id : NodeId) (change seen : Node α → Node α)
    (h : ∀ node, (change node).read reading = seen (node.read reading)) :
    (tree.modify id change).read reading = (tree.read reading).modify id seen :=
  congrArg (mk · _) (map_modify_of_comm tree.nodes id change seen h)

theorem read_link {node : Node α} (hnode : node.read reading = node) :
    (tree.link node).read reading = (tree.read reading).link node := by
  have hpush : (tree.nodes.push node).map (Node.read reading) =
      (tree.read reading).nodes.push node := by
    rw [Array.map_push, hnode]
    rfl
  cases hparent : node.parent with
  | none =>
      simp only [link, hparent, size_read]
      exact congrArg (mk · _) hpush
  | some parent =>
      simp only [link, hparent, size_read]
      refine congrArg (mk · _) ?_
      rw [← hpush]
      exact map_modify_of_comm (tree.nodes.push node) parent
        (fun p => { p with links := p.links.insert node.key tree.size }) _ fun _ => rfl

end CallTree

/-! ## Profiles -/

namespace Profile

variable (profile : Profile α)

theorem read_read : (profile.read reading).read reading = profile.read reading := by
  simp only [read, Registry.read, CallTree.read, Array.map_map, Function.comp_def,
    MethodRecord.read_read, Node.read_read]

theorem methodOf?_read (id : NodeId) :
    (profile.read reading).methodOf? id = profile.methodOf? id := by
  show ((profile.tree.read reading).node? id).map _ = (profile.tree.node? id).map _
  rw [CallTree.node?_read, Option.map_map]
  rfl

theorem read_modifyMethod (id : MethodId) (change seen : MethodRecord α → MethodRecord α)
    (h : ∀ record, (change record).read reading = seen (record.read reading)) :
    (profile.modifyMethod id change).read reading = (profile.read reading).modifyMethod id seen :=
  congrArg (mk · _) (profile.methods.read_modify reading id change seen h)

theorem read_modifyNode (id : NodeId) (change seen : Node α → Node α)
    (h : ∀ node, (change node).read reading = seen (node.read reading)) :
    (profile.modifyNode id change).read reading = (profile.read reading).modifyNode id seen :=
  congrArg (mk _ ·) (profile.tree.read_modify reading id change seen h)

theorem read_attach (parent : Option NodeId) (method : MethodId) (site : CallSite) :
    (profile.attach parent method site).read reading =
      (profile.read reading).attach parent method site := by
  have hmethods : (profile.read reading).methods.record? method =
      (profile.methods.record? method).map (MethodRecord.read reading) :=
    profile.methods.record?_read reading method
  have hsize : (profile.read reading).tree.size = profile.tree.size :=
    profile.tree.size_read reading
  unfold attach
  rw [hmethods, hsize]
  cases profile.methods.record? method with
  | none => rfl
  | some record =>
      exact congrArg₂ mk (profile.methods.read_modify reading method
        (fun r => { r with nodes := r.nodes.push profile.tree.size }) _ fun _ => rfl)
        (profile.tree.read_link reading (Node.read_fresh reading _ _ _ _))

theorem read_child (parent : Option NodeId) (method : MethodId) (site : CallSite) :
    (profile.read reading).child parent method site =
      ((profile.child parent method site).1.read reading,
        (profile.child parent method site).2) := by
  have hmethods : (profile.read reading).methods.record? method =
      (profile.methods.record? method).map (MethodRecord.read reading) :=
    profile.methods.record?_read reading method
  have hexisting : (do
      let record ← (profile.read reading).methods.record? method
      (profile.read reading).tree.childOf? parent record.key) = (do
      let record ← profile.methods.record? method
      profile.tree.childOf? parent record.key) := by
    rw [hmethods]
    cases profile.methods.record? method with
    | none => rfl
    | some record => exact profile.tree.childOf?_read reading parent record.key
  unfold child
  rw [hexisting, ← read_attach, show (profile.read reading).tree.size = profile.tree.size from
    profile.tree.size_read reading]
  simp only []
  split
  · rfl
  · rfl

theorem read_enter (node : NodeId) (method : MethodId) :
    (profile.enter node method).read reading = (profile.read reading).enter node method := by
  unfold enter
  rw [read_modifyMethod reading _ method .entered .entered (·.read_entered reading),
    read_modifyNode reading _ node .entered .entered (·.read_entered reading)]

/-- What is settled as waiting time may as well be settled as self time. -/
theorem read_settle (node : NodeId) (method : MethodId) (body waited total : α) :
    (profile.settle node method (body - waited) waited total).read reading =
      ((profile.read reading).settle node method (body - 0) 0 total).read reading := by
  refine congrArg₂ (fun records nodes =>
    (⟨⟨records⟩, nodes, profile.tree.rootLinks⟩ : Profile α)) ?_ ?_
  · exact map_modify_again profile.methods.records method (MethodRecord.read_read reading)
      (·.settled (body - waited) waited total) (·.settled (body - 0) 0 total)
      (·.read_settled reading body waited total)
  · exact map_modify_again profile.tree.nodes node (Node.read_read reading)
      (·.settled (body - waited) waited total) (·.settled (body - 0) 0 total)
      (·.read_settled reading body waited total)

end Profile

/-! ## Stacks -/

namespace Frame

variable (frame : Frame α) (now : α)

theorem unwaited_pause : (frame.pause now).unwaited = frame.unwaited.pause now := by
  obtain ⟨_, _, _, pausedAt⟩ := frame
  cases pausedAt with
  | none => rfl
  | some paused => rfl

theorem unwaited_unpause : (frame.unpause now).unwaited = frame.unwaited.unpause now := by
  obtain ⟨_, _, _, pausedAt⟩ := frame
  cases pausedAt with
  | none => rfl
  | some paused => rfl

theorem unwaited_switchIn : (frame.switchIn now).unwaited = frame.unwaited := by
  unfold switchIn
  split
  · rfl
  · rfl

end Frame

namespace Stack

variable (stack : Stack α) (profile : Profile α)

theorem unwaited_unwaited : stack.unwaited.unwaited = stack.unwaited := by
  unfold unwaited
  rw [List.map_map]
  rfl

theorem unwaited_modifyTop (change seen : Frame α → Frame α)
    (h : ∀ frame, (change frame).unwaited = seen frame.unwaited) :
    (stack.modifyTop change).unwaited = stack.unwaited.modifyTop seen := by
  obtain ⟨frames, capacity⟩ := stack
  cases frames with
  | nil => rfl
  | cons top rest =>
      show (⟨(change top).unwaited :: rest.map Frame.unwaited, capacity⟩ : Stack α) =
        ⟨seen top.unwaited :: rest.map Frame.unwaited, capacity⟩
      rw [h]

theorem unwaited_pause (now : α) : (stack.pause now).unwaited = stack.unwaited.pause now :=
  stack.unwaited_modifyTop _ _ (·.unwaited_pause now)

theorem unwaited_unpause (now : α) : (stack.unpause now).unwaited = stack.unwaited.unpause now :=
  stack.unwaited_modifyTop _ _ (·.unwaited_unpause now)

theorem unwaited_grow (frame : Frame α) :
    (stack.grow frame).unwaited = stack.unwaited.grow frame.unwaited := by
  unfold grow depth unwaited
  simp only [List.map_cons, List.length_map]

theorem read_push (node : NodeId) (now : α) (paused : Bool) :
    stack.unwaited.push (profile.read reading) node now paused =
      ((stack.push profile node now paused).1.unwaited,
        (stack.push profile node now paused).2.read reading) := by
  unfold push
  rw [profile.methodOf?_read]
  cases profile.methodOf? node with
  | none => rfl
  | some method =>
      simp only []
      rw [unwaited_grow, unwaited_unpause, Profile.read_enter]
      cases paused with
      | false => rfl
      | true => rfl

theorem unwaited_pop (now : α) :
    (stack.pop profile now).2.1.unwaited =
      (stack.unwaited.pop (profile.read reading) now).2.1 := by
  obtain ⟨frames, capacity⟩ := stack
  unfold pop
  cases frames with
  | nil => rfl
  | cons top rest =>
      have hpass : top.unwaited.isPass = top.isPass := rfl
      simp only [unwaited, List.map_cons, hpass]
      split
      · rfl
      · rw [← Frame.unwaited_unpause]
        generalize top.unpause now = frame
        exact unwaited_modifyTop ⟨rest, capacity⟩
          (·.credit (frame.totalTime now) frame.deadTime) _ fun _ => rfl

/-- What is settled as self time is all that the body took. -/
theorem read_pop (now : α) :
    (stack.pop profile now).2.2.read reading =
      (stack.unwaited.pop (profile.read reading) now).2.2.read reading := by
  obtain ⟨frames, capacity⟩ := stack
  unfold pop
  cases frames with
  | nil => exact (profile.read_read reading).symm
  | cons top rest =>
      have hpass : top.unwaited.isPass = top.isPass := rfl
      simp only [unwaited, List.map_cons, hpass]
      split
      · exact (profile.read_read reading).symm
      · rw [← Frame.unwaited_unpause]
        exact profile.read_settle reading _ _ _ _ _

theorem pending_unwaited : pending stack.unwaited.frames = pending stack.frames := by
  unfold pending unwaited
  rw [List.foldr_map]
  rfl

/-- Returns that are handled alike leave alike what was so before. -/
theorem read_popTimes (now : α) : ∀ (times : Nat) {stack other : Stack α}
    {profile others : Profile α}, stack.unwaited = other.unwaited →
      profile.read reading = others.read reading →
        (popTimes times stack profile now).1.unwaited =
            (popTimes times other others now).1.unwaited ∧
          (popTimes times stack profile now).2.read reading =
            (popTimes times other others now).2.read reading := by
  intro times
  induction times with
  | zero => exact fun hstack hprofile => ⟨hstack, hprofile⟩
  | succ times ih =>
      intro stack other profile others hstack hprofile
      have hpopped : (stack.pop profile now).2.1.unwaited =
          (other.pop others now).2.1.unwaited := by
        rw [unwaited_pop reading, hstack, hprofile, ← unwaited_pop reading]
      have hsettled : (stack.pop profile now).2.2.read reading =
          (other.pop others now).2.2.read reading := by
        rw [read_pop reading, hstack, hprofile, ← read_pop reading]
      exact ih hpopped hsettled

theorem enclosing?_read (stack : Stack α) (methods : Registry α) (file : String) (line : UInt32) :
    stack.unwaited.enclosing? (methods.read reading) file line =
      stack.enclosing? methods file line := by
  unfold enclosing? unwaited
  rw [List.findSome?_map]
  refine congrArg (List.findSome? · stack.frames) (funext fun frame => ?_)
  simp only [Function.comp_apply, Registry.record?_read]
  show ((methods.record? frame.method).map (MethodRecord.read reading)).bind _ = _
  cases methods.record? frame.method with
  | none => rfl
  | some record => rfl

end Stack

/-! ## Contexts -/

namespace Context

variable (context : Context α)

theorem read_read : (context.read reading).read reading = context.read reading := by
  unfold read
  rw [Profile.read_read, Stack.unwaited_unwaited]

theorem read_fresh (key : ContextKey) (traced : Bool) (capacity : Nat) :
    (fresh key traced capacity : Context α).read reading = fresh key traced capacity := by
  have hempty : (Profile.empty : Profile α).read reading = .empty := by
    simp only [Profile.read, Profile.empty, Registry.read, Registry.empty, CallTree.read,
      CallTree.empty, Array.map_empty]
  exact congrArg (Context.mk _ _ · _) hempty

theorem read_switchIn (now : α) : (context.switchIn now).read reading = context.read reading := by
  have hstack : (context.stack.modifyTop (·.switchIn now)).unwaited = context.stack.unwaited := by
    rw [Stack.unwaited_modifyTop _ _ id (·.unwaited_switchIn now)]
    obtain ⟨frames, capacity⟩ := context.stack
    cases frames with
    | nil => rfl
    | cons top rest => rfl
  exact congrArg (Context.mk _ _ _ ·) hstack

theorem read_switchOut (now : α) :
    (context.switchOut now).read reading = context.read reading := by
  have hstack : (context.stack.modifyTop (·.switchOut now)).unwaited = context.stack.unwaited := by
    obtain ⟨frames, capacity⟩ := context.stack
    cases frames with
    | nil => rfl
    | cons top rest => rfl
  exact congrArg (Context.mk _ _ _ ·) hstack

theorem read_pause (now : α) :
    (context.pause now).read reading = (context.read reading).pause now :=
  congrArg (Context.mk _ _ _ ·) (context.stack.unwaited_pause now)

theorem read_resume (now : α) :
    (context.resume now).read reading = (context.read reading).resume now :=
  congrArg (Context.mk _ _ _ ·) (context.stack.unwaited_unpause now)

theorem read_moved (event : Event α) :
    (context.moved event).read reading = (context.read reading).moved event :=
  congrArg (Context.mk _ _ _ ·) (context.stack.unwaited_modifyTop _ _ fun _ => rfl)

theorem read_allocated (event : Event α) :
    (context.allocated event).read reading = (context.read reading).allocated event := by
  unfold allocated
  rw [show (context.read reading).stack = context.stack.unwaited from rfl,
    show (context.read reading).profile.methods = context.profile.methods.read reading from rfl]
  cases event.file with
  | none => rfl
  | some file =>
      cases event.allocation with
      | none => rfl
      | some object =>
          simp only []
          rw [Stack.enclosing?_read]
          cases context.stack.enclosing? context.profile.methods file event.line with
          | none => rfl
          | some method =>
              refine congrArg (Context.mk _ _ · _) ?_
              exact context.profile.read_modifyMethod reading method _ _ fun _ => rfl

theorem enterNode_read (method : MethodId) :
    (context.read reading).enterNode method =
      ((context.enterNode method).1.read reading, (context.enterNode method).2) := by
  have htop : (context.read reading).stack.top? = context.stack.top?.map Frame.unwaited := by
    show (context.stack.frames.map Frame.unwaited).head? = context.stack.frames.head?.map _
    rw [List.head?_map]
  unfold enterNode
  rw [htop]
  cases context.stack.top? with
  | none =>
      simp only [Option.map_none]
      rw [← Profile.read_child, Profile.read_modifyMethod reading _ method _
        ({ · with root := true }) fun _ => rfl]
      rfl
  | some frame =>
      have hmethod : frame.unwaited.method = frame.method := rfl
      simp only [Option.map_some, hmethod]
      split
      · rfl
      · exact Profile.read_child _ _ _ _ _

theorem read_openCall (method : MethodId) (event : Event α) (paused : Bool) :
    (context.openCall method event paused).read reading =
      (context.read reading).openCall method event paused := by
  unfold openCall
  rw [enterNode_read]
  simp only []
  rw [show (context.read reading).stack = context.stack.unwaited from rfl, Stack.read_push]
  refine congrArg (Context.mk _ _ _ ·) ?_
  exact Stack.unwaited_modifyTop _ _ ({ · with file := event.file, line := event.line })
    fun _ => rfl

theorem read_called (event : Event α) (exclusions : Exclusions) (paused : Bool) :
    (context.called event exclusions paused).read reading =
      (context.read reading).called event exclusions paused := by
  have hpass : ∀ context : Context α,
      ({ context with stack := context.stack.pass } : Context α).read reading =
        { context.read reading with stack := (context.read reading).stack.pass } := by
    intro context
    refine congrArg (Context.mk _ _ _ ·) ?_
    exact context.stack.unwaited_modifyTop _ (fun top => { top with passes := top.passes + 1 })
      fun _ => rfl
  unfold called
  cases event.method? with
  | none => exact hpass context
  | some method =>
      simp only []
      rw [show (context.read reading).profile.methods = context.profile.methods.read reading
        from rfl, Registry.read_lookupOrCreate]
      generalize context.profile.methods.lookupOrCreate method _ _ exclusions = found
      obtain ⟨methods, id⟩ := found
      have hexcluded : ((methods.read reading).record? id).any (·.excluded) =
          (methods.record? id).any (·.excluded) := by
        rw [Registry.record?_read]
        cases methods.record? id with
        | none => rfl
        | some record => rfl
      simp only [hexcluded]
      split
      · exact hpass { context with profile := { context.profile with methods := methods } }
      · exact read_openCall reading
          { context with profile := { context.profile with methods := methods } } id event paused

variable {context} {other : Context α} (h : context.read reading = other.read reading)
include h

theorem read_unwind (now : α) :
    (context.unwind now).read reading = (other.unwind now).read reading := by
  have hstack : context.stack.unwaited = other.stack.unwaited := congrArg Context.stack h
  obtain ⟨hstacks, hprofiles⟩ := Stack.read_popTimes reading now
    (Stack.pending context.stack.frames) hstack (congrArg Context.profile h)
  have hpending : Stack.pending context.stack.frames = Stack.pending other.stack.frames := by
    rw [← Stack.pending_unwaited, hstack, Stack.pending_unwaited]
  have hkey : context.key = other.key := (congrArg Context.key h :)
  have htraced : context.traced = other.traced := (congrArg Context.traced h :)
  unfold unwind Stack.unwind read
  rw [hpending] at hstacks hprofiles ⊢
  rw [hkey, htraced, hstacks, hprofiles]

theorem read_returned (now : α) (paused : Bool) :
    (context.returned now paused).read reading = (other.returned now paused).read reading := by
  have hkey : context.key = other.key := (congrArg Context.key h :)
  have htraced : context.traced = other.traced := (congrArg Context.traced h :)
  obtain ⟨hstack, hprofile⟩ := Stack.read_popTimes reading now 1
    (congrArg Context.stack h : context.stack.unwaited = other.stack.unwaited)
    (congrArg Context.profile h)
  simp only [Stack.popTimes] at hstack hprofile
  unfold returned read
  rw [hkey, htraced, hprofile]
  cases paused with
  | false => simp only [Bool.false_eq_true, if_false, hstack]
  | true => simp only [if_true, Stack.unwaited_pause, hstack]

end Context

/-! ## Recording -/

/-- Contexts that read alike do so when the same has been recorded on both. -/
theorem Session.read_record (session : Session α) (event : Event α) {context other : Context α}
    (h : context.read reading = other.read reading) :
    (session.record event context).read reading = (session.record event other).read reading := by
  have htraced : context.traced = other.traced := (congrArg Context.traced h :)
  unfold record
  rw [htraced]
  split
  · split
    · rw [Context.read_called, h, ← Context.read_called]
    · rw [Context.read_called, h, ← Context.read_called]
    · exact Context.read_returned reading h _ _
    · exact Context.read_returned reading h _ _
    · rw [Context.read_moved, h, ← Context.read_moved]
    · split
      · rw [Context.read_allocated, h, ← Context.read_allocated]
      · exact h
  · exact h

end CallLedger
