import CallLedger.Proofs.Unbroken

/-!
# The life of a session

What a session may do is read off its phase (`Phase.allows`), and so is the phase that comes
next (`Phase.next`). Every operation that is allowed is carried out, and every other one is refused
at once (`Session.carry_allowed`, `Session.carry_refused`). A session is idle as long as nothing
has put an end to that: it was made and not loaded, and was neither started nor torn down. Once
it is finished it stays so, and only folding and releasing contexts still change it.

A session that is loaded is finished. This matters, because a dump may list a key twice, and then
the index leads to one of the two contexts only. No operation that goes by keys is allowed then.
-/

namespace CallLedger

variable {α : Type}

/-! ## The state machine -/

namespace Operation

/-- The operations that put an end to idleness. -/
def commits : Operation α → Bool
  | .start _ | .teardown => true
  | _ => false

/-- The operations that come before a run, and the one that begins it. -/
def setsUp : Operation α → Bool
  | .setMeasureMode _ | .excludeMethod _ | .setThreadFilter _ | .start _ => true
  | _ => false

/-- The operations on a run. -/
def steers : Operation α → Bool
  | .pause _ | .resume _ | .stop _ => true
  | _ => false

def finishes : Operation α → Bool
  | .stop _ | .teardown => true
  | _ => false

/-- What an operation is called when it is refused. -/
def control? : Operation α → Option ControlOperation
  | .setMeasureMode _ => some .changeMeasureMode
  | .excludeMethod _ => some .excludeMethods
  | .setThreadFilter _ => some .changeThreadFilter
  | .start _ => some .start
  | .pause _ => some .pause
  | .resume _ => some .resume
  | .stop _ => some .stop
  | .mergeFibers => some .mergeFibers
  | .event _ | .teardown => none

end Operation

namespace Phase

def allows (phase : Phase) : Operation α → Bool
  | .setMeasureMode _ | .excludeMethod _ | .setThreadFilter _ | .start _ => phase = .idle
  | .pause _ | .resume _ | .stop _ => phase.isActive
  | .mergeFibers => !phase.isActive
  | .event _ | .teardown => true

def next (phase : Phase) : Operation α → Phase
  | .start _ => if phase = .idle then .running else phase
  | .pause _ => if phase = .running then .paused else phase
  | .resume _ => if phase = .paused then .running else phase
  | .stop _ => if phase.isActive then .finished else phase
  | .teardown => .finished
  | .setMeasureMode _ | .excludeMethod _ | .setThreadFilter _ | .event _ | .mergeFibers => phase

theorem next_eq_idle {phase : Phase} {operation : Operation α} :
    phase.next operation = .idle ↔ phase = .idle ∧ operation.commits = false := by
  cases operation <;> cases phase <;> simp [next, Operation.commits, isActive]

theorem next_finished (operation : Operation α) : Phase.finished.next operation = .finished := by
  cases operation <;> rfl

end Phase

namespace Session

variable [Amount α] {session : Session α}

theorem phase_after (session : Session α) (operation : Operation α) :
    (session.after operation).phase = session.phase.next operation := by
  obtain ⟨config, filter, exclusions, contexts, phase⟩ := session
  cases operation <;> cases phase <;> rfl

/-- Of the operations that are always allowed, a finished session takes in none but one. -/
theorem after_finished (hphase : session.phase = .finished) {operation : Operation α}
    (hmerge : operation ≠ .mergeFibers) (hteardown : operation ≠ .teardown) :
    session.after operation = session := by
  obtain ⟨config, filter, exclusions, contexts, phase⟩ := session
  cases hphase
  cases operation with
  | mergeFibers => exact absurd rfl hmerge
  | teardown => exact absurd rfl hteardown
  | _ => rfl

theorem perform_allowed {operation : Operation α} (h : session.phase.allows operation = true) :
    ∃ next, session.perform operation = .ok next := by
  obtain ⟨config, filter, exclusions, contexts, phase⟩ := session
  cases operation <;> cases phase <;> first | exact ⟨_, rfl⟩ | cases h

/-- An error that names an operation and the state that forbids it. During a run the measure
mode is refused by another name. -/
def Forbids (session : Session α) (operation : Operation α) (error : Error) : Prop :=
  ∃ control, operation.control? = some control ∧
    (error = .illegalState control session.phase.name ∨
      control = .changeMeasureMode ∧ error = .illegalState control "profiling")

theorem perform_refused {operation : Operation α} (h : session.phase.allows operation = false) :
    ∃ error, session.Forbids operation error ∧ session.perform operation = .error error := by
  obtain ⟨config, filter, exclusions, contexts, phase⟩ := session
  cases operation <;> cases phase <;> first
    | exact ⟨_, ⟨_, rfl, Or.inl rfl⟩, rfl⟩
    | exact ⟨_, ⟨_, rfl, Or.inr ⟨rfl, rfl⟩⟩, rfl⟩
    | cases h

/-! ## Step by step -/

theorem carry_allowed (hexact : session.phase ≠ .finished → session.contexts.Exact)
    {operation : Operation α} (h : session.phase.allows operation = true) :
    session.carry operation = (session.after operation, none) := by
  obtain ⟨next, hperform⟩ := perform_allowed h
  rw [carry_eq (fun hactive => hexact (not_finished hactive)), after, hperform]

theorem carry_refused (hexact : session.phase ≠ .finished → session.contexts.Exact)
    {operation : Operation α} (h : session.phase.allows operation = false) :
    ∃ error, session.Forbids operation error ∧
      session.carry operation = (session, some error) := by
  obtain ⟨error, hforbids, hperform⟩ := perform_refused h
  refine ⟨error, hforbids, ?_⟩
  rw [carry_eq (fun hactive => hexact (not_finished hactive)), hperform]

/-- An operation goes wrong when it is refused, and for no other reason. -/
theorem carry_snd (hexact : session.phase ≠ .finished → session.contexts.Exact)
    (operation : Operation α) :
    (session.carry operation).2 = none ↔ session.phase.allows operation = true := by
  cases hallowed : session.phase.allows operation with
  | true =>
      rw [carry_allowed hexact hallowed]
      exact iff_of_true rfl rfl
  | false =>
      obtain ⟨error, -, hcarry⟩ := carry_refused hexact hallowed
      rw [hcarry]
      exact iff_of_false nofun nofun

end Session

/-! ## Where sessions come from -/

inductive Beginning (α : Type) where
  | made (config : Config)
  | loaded (dump : Dump α)

namespace Beginning

def session [Amount α] : Beginning α → Except Error (Session α)
  | .made config => Session.ofConfig config
  | .loaded dump => (Session.ofDump dump).mapError .dump

/-- The session was made and not loaded, and has not been started or torn down. -/
def Untouched (beginning : Beginning α) (operations : List (Operation α)) : Prop :=
  (∃ config, beginning = .made config) ∧
    ∀ operation ∈ operations, operation ≠ .teardown ∧ ∀ now, operation ≠ .start now

theorem untouched_concat {beginning : Beginning α} {operations : List (Operation α)}
    {operation : Operation α} : beginning.Untouched (operations ++ [operation]) ↔
      beginning.Untouched operations ∧ operation.commits = false := by
  have hcommits : operation.commits = false ↔
      operation ≠ .teardown ∧ ∀ now, operation ≠ .start now := by
    cases operation <;> simp [Operation.commits]
  unfold Untouched
  rw [hcommits, List.forall_mem_append, List.forall_mem_singleton, and_assoc]

theorem finished_loaded [Amount α] {dump : Dump α} {first : Session α}
    (h : (loaded dump).session = .ok first) : first.phase = .finished := by
  change (Session.ofDump dump).mapError Error.dump = .ok first at h
  cases hload : Session.ofDump dump with
  | error cause => rw [hload] at h; cases h
  | ok loaded =>
      rw [hload] at h
      cases h
      obtain ⟨-, contexts, -, rfl⟩ := Session.ofDump_eq_ok.mp hload
      rfl

end Beginning

namespace Session

open ContextTable

variable [Amount α]

/-- What operations make of a session, step by step, from its beginning. -/
structure Grows (beginning : Beginning α) (operations : List (Operation α)) (session : Session α) :
    Prop where
  exact : session.phase ≠ .finished → session.contexts.Exact
  idle : session.phase = .idle ↔ beginning.Untouched operations

theorem Grows.begin {beginning : Beginning α} {session : Session α}
    (h : beginning.session = .ok session) : Grows beginning [] session := by
  cases beginning with
  | made config =>
      change ofConfig config = .ok session at h
      unfold ofConfig at h
      split at h
      · cases h
        exact ⟨fun _ => exact_empty, iff_of_true rfl ⟨⟨config, rfl⟩, nofun⟩⟩
      · cases h
  | loaded dump =>
      have hphase := Beginning.finished_loaded h
      refine ⟨fun hne => absurd hphase hne, iff_of_false ?_ ?_⟩
      · rw [hphase]
        nofun
      · rintro ⟨⟨config, hmade⟩, -⟩
        cases hmade

theorem Grows.carry {beginning : Beginning α} {operations : List (Operation α)}
    {session : Session α} (h : Grows beginning operations session) (operation : Operation α) :
    Grows beginning (operations ++ [operation]) (session.carry operation).1 := by
  rw [carry_fst fun hactive => h.exact (not_finished hactive)]
  refine ⟨fun hne => exact_after (h.exact fun hfinished => hne ?_) operation, ?_⟩
  · rw [phase_after, hfinished, Phase.next_finished]
  · rw [phase_after, Phase.next_eq_idle, Beginning.untouched_concat, h.idle]

theorem Grows.carried {beginning : Beginning α} {first : Session α}
    (h : beginning.session = .ok first) (operations : List (Operation α)) :
    Grows beginning operations (first.carried operations) := by
  induction operations using List.reverseRecOn with
  | nil => exact Grows.begin h
  | append_singleton operations operation ih =>
      unfold Session.carried
      rw [List.foldl_append]
      exact ih.carry operation

/-! ## What a session allows -/

/-- A session whose run is over. Events leave no trace in it any more. -/
structure Over (session : Session α) : Prop where
  stopped : session.phase.isActive = false
  unchanged : ∀ {operation : Operation α}, operation ≠ .mergeFibers → operation ≠ .teardown →
    (session.carry operation).1 = session
  dump : ∀ events : List (Event α), (session.carried (events.map .event)).dump = session.dump

theorem carry_finished {session : Session α} (hphase : session.phase = .finished)
    (operation : Operation α) : (session.carry operation).1 = session.after operation :=
  carry_fst (fun hactive => absurd hphase (not_finished hactive)) operation

theorem finished_carried {session : Session α} (hphase : session.phase = .finished)
    (operations : List (Operation α)) : (session.carried operations).phase = .finished := by
  induction operations using List.reverseRecOn with
  | nil => exact hphase
  | append_singleton operations operation ih =>
      unfold carried
      rw [List.foldl_append]
      show ((session.carried operations).carry operation).1.phase = .finished
      rw [carry_finished ih, phase_after, ih, Phase.next_finished]

theorem over_finished {session : Session α} (hphase : session.phase = .finished) :
    session.Over := by
  have hunchanged : ∀ {operation : Operation α}, operation ≠ .mergeFibers →
      operation ≠ .teardown → (session.carry operation).1 = session := by
    intro operation hmerge hteardown
    rw [carry_finished hphase, after_finished hphase hmerge hteardown]
  refine ⟨by rw [hphase]; rfl, hunchanged, fun events => congrArg dump ?_⟩
  induction events with
  | nil => rfl
  | cons event events ih =>
      have hevent : (session.carry (.event event)).1 = session := hunchanged nofun nofun
      show (session.carry (.event event)).1.carried (events.map .event) = session
      rw [hevent, ih]

/-- What can be said of a session by what was done with it since its beginning. -/
structure Lifecycle (beginning : Beginning α) (operations : List (Operation α))
    (session : Session α) : Prop where
  settingUp : ∀ {operation : Operation α}, operation.setsUp = true →
    ((session.carry operation).2 = none ↔
      session.phase.isActive = false ∧ beginning.Untouched operations)
  steering : ∀ {operation : Operation α}, operation.steers = true →
    ((session.carry operation).2 ≠ none ↔ session.phase.isActive = false)
  merging : (session.carry .mergeFibers).2 ≠ none ↔ session.phase.isActive = true
  event : ∀ event, (session.carry (.event event)).2 = none
  teardown : (session.carry .teardown).2 = none
  /-- An operation fails because the state forbids it, and then nothing has changed. -/
  refused : ∀ {operation : Operation α} {error : Error},
    (session.carry operation).2 = some error →
      session.Forbids operation error ∧ (session.carry operation).1 = session
  /-- What has ended a run has ended it for good. -/
  final : ∀ {operation : Operation α}, operation.finishes = true →
    (session.carry operation).2 = none →
      ∀ later : List (Operation α), ((session.carry operation).1.carried later).Over

theorem lifecycle {beginning : Beginning α} {first : Session α}
    (hbeginning : beginning.session = .ok first) (operations : List (Operation α)) :
    Lifecycle beginning operations (first.carried operations) := by
  have hgrows := Grows.carried hbeginning operations
  generalize first.carried operations = session at hgrows
  have hfails : ∀ operation : Operation α,
      (session.carry operation).2 ≠ none ↔ session.phase.allows operation = false := by
    intro operation
    rw [ne_eq, carry_snd hgrows.exact, Bool.not_eq_true]
  refine ⟨fun {operation} hsets => ?_, fun {operation} hsteers => ?_, ?_, fun event => ?_, ?_,
    fun {operation error} herror => ?_, fun {operation} hfinishes hdone later => ?_⟩
  · have hallows : session.phase.allows operation = true ↔ session.phase = .idle := by
      cases operation <;> first | exact decide_eq_true_iff | cases hsets
    rw [carry_snd hgrows.exact, hallows, ← hgrows.idle]
    exact ⟨fun hidle => ⟨by rw [hidle]; rfl, hidle⟩, And.right⟩
  · have hallows : session.phase.allows operation = session.phase.isActive := by
      cases operation <;> first | rfl | cases hsteers
    rw [hfails, hallows]
  · rw [hfails]
    show (!session.phase.isActive) = false ↔ session.phase.isActive = true
    rw [Bool.not_eq_false']
  · exact (carry_snd hgrows.exact _).mpr rfl
  · exact (carry_snd hgrows.exact _).mpr rfl
  · cases hallowed : session.phase.allows operation with
    | true =>
        rw [carry_allowed hgrows.exact hallowed] at herror
        cases herror
    | false =>
        obtain ⟨refusal, hforbids, hcarry⟩ := carry_refused hgrows.exact hallowed
        rw [hcarry] at herror ⊢
        cases herror
        exact ⟨hforbids, rfl⟩
  · have hallowed := (carry_snd hgrows.exact operation).mp hdone
    have hphase : (session.carry operation).1.phase = .finished := by
      rw [carry_allowed hgrows.exact hallowed, phase_after]
      cases operation with
      | stop now => exact if_pos hallowed
      | teardown => rfl
      | _ => cases hfinishes
    exact over_finished (finished_carried hphase later)

/-- A dump that lists one key twice. -/
theorem lifecycle_listed_twice : ∃ first : Session Int,
    (Beginning.loaded ⟨dumpVersion, programVersion, .wallTime,
      [⟨1, 0, [], []⟩, ⟨1, 0, [], []⟩]⟩).session = .ok first ∧
    (first.contexts.live.map fun entry => (entry.1, entry.2.key)) = [(0, ⟨1, 0⟩), (1, ⟨1, 0⟩)] ∧
    Lifecycle (.loaded ⟨dumpVersion, programVersion, .wallTime,
      [⟨1, 0, [], []⟩, ⟨1, 0, [], []⟩]⟩) [.mergeFibers] (first.carried [.mergeFibers]) := by
  have hloaded : (Beginning.loaded ⟨dumpVersion, programVersion, .wallTime,
      [⟨1, 0, [], []⟩, ⟨1, 0, [], []⟩]⟩).session = .ok (Session.ofContexts .wallTime
        [.settled ⟨1, 0⟩ (.empty : Profile Int), .settled ⟨1, 0⟩ .empty]) := rfl
  exact ⟨_, hloaded, by decide +kernel, lifecycle hloaded _⟩

end Session

end CallLedger
