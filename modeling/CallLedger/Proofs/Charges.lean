import CallLedger.Proofs.Dues
import CallLedger.Proofs.Roots

/-!
# What has been charged

When a call ends, its frame is charged to its node and to the record of its method:
self and waiting time in any case, inclusive time only when the visit counter says
that no other call of the node, or of the method, is open (`charged_settle`). Nothing
else that happens to a profile charges anything: not learning a method, nor
attaching a node, nor counting a call.
-/

namespace CallLedger

variable {α : Type} [ExactAmount α]

/-! ## What has been charged -/

/-- The inclusive time of a method record. -/
def Registry.timeOf (methods : Registry α) (id : MethodId) : α :=
  ((methods.record? id).map (·.measurement.totalTime)).getD 0

def Profile.charged (profile : Profile α) : Line → α
  | .selfTime node => (profile.tree.cost node).selfTime
  | .waitTime node => (profile.tree.cost node).waitTime
  | .totalTime node => (profile.tree.cost node).totalTime
  | .methodTime method => profile.methods.timeOf method

theorem Registry.timeOf_eq {methods : Registry α} {id : Nat} {record : MethodRecord α}
    (h : methods.record? id = some record) : methods.timeOf id = record.measurement.totalTime := by
  rw [timeOf, h]
  rfl

theorem Registry.timeOf_modify (methods : Registry α) (id other : Nat)
    (change : MethodRecord α → MethodRecord α) (time : α)
    (h : ∀ record, methods.record? id = some record →
      (change record).measurement.totalTime = record.measurement.totalTime + time)
    (hid : (methods.record? id).isSome ∨ time = 0) :
    (methods.modify id change).timeOf other =
      methods.timeOf other + if id = other then time else 0 := by
  unfold timeOf
  rw [record?_modify]
  by_cases heq : id = other
  · subst heq
    rw [if_pos rfl, if_pos rfl]
    cases hrecord : methods.record? id with
    | none =>
        rw [hrecord] at hid
        rcases hid with hsome | hzero
        · cases hsome
        · rw [hzero]
          exact (add_zero _).symm
    | some record => exact h record hrecord
  · rw [if_neg heq, if_neg heq, add_zero]

theorem Registry.timeOf_entered {methods after : Registry α} {method : Method}
    {excluded : Bool} {id : Nat} (h : Entered methods method excluded after id) (other : Nat) :
    after.timeOf other = methods.timeOf other := by
  cases h with
  | known _ => rfl
  | @new record _ _ hunseen _ =>
      unfold timeOf
      rw [record?_push]
      split
      · next heq =>
          have hnone : methods.record? other = none := by
            rw [heq]
            exact Array.getElem?_eq_none (Nat.le_refl _)
          rw [hnone, Option.map_some, hunseen.cost]
          rfl
      · rfl

namespace Profile

variable {profile : Profile α}

theorem charged_empty : (empty : Profile α).charged = 0 := by
  funext line
  cases line with
  | selfTime node => rfl
  | waitTime node => rfl
  | totalTime node => rfl
  | methodTime method => rfl

theorem charged_congr {other : Profile α}
    (hcost : ∀ id, (other.tree.cost id).selfTime = (profile.tree.cost id).selfTime ∧
      (other.tree.cost id).waitTime = (profile.tree.cost id).waitTime ∧
      (other.tree.cost id).totalTime = (profile.tree.cost id).totalTime)
    (htime : ∀ id, other.methods.timeOf id = profile.methods.timeOf id) :
    other.charged = profile.charged := by
  funext line
  cases line with
  | selfTime node => exact (hcost node).1
  | waitTime node => exact (hcost node).2.1
  | totalTime node => exact (hcost node).2.2
  | methodTime method => exact htime method

/-- Notes on a record that charge nothing. -/
theorem charged_modifyMethod (profile : Profile α) (id : Nat)
    (change : MethodRecord α → MethodRecord α)
    (h : ∀ record, (change record).measurement.totalTime = record.measurement.totalTime) :
    (profile.modifyMethod id change).charged = profile.charged := by
  refine charged_congr (fun _ => ⟨rfl, rfl, rfl⟩) fun other => ?_
  have htime := profile.methods.timeOf_modify id other change 0
    (fun record _ => by rw [h, add_zero]) (Or.inr rfl)
  rw [ite_self, add_zero] at htime
  exact htime

theorem charged_child {parent : Option NodeId} {method : Nat} {record : MethodRecord α}
    (site : CallSite) (hrecord : profile.methods.record? method = some record)
    (hparent : profile.HasParent parent) :
    (profile.child parent method site).1.charged = profile.charged := by
  have hattach : (profile.attach parent method site).charged = profile.charged := by
    refine charged_congr (fun id => ?_) fun id => ?_
    · rw [cost_attach site hrecord hparent]
      exact ⟨rfl, rfl, rfl⟩
    · rw [attach_of_record hrecord]
      have htime := profile.methods.timeOf_modify method id
        (fun r => { r with nodes := r.nodes.push profile.tree.size }) 0
        (fun record _ => (add_zero _).symm) (Or.inr rfl)
      rw [ite_self, add_zero] at htime
      exact htime
  unfold Profile.child
  simp only []
  split
  · rfl
  · exact hattach

/-- Counting a call charges nothing. -/
theorem charged_enter {id method : Nat} (hmethod : profile.methodOf? id = some method) :
    (profile.enter id method).charged = profile.charged := by
  obtain ⟨node, hnode, -⟩ := methodOf?_eq_some hmethod
  refine (charged_modifyMethod _ method MethodRecord.entered fun _ => rfl).trans ?_
  have hcost := cost_modifyNode Node.entered ⟨0, 0, 0, 1⟩
    (fun node _ => node.measurement_entered) (CallTree.node?_lt hnode)
  refine charged_congr (fun i => ?_) fun _ => rfl
  rw [hcost]
  split
  · exact ⟨add_zero _, add_zero _, add_zero _⟩
  · exact ⟨add_zero _, add_zero _, add_zero _⟩

theorem cost_settle {id : Nat} {node : Node α} (hnode : profile.tree.node? id = some node)
    (method : Nat) (selfTime waitTime totalTime : α) (i : Nat) :
    (profile.settle id method selfTime waitTime totalTime).tree.cost i =
      profile.tree.cost i + if i = id then
        ⟨selfTime, waitTime, if node.visits = 1 then totalTime else 0, 0⟩ else 0 := by
  refine cost_modifyNode (·.settled selfTime waitTime totalTime)
    ⟨selfTime, waitTime, if node.visits = 1 then totalTime else 0, 0⟩
    (fun found hfound => ?_) (CallTree.node?_lt hnode) i
  rw [hnode] at hfound
  cases hfound
  exact node.measurement_settled selfTime waitTime totalTime

theorem timeOf_settle {method : Nat} {record : MethodRecord α}
    (hrecord : profile.methods.record? method = some record) (id : Nat)
    (selfTime waitTime totalTime : α) (i : Nat) :
    (profile.settle id method selfTime waitTime totalTime).methods.timeOf i =
      profile.methods.timeOf i +
        if method = i then (if record.visits = 1 then totalTime else 0) else 0 := by
  refine profile.methods.timeOf_modify method i (·.settled selfTime waitTime totalTime)
    (if record.visits = 1 then totalTime else 0) (fun found hfound => ?_)
    (Or.inl (Option.isSome_of_eq_some hrecord))
  rw [hrecord] at hfound
  cases hfound
  exact congrArg Measurement.totalTime (record.measurement_settled selfTime waitTime totalTime)

/-- Settling a call charges its frame. -/
theorem charged_settle {frame : Frame α} {below : List (Frame α)} {node : Node α}
    {record : MethodRecord α} (hnode : profile.tree.node? frame.node = some node)
    (hrecord : profile.methods.record? frame.method = some record)
    (hnodeVisits : node.visits = 1 ↔ ∀ other ∈ below, other.node ≠ frame.node)
    (hmethodVisits : record.visits = 1 ↔ ∀ other ∈ below, other.method ≠ frame.method)
    (selfTime waitTime totalTime : α) :
    (profile.settle frame.node frame.method selfTime waitTime totalTime).charged =
      profile.charged + charge frame below selfTime waitTime totalTime := by
  have hcost := cost_settle hnode frame.method selfTime waitTime totalTime
  have htime := timeOf_settle hrecord frame.node selfTime waitTime totalTime
  funext line
  rw [Pi.add_apply]
  cases line with
  | selfTime id =>
      show ((profile.settle _ _ _ _ _).tree.cost id).selfTime = (profile.tree.cost id).selfTime +
        if frame.node = id then selfTime else 0
      rw [hcost]
      by_cases heq : id = frame.node
      · rw [if_pos heq, if_pos heq.symm]
        rfl
      · rw [if_neg heq, if_neg fun h => heq h.symm]
        rfl
  | waitTime id =>
      show ((profile.settle _ _ _ _ _).tree.cost id).waitTime = (profile.tree.cost id).waitTime +
        if frame.node = id then waitTime else 0
      rw [hcost]
      by_cases heq : id = frame.node
      · rw [if_pos heq, if_pos heq.symm]
        rfl
      · rw [if_neg heq, if_neg fun h => heq h.symm]
        rfl
  | totalTime id =>
      show ((profile.settle _ _ _ _ _).tree.cost id).totalTime =
        (profile.tree.cost id).totalTime +
          if frame.node = id ∧ ∀ other ∈ below, other.node ≠ id then totalTime else 0
      rw [hcost]
      by_cases heq : id = frame.node
      · subst heq
        rw [if_pos rfl]
        show _ + (if node.visits = 1 then totalTime else 0) = _
        simp only [hnodeVisits, true_and]
      · rw [if_neg heq, if_neg fun h => heq h.1.symm]
        rfl
  | methodTime id =>
      show (profile.settle _ _ _ _ _).methods.timeOf id = profile.methods.timeOf id +
        if frame.method = id ∧ ∀ other ∈ below, other.method ≠ id then totalTime else 0
      rw [htime]
      by_cases heq : frame.method = id
      · subst heq
        rw [if_pos rfl]
        simp only [hmethodVisits, true_and]
      · rw [if_neg heq, if_neg fun h => heq h.1]

end Profile

end CallLedger
