import CallLedger.Proofs.Accounts

/-!
# No cost is lost at a node

Self, waiting and inclusive time of a node are settled at different moments: the
first two whenever a call of the node ends, inclusive time only with the last
one, and what the children took is known by then to the frames only. What holds
all the time is that a path has taken in too much, measured by its children
and its own settled calls, by exactly what the open calls of its node were
credited with (`Conserved`).

The surplus of a path is a homomorphism out of the ledger. So nothing has to be
said again when ledgers are added, and once no call is open it is zero.
-/

namespace CallLedger

variable {α : Type} [ExactAmount α]

/-- What a path took in by its own calls and by its children beyond the
inclusive time that was settled at it. -/
noncomputable def surplus (path : List Method) : PathLedger α →+ α :=
  Finsupp.liftAddHom fun other =>
    (if other = path then
      Measurement.selfPart + Measurement.waitPart - Measurement.totalPart else 0) +
    (if other.tail = path then Measurement.totalPart else 0)

theorem surplus_single (path other : List Method) (cost : Measurement α) :
    surplus path (Finsupp.single other cost) =
      (if other = path then cost.selfTime + cost.waitTime - cost.totalTime else 0) +
        (if other.tail = path then cost.totalTime else 0) := by
  rw [surplus, Finsupp.liftAddHom_apply_single, AddMonoidHom.add_apply]
  congr 1
  · split
    · rfl
    · rfl
  · split
    · rfl
    · rfl

namespace Profile

/-- What the open calls of the node at a path were credited with. -/
def credits (profile : Profile α) (calls : List (OpenCall α)) (path : List Method) : α :=
  (calls.map fun call => if profile.path call.node = path then call.childTime else 0).sum

/-- No path has taken in more than its open calls were credited with. -/
def Conserved (profile : Profile α) (calls : List (OpenCall α)) : Prop :=
  ∀ path ≠ [], surplus path profile.ledger = profile.credits calls path

variable {exclusions : Exclusions} {profile other : Profile α} {calls : List (OpenCall α)}

theorem conserved_empty : Conserved (empty : Profile α) [] := by
  intro path _
  rw [ledger_empty, map_zero]
  rfl

theorem credits_cons (profile : Profile α) (call : OpenCall α) (below : List (OpenCall α))
    (path : List Method) :
    profile.credits (call :: below) path =
      (if profile.path call.node = path then call.childTime else 0) +
        profile.credits below path := by
  rw [credits, List.map_cons, List.sum_cons]
  rfl

theorem Grows.credits_eq (hgrows : Grows profile other) (hs : profile.Sound)
    (ho : other.Sound) (hstacked : profile.Stacked calls) (path : List Method) :
    other.credits calls path = profile.credits calls path := by
  refine congrArg List.sum (List.map_congr_left fun call hcall => ?_)
  rw [hgrows.path_eq hs ho (hstacked.node_lt hcall)]

/-- The caller is credited at the path of its node. -/
theorem credits_credited (profile : Profile α) (time : α) (calls : List (OpenCall α))
    {path : List Method} (hpath : path ≠ []) :
    profile.credits (credited time calls) path =
      profile.credits calls path +
        if profile.pathTo (innermost calls) = path then time else 0 := by
  cases calls with
  | nil =>
      have hempty : profile.pathTo (innermost ([] : List (OpenCall α))) ≠ path :=
        fun h => hpath h.symm
      rw [if_neg hempty, add_zero]
      rfl
  | cons call below =>
      show profile.credits ({ call with childTime := _ } :: below) path = _ +
        if profile.path call.node = path then time else 0
      rw [credits_cons, credits_cons]
      show (if profile.path call.node = path then call.childTime + time else 0) + _ = _
      by_cases hhere : profile.path call.node = path
      · rw [if_pos hhere, if_pos hhere, if_pos hhere]
        abel
      · rw [if_neg hhere, if_neg hhere, if_neg hhere]
        abel

/-- What adds no cost keeps all cost. -/
theorem Conserved.of_ledger (h : profile.Conserved calls) (hs : profile.Sound)
    (ho : other.Sound) (hstacked : profile.Stacked calls) (hgrows : Grows profile other)
    (hledger : other.ledger = profile.ledger) : other.Conserved calls := by
  intro path hpath
  rw [hledger, hgrows.credits_eq hs ho hstacked]
  exact h path hpath

theorem Conserved.enter (h : profile.Conserved calls) (ha : Ordered exclusions profile calls)
    {id method : Nat} (hmethod : profile.methodOf? id = some method) :
    (profile.enter id method).Conserved (⟨id, method, 0⟩ :: calls) := by
  obtain ⟨node, hnode, -⟩ := methodOf?_eq_some hmethod
  have hshape : SameShape profile (profile.enter id method) := sameShape_enter id method
  have hledger := ha.sound.ledger_book hnode method Node.entered MethodRecord.entered
    ⟨0, 0, 0, 1⟩ (fun _ => rfl) (fun _ => rfl) (fun _ => rfl) (fun _ => rfl) (fun _ => rfl)
    node.measurement_entered
  intro path hpath
  have hsurplus : surplus path (profile.enter id method).ledger =
      surplus path profile.ledger := by
    refine (congrArg (surplus path) hledger).trans ?_
    rw [map_add, surplus_single]
    simp
  rw [hsurplus, credits_cons, ite_self, zero_add,
    hshape.grows.credits_eq ha.sound (ha.sound.of_shape hshape) ha.stacked]
  exact h path hpath

/-- The node of a call that ends takes in what the call took, and either the
node or a further call of it hands the same on. -/
theorem Conserved.close {call : OpenCall α} {below : List (OpenCall α)}
    (h : profile.Conserved (call :: below))
    (ha : Ordered exclusions profile (call :: below)) {selfTime waitTime totalTime : α}
    (hsplit : selfTime + waitTime + call.childTime = totalTime) :
    (profile.settle call.node call.method selfTime waitTime totalTime).Conserved
      (credited totalTime below) := by
  obtain ⟨node, hnode, hmethod⟩ :=
    methodOf?_eq_some (ha.stacked.methodOf? List.mem_cons_self)
  obtain ⟨record, hrecord, -⟩ := ha.sound.bound hnode
  have hlt := CallTree.node?_lt hnode
  have hshape : SameShape profile
      (profile.settle call.node call.method selfTime waitTime totalTime) :=
    sameShape_settle call.node call.method selfTime waitTime totalTime
  have hs := ha.sound.of_shape hshape
  have hledger := ha.sound.ledger_book hnode call.method
    (·.settled selfTime waitTime totalTime) (·.settled selfTime waitTime totalTime)
    ⟨selfTime, waitTime, if node.visits = 1 then totalTime else 0, 0⟩
    (fun _ => rfl) (fun _ => rfl) (fun _ => rfl) (fun _ => rfl) (fun _ => rfl)
    (node.measurement_settled selfTime waitTime totalTime)
  intro path hpath
  have hsurplus := congrArg (surplus path) hledger
  rw [map_add, surplus_single, h path hpath, credits_cons] at hsurplus
  refine hsurplus.trans ?_
  rw [hshape.grows.credits_eq ha.sound hs (ha.stacked.2.2.credited totalTime),
    credits_credited profile totalTime below hpath]
  have hself : selfTime + waitTime = totalTime - call.childTime := by
    rw [← hsplit]
    abel
  have htail : (profile.path call.node).tail = profile.pathTo node.parent := by
    rw [ha.sound.path_eq hnode hrecord]
    rfl
  have hparent := CallTree.parent?_eq hnode
  show _ + ((if _ then selfTime + waitTime - (if node.visits = 1 then totalTime else 0)
    else 0) + (if _ then (if node.visits = 1 then totalTime else 0) else 0)) = _
  by_cases honly : ∀ other ∈ below, other.node ≠ call.node
  · rw [if_pos ((ha.nodeVisits_eq_one hnode).mpr honly), htail, ← hparent,
      ha.stacked.parent?_of_only honly, hself]
    by_cases hhere : profile.path call.node = path
    · rw [if_pos hhere, if_pos hhere]
      abel
    · rw [if_neg hhere, if_neg hhere]
      abel
  · have hinner : innermost below = some call.node := by
      simp only [not_forall, not_not] at honly
      obtain ⟨other, hother, heq⟩ := honly
      exact ha.stacked.innermost_of_mem ha.sound hother heq
    rw [if_neg fun hone => honly ((ha.nodeVisits_eq_one hnode).mp hone), ite_self, hinner, hself]
    show _ = _ + if profile.path call.node = path then totalTime else 0
    by_cases hhere : profile.path call.node = path
    · rw [if_pos hhere, if_pos hhere, if_pos hhere]
      abel
    · rw [if_neg hhere, if_neg hhere, if_neg hhere]
      abel

end Profile

end CallLedger
