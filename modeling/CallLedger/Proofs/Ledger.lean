import CallLedger.Proofs.ExactAmount
import CallLedger.Proofs.Paths

/-!
# The ledger of a profile

What a call tree knows is what each call path cost. The ledger is just that, a
finitely supported function from paths to measurements, without positions,
ids or order. Everything that is ever added to a profile adds a measurement at
one path (`ledger_charge`), and attaching a node adds nothing (`ledger_attach`).

What is said about sums over nodes is said by homomorphisms out of the ledger
(`liftAddHom_ledger`). They do not care where a cost comes from, so a law
between them that holds of two profiles holds of their sum.
-/

namespace CallLedger

/-- The measurement of a node; a node that is missing has cost nothing. -/
def CallTree.cost {α : Type} [Amount α] (tree : CallTree α) (id : NodeId) : Measurement α :=
  ((tree.node? id).map (·.measurement)).getD .empty

variable {α : Type} [ExactAmount α]

theorem CallTree.cost_eq {tree : CallTree α} {id : Nat} {node : Node α}
    (h : tree.node? id = some node) : tree.cost id = node.measurement := by
  rw [cost, h]
  rfl

/-- What a call that begins adds to its node. -/
theorem Node.measurement_entered (node : Node α) :
    node.entered.measurement = node.measurement + ⟨0, 0, 0, 1⟩ := by
  show (⟨_, _, _, _⟩ : Measurement α) = ⟨_ + 0, _ + 0, _ + 0, _⟩
  rw [add_zero, add_zero, add_zero]

theorem MethodRecord.measurement_entered (record : MethodRecord α) :
    record.entered.measurement = record.measurement + ⟨0, 0, 0, 1⟩ := by
  show (⟨_, _, _, _⟩ : Measurement α) = ⟨_ + 0, _ + 0, _ + 0, _⟩
  rw [add_zero, add_zero, add_zero]

/-- What a call that ends adds to its node. -/
theorem Node.measurement_settled (node : Node α) (selfTime waitTime totalTime : α) :
    (node.settled selfTime waitTime totalTime).measurement = node.measurement +
      ⟨selfTime, waitTime, if node.visits = 1 then totalTime else 0, 0⟩ := by
  show (⟨_, _, _, _⟩ : Measurement α) = ⟨_, _, _ + _, _⟩
  split
  · rfl
  · rw [add_zero]
    rfl

theorem MethodRecord.measurement_settled (record : MethodRecord α)
    (selfTime waitTime totalTime : α) :
    (record.settled selfTime waitTime totalTime).measurement = record.measurement +
      ⟨selfTime, waitTime, if record.visits = 1 then totalTime else 0, 0⟩ := by
  show (⟨_, _, _, _⟩ : Measurement α) = ⟨_, _, _ + _, _⟩
  split
  · rfl
  · rw [add_zero]
    rfl

/-- A sum over some of the members of a list, as a sum over all of them. -/
theorem sum_map_filter {β γ : Type} [AddCommMonoid β] (keeps : γ → Bool) (f : γ → β)
    (members : List γ) :
    ((members.filter keeps).map f).sum =
      (members.map fun member => if keeps member then f member else 0).sum := by
  induction members with
  | nil => rfl
  | cons first members ih =>
      rw [List.filter_cons, List.map_cons, List.sum_cons, ← ih]
      split
      · rw [List.map_cons, List.sum_cons]
      · rw [zero_add]

/-- What every call path cost. -/
abbrev PathLedger (α : Type) [ExactAmount α] := List Method →₀ Measurement α

namespace Profile

noncomputable def ledger (profile : Profile α) : PathLedger α :=
  ∑ id ∈ Finset.range profile.tree.size,
    Finsupp.single (profile.path id) (profile.tree.cost id)

/-- A homomorphism reads a ledger node by node. -/
theorem liftAddHom_ledger {β : Type} [AddCommMonoid β]
    (part : List Method → Measurement α →+ β) (profile : Profile α) :
    Finsupp.liftAddHom part profile.ledger =
      ∑ id ∈ Finset.range profile.tree.size, part (profile.path id) (profile.tree.cost id) := by
  rw [ledger, map_sum]
  exact Finset.sum_congr rfl fun id _ => Finsupp.liftAddHom_apply_single _ _ _

theorem ledger_empty : (empty : Profile α).ledger = 0 := rfl

theorem ledger_congr {profile other : Profile α} (hsize : other.tree.size = profile.tree.size)
    (hpath : ∀ id < profile.tree.size, other.path id = profile.path id)
    (hcost : ∀ id < profile.tree.size, other.tree.cost id = profile.tree.cost id) :
    other.ledger = profile.ledger := by
  unfold ledger
  rw [hsize]
  refine Finset.sum_congr rfl fun id hid => ?_
  have hlt := Finset.mem_range.mp hid
  rw [hpath id hlt, hcost id hlt]

/-- A profile that takes in a cost at one node takes it in at the path of the
node. -/
theorem Sound.ledger_charge {profile other : Profile α} (hs : profile.Sound)
    (hshape : SameShape profile other) {id : Nat} (hid : id < profile.tree.size)
    {charge : Measurement α}
    (hcost : ∀ i < profile.tree.size, other.tree.cost i =
      profile.tree.cost i + if i = id then charge else 0) :
    other.ledger = profile.ledger + Finsupp.single (profile.path id) charge := by
  have ho := hs.of_shape hshape
  unfold ledger
  rw [hshape.size]
  have hterm : ∀ i ∈ Finset.range profile.tree.size,
      Finsupp.single (other.path i) (other.tree.cost i) =
        Finsupp.single (profile.path i) (profile.tree.cost i) +
          if i = id then Finsupp.single (profile.path id) charge else 0 := by
    intro i hi
    have hlt := Finset.mem_range.mp hi
    rw [hshape.grows.path_eq hs ho hlt, hcost i hlt, Finsupp.single_add]
    split
    · next heq => rw [heq]
    · rw [Finsupp.single_zero]
  rw [Finset.sum_congr rfl hterm, Finset.sum_add_distrib, Finset.sum_ite_eq',
    if_pos (Finset.mem_range.mpr hid)]

theorem cost_modifyNode {profile : Profile α} {id : Nat} (change : Node α → Node α)
    (charge : Measurement α)
    (h : ∀ node, profile.tree.node? id = some node →
      (change node).measurement = node.measurement + charge)
    (hid : id < profile.tree.size) (i : Nat) :
    (profile.modifyNode id change).tree.cost i =
      profile.tree.cost i + if i = id then charge else 0 := by
  show (profile.tree.modify id change).cost i = _
  unfold CallTree.cost
  rw [CallTree.node?_modify]
  by_cases heq : id = i
  · subst heq
    obtain ⟨node, hnode⟩ := CallTree.exists_node? hid
    rw [if_pos rfl, if_pos rfl, hnode]
    exact h node hnode
  · rw [if_neg heq, if_neg (fun h => heq h.symm), add_zero]

theorem Sound.ledger_modifyNode {profile : Profile α} (hs : profile.Sound) {id : Nat}
    (hid : id < profile.tree.size) (change : Node α → Node α) {charge : Measurement α}
    (horigin : ∀ node, (change node).origin = node.origin)
    (hlinks : ∀ node, (change node).links = node.links)
    (h : ∀ node, profile.tree.node? id = some node →
      (change node).measurement = node.measurement + charge) :
    (profile.modifyNode id change).ledger =
      profile.ledger + Finsupp.single (profile.path id) charge :=
  hs.ledger_charge (sameShape_modifyNode horigin hlinks) hid fun i _ =>
    cost_modifyNode change charge h hid i

/-- What changes the records alone changes no ledger. -/
theorem Sound.ledger_of_tree {profile other : Profile α} (hs : profile.Sound)
    (ho : other.Sound) (hgrows : Grows profile other) (htree : other.tree = profile.tree) :
    other.ledger = profile.ledger :=
  ledger_congr (by rw [htree]) (fun _ hid => hgrows.path_eq hs ho hid)
    fun id _ => by rw [htree]

/-- A cost that goes to a node, while its record takes note. -/
theorem Sound.ledger_book {profile : Profile α} (hs : profile.Sound) {id : Nat}
    {node : Node α} (hnode : profile.tree.node? id = some node) (method : Nat)
    (note : Node α → Node α) (change : MethodRecord α → MethodRecord α)
    (cost : Measurement α) (horigin : ∀ node, (note node).origin = node.origin)
    (hlinks : ∀ node, (note node).links = node.links)
    (hkey : ∀ record, (change record).key = record.key)
    (hmethod : ∀ record, (change record).method = record.method)
    (hnodes : ∀ record, (change record).nodes = record.nodes)
    (hcost : (note node).measurement = node.measurement + cost) :
    ((profile.modifyNode id note).modifyMethod method change).ledger =
      profile.ledger + Finsupp.single (profile.path id) cost := by
  have hcharge : SameShape profile (profile.modifyNode id note) :=
    sameShape_modifyNode horigin hlinks
  have htake : SameShape (profile.modifyNode id note)
      ((profile.modifyNode id note).modifyMethod method change) :=
    sameShape_modifyMethod hkey hmethod hnodes
  have hcharged := hs.of_shape hcharge
  rw [hcharged.ledger_of_tree (hcharged.of_shape htake) htake.grows rfl]
  refine hs.ledger_modifyNode (CallTree.node?_lt hnode) note horigin hlinks fun other hother => ?_
  rw [hnode] at hother
  cases hother
  exact hcost

theorem cost_attach {profile : Profile α} {parent : Option NodeId} {method : Nat}
    {record : MethodRecord α} (site : CallSite)
    (hrecord : profile.methods.record? method = some record)
    (hparent : profile.HasParent parent) (id : Nat) :
    (profile.attach parent method site).tree.cost id = profile.tree.cost id := by
  rw [attach_of_record hrecord]
  unfold CallTree.cost
  rw [CallTree.node?_link (hparent.fresh method record.key site)]
  split
  · next heq =>
      rw [heq, CallTree.node?_eq_none (Nat.le_refl _)]
      rfl
  · split
    · rw [Option.map_map]
      rfl
    · rfl

theorem Sound.ledger_attach {profile : Profile α} (hs : profile.Sound)
    {parent : Option NodeId} {method : Nat} {record : MethodRecord α} (site : CallSite)
    (hrecord : profile.methods.record? method = some record)
    (hparent : profile.HasParent parent)
    (hnew : profile.tree.childOf? parent record.key = none) :
    (profile.attach parent method site).ledger = profile.ledger := by
  have ho := hs.attach site hrecord hparent hnew
  have hgrows := grows_attach site hrecord hparent
  have hnone : profile.tree.cost profile.tree.size = 0 := by
    rw [CallTree.cost, CallTree.node?_eq_none (Nat.le_refl _)]
    rfl
  unfold ledger
  rw [size_attach parent site hrecord, Finset.sum_range_succ, cost_attach site hrecord hparent,
    hnone, Finsupp.single_zero, add_zero]
  refine Finset.sum_congr rfl fun id hid => ?_
  rw [hgrows.path_eq hs ho (Finset.mem_range.mp hid), cost_attach site hrecord hparent]

end Profile

end CallLedger
