import CallLedger.Proofs.Accounts
import CallLedger.Context.Basic

/-!
# Roots, and where a call leads

A call leads to the node of its caller, when the caller is the method itself,
or to the child of that node for the method, or, with no call open, to a root.
The last case marks the record of the method, and no other case makes a root,
so the marks tell exactly which methods have one (`Rooted`).

A method that is not known gets its record first (`Learned`), and a node that is
missing is attached (`Led`). That is all that happens to the profile before a
call is counted, so nothing that was measured changes.
-/

namespace CallLedger

variable {α : Type}

/-- The record of the method is marked as that of a root. -/
def Registry.HasRoot (methods : Registry α) (method : Method) : Prop :=
  ∃ id record, methods.record? id = some record ∧ record.method = method ∧
    record.root = true

namespace Registry

theorem hasRoot_modify {methods : Registry α} {id : Nat} {record : MethodRecord α}
    (hid : methods.record? id = some record) (change : MethodRecord α → MethodRecord α)
    (hmethod : ∀ record, (change record).method = record.method) {marks : Bool}
    (hroot : (change record).root = (record.root || marks)) (method : Method) :
    (methods.modify id change).HasRoot method ↔
      methods.HasRoot method ∨ (marks = true ∧ method = record.method) := by
  constructor
  · rintro ⟨i, found, hi, rfl, hmark⟩
    obtain ⟨before, hbefore, ⟨rfl, rfl⟩ | ⟨-, rfl⟩⟩ := record?_modify_cases hi
    · rw [hid] at hbefore
      cases hbefore
      rw [hroot, Bool.or_eq_true] at hmark
      rw [hmethod]
      rcases hmark with hold | hnew
      · exact Or.inl ⟨i, record, hid, rfl, hold⟩
      · exact Or.inr ⟨hnew, rfl⟩
    · exact Or.inl ⟨i, found, hbefore, rfl, hmark⟩
  · have hafter : (methods.modify id change).record? id = some (change record) := by
      rw [record?_modify, if_pos rfl, hid]
      rfl
    rintro (⟨i, found, hi, rfl, hmark⟩ | ⟨hmark, rfl⟩)
    · by_cases heq : id = i
      · subst heq
        rw [hid] at hi
        cases hi
        exact ⟨id, change record, hafter, hmethod _, by rw [hroot, hmark, Bool.true_or]⟩
      · exact ⟨i, found, by rw [record?_modify, if_neg heq, hi], rfl, hmark⟩
    · exact ⟨id, change record, hafter, hmethod _, by rw [hroot, hmark, Bool.or_true]⟩

theorem hasRoot_push {methods : Registry α} {record : MethodRecord α} {method : Method} :
    (methods.push record).HasRoot method ↔
      methods.HasRoot method ∨ (record.root = true ∧ method = record.method) := by
  constructor
  · rintro ⟨i, found, hi, rfl, hmark⟩
    rw [record?_push] at hi
    split at hi
    · cases hi
      exact Or.inr ⟨hmark, rfl⟩
    · exact Or.inl ⟨i, found, hi, rfl, hmark⟩
  · rintro (⟨i, found, hi, rfl, hmark⟩ | ⟨hmark, rfl⟩)
    · refine ⟨i, found, ?_, rfl, hmark⟩
      rw [record?_push, if_neg (Nat.ne_of_lt (record?_lt hi)), hi]
    · exact ⟨methods.size, record, by rw [record?_push, if_pos rfl], rfl, hmark⟩

end Registry

namespace Profile

/-- The records that are marked are those of the methods that have a root. -/
def Rooted (profile : Profile α) : Prop :=
  ∀ method, profile.methods.HasRoot method ↔ profile.HasPath [method]

theorem rooted_empty [Amount α] : Rooted (empty : Profile α) := by
  intro method
  constructor
  · rintro ⟨id, record, hid, -, -⟩
    exact absurd (Registry.record?_lt hid) (Nat.not_lt_zero _)
  · rintro ⟨id, hid, -⟩
    exact absurd hid (Nat.not_lt_zero _)

/-- Notes that mark no root. -/
theorem Rooted.of_shape {profile other : Profile α} (h : profile.Rooted) (hs : profile.Sound)
    (hshape : SameShape profile other)
    (hroots : ∀ method, other.methods.HasRoot method ↔ profile.methods.HasRoot method) :
    other.Rooted := by
  intro method
  rw [hroots, h method, hshape.hasPath_iff hs]

variable [ExactAmount α]

/-- A profile that knows a method. -/
structure Learned (exclusions : Exclusions) (profile : Profile α) (calls : List (OpenCall α))
    (method : Method) (after : Profile α) (id : Nat) : Prop where
  ordered : Ordered exclusions after calls
  grows : Grows profile after
  ledger : after.ledger = profile.ledger
  spent : ∀ other, after.methods.spent other = profile.methods.spent other
  roots : ∀ other, after.methods.HasRoot other ↔ profile.methods.HasRoot other
  paths : ∀ path, after.HasPath path ↔ profile.HasPath path
  record : ∃ record, after.methods.record? id = some record ∧ record.method = method

theorem Ordered.entered {exclusions : Exclusions} {profile : Profile α}
    {calls : List (OpenCall α)} (h : Ordered exclusions profile calls) {method : Method}
    {methods : Registry α} {id : Nat}
    (hentered : profile.methods.Entered method (exclusions.contains method) methods id) :
    Learned exclusions profile calls method { profile with methods := methods } id := by
  have hrecord := hentered.exists_record
  cases hentered with
  | known _ =>
      exact ⟨h, Grows.refl _, rfl, fun _ => rfl, fun _ => Iff.rfl, fun _ => Iff.rfl, hrecord⟩
  | @new record hmethod hlocate hunseen hexcluded =>
      have ho := h.learn hlocate hunseen.nodes hunseen.visits (by rw [hexcluded, hmethod])
      have hledger := h.sound.ledger_of_tree ho.sound grows_learn rfl
      refine ⟨ho, grows_learn, hledger, fun other => ?_, fun other => ?_, fun path => ?_, hrecord⟩
      · have hspent := h.sound.methods.spent_push hlocate other
        rw [hunseen.cost, Measurement.empty_eq_zero, ite_self, add_zero] at hspent
        exact hspent
      · refine Registry.hasRoot_push.trans (or_iff_left ?_)
        rintro ⟨hmark, -⟩
        rw [hunseen.root] at hmark
        cases hmark
      · constructor
        · rintro ⟨node, hnode, rfl⟩
          exact ⟨node, hnode, (grows_learn.path_eq h.sound ho.sound hnode).symm⟩
        · exact grows_learn.hasPath h.sound ho.sound

/-- A profile in which a call of a method under a parent has its node. -/
structure Led (exclusions : Exclusions) (profile : Profile α) (calls : List (OpenCall α))
    (parent : Option NodeId) (method : Nat) (after : Profile α) (id : Nat) : Prop where
  ordered : Ordered exclusions after calls
  grows : Grows profile after
  ledger : after.ledger = profile.ledger
  spent : ∀ other, after.methods.spent other = profile.methods.spent other
  roots : ∀ other, after.methods.HasRoot other ↔ profile.methods.HasRoot other
  paths : ∀ path, after.HasPath path ↔ profile.HasPath path ∨ path = after.path id
  node : ∃ node, after.tree.node? id = some node ∧ node.method = method ∧ node.parent = parent

theorem Ordered.led_attach {exclusions : Exclusions} {profile : Profile α}
    {calls : List (OpenCall α)} (h : Ordered exclusions profile calls)
    {parent : Option NodeId} {method : Nat} {record : MethodRecord α} (site : CallSite)
    (hrecord : profile.methods.record? method = some record)
    (hparent : profile.HasParent parent)
    (hnew : profile.tree.childOf? parent record.key = none)
    (hexcluded : record.excluded = false) :
    Led exclusions profile calls parent method (profile.attach parent method site)
      profile.tree.size := by
  refine ⟨h.attach site hrecord hparent hnew hexcluded, grows_attach site hrecord hparent,
    h.sound.ledger_attach site hrecord hparent hnew, ?_, ?_, ?_,
    ⟨_, node?_attach site hrecord hparent, rfl, rfl⟩⟩
  · intro other
    rw [attach_of_record hrecord]
    have hnone : ({ record with nodes := record.nodes.push profile.tree.size } :
        MethodRecord α).measurement = record.measurement + 0 := (add_zero _).symm
    have hspent := h.sound.methods.spent_modify hrecord
      (fun r => { r with nodes := r.nodes.push profile.tree.size })
      (fun _ => rfl) (fun _ => rfl) hnone other
    rw [ite_self, add_zero] at hspent
    exact hspent
  · intro other
    rw [attach_of_record hrecord]
    exact (Registry.hasRoot_modify hrecord
      (fun r => { r with nodes := r.nodes.push profile.tree.size }) (fun _ => rfl)
      (Bool.or_false _).symm other).trans (or_iff_left (by simp))
  · intro path
    rw [h.sound.path_attach site hrecord hparent hnew]
    exact h.sound.hasPath_attach site hrecord hparent hnew

theorem Ordered.child {exclusions : Exclusions} {profile : Profile α}
    {calls : List (OpenCall α)} (h : Ordered exclusions profile calls)
    {parent : Option NodeId} {method : Nat} {record : MethodRecord α} (site : CallSite)
    (hrecord : profile.methods.record? method = some record)
    (hparent : profile.HasParent parent) (hexcluded : record.excluded = false) :
    Led exclusions profile calls parent method (profile.child parent method site).1
      (profile.child parent method site).2 := by
  rw [child_of_record hrecord]
  cases hchild : profile.tree.childOf? parent record.key with
  | some id =>
      obtain ⟨node, hnode, hp, hkey⟩ := (h.sound.childOf?_eq_some_iff hparent).mp hchild
      obtain ⟨found, hfound, hkeys⟩ := h.sound.bound hnode
      have hmethod := h.sound.methods.key_inj hfound hrecord (hkeys.trans hkey)
      refine ⟨h, Grows.refl _, rfl, fun _ => rfl, fun _ => Iff.rfl, fun path => ?_,
        ⟨node, hnode, hmethod, hp⟩⟩
      refine (or_iff_left_of_imp ?_).symm
      rintro rfl
      exact ⟨id, CallTree.node?_lt hnode, rfl⟩
  | none => exact h.led_attach site hrecord hparent hchild hexcluded

end Profile

end CallLedger
