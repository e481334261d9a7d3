import CallLedger.Proofs.Ledger
import CallLedger.Proofs.Ordered

/-!
# Records and nodes keep one account

What a record says of its method can be read off the ledger: calls, self and
waiting time are summed over all paths that end in the method, inclusive time
over those on which the method comes up only once (`share`). `Accounted` says
that it is so, with what it takes to keep it so while calls are open: the visit
counters count the open calls of a method and of a node.

The two sides are booked together. `Accounted.balanced_book` is the one lemma about
booking: a cost goes to a node and its share of it to the record of the node's
method. Opening a call books an invocation. Closing one books its cost, and
there the counters matter: the record takes in the inclusive time when its
counter is one, the node when its own is, and `Stacked.only_call_iff` says that
the first is the second together with what `share` asks for.
-/

namespace CallLedger

variable {α : Type} [ExactAmount α]

/-! ## What a record says -/

/-- What was spent on a method, as its record has it. -/
def Registry.spent (methods : Registry α) (method : Method) : Measurement α :=
  ((methods.lookup method).bind methods.record?).elim .empty (·.measurement)

namespace Registry

theorem Sound.spent_record {methods : Registry α} (hs : methods.Sound) {id : Nat}
    {record : MethodRecord α} (hid : methods.record? id = some record) :
    methods.spent record.method = record.measurement := by
  rw [spent, hs.lookup_record hid, Option.bind_some, hid]
  rfl

theorem spent_unknown {methods : Registry α} {method : Method}
    (h : ∀ {id : Nat} {record : MethodRecord α}, methods.record? id = some record →
      record.method ≠ method) : methods.spent method = 0 := by
  rw [spent]
  cases hlookup : methods.lookup method with
  | none => rfl
  | some id =>
      obtain ⟨record, hrecord, hmethod⟩ := lookup_eq_some hlookup
      exact absurd hmethod (h hrecord)

/-- Charging one record. -/
theorem Sound.spent_modify {methods : Registry α} (hs : methods.Sound) {id : Nat}
    {record : MethodRecord α} {charge : Measurement α}
    (hid : methods.record? id = some record) (change : MethodRecord α → MethodRecord α)
    (hkey : ∀ record, (change record).key = record.key)
    (hmethod : ∀ record, (change record).method = record.method)
    (hcharge : (change record).measurement = record.measurement + charge)
    (method : Method) :
    (methods.modify id change).spent method =
      methods.spent method + if method = record.method then charge else 0 := by
  have hnames : (methods.modify id change).names = methods.names := names_modify hkey hmethod
  have ho : (methods.modify id change).Sound := hs.of_names hnames.symm
  by_cases heq : method = record.method
  · have hafter : (methods.modify id change).record? id = some (change record) := by
      rw [record?_modify, if_pos rfl, hid]
      rfl
    rw [if_pos heq, heq, hs.spent_record hid, ← hcharge, ← ho.spent_record hafter, hmethod]
  · rw [if_neg heq, add_zero]
    by_cases hknown : ∃ i a, methods.record? i = some a ∧ a.method = method
    · obtain ⟨i, a, ha, rfl⟩ := hknown
      have hne : id ≠ i := by
        rintro rfl
        rw [hid] at ha
        cases ha
        exact heq rfl
      have hafter : (methods.modify id change).record? i = some a := by
        rw [record?_modify, if_neg hne, ha]
      rw [hs.spent_record ha, ho.spent_record hafter]
    · rw [spent_unknown fun hi heq => hknown ⟨_, _, hi, heq⟩, spent_unknown]
      intro i a hi hmethods
      obtain ⟨b, hb, -, hbm⟩ := record?_of_names hnames hi
      exact hknown ⟨i, b, hb, hbm.trans hmethods⟩

/-- A new record with what is measured on it. -/
theorem Sound.spent_push {methods : Registry α} (hs : methods.Sound)
    {record : MethodRecord α} (hlocate : methods.locate record.method = .free record.key)
    (method : Method) :
    (methods.push record).spent method =
      methods.spent method + if method = record.method then record.measurement else 0 := by
  have ho := hs.push hlocate
  obtain ⟨hunknown, -, -⟩ := hs.locate_free hlocate
  have hnew : (methods.push record).record? methods.size = some record := by
    rw [record?_push, if_pos rfl]
  by_cases heq : method = record.method
  · rw [if_pos heq, heq, ho.spent_record hnew, spent_unknown fun hi => (hunknown hi).2, zero_add]
  · rw [if_neg heq, add_zero]
    by_cases hknown : ∃ i a, methods.record? i = some a ∧ a.method = method
    · obtain ⟨i, a, ha, rfl⟩ := hknown
      have hafter : (methods.push record).record? i = some a := by
        rw [record?_push, if_neg (Nat.ne_of_lt (record?_lt ha)), ha]
      rw [hs.spent_record ha, ho.spent_record hafter]
    · rw [spent_unknown fun hi heq => hknown ⟨_, _, hi, heq⟩, spent_unknown]
      intro i a hi hmethod
      rw [record?_push] at hi
      split at hi
      · cases hi
        exact heq hmethod.symm
      · exact hknown ⟨i, a, hi, hmethod⟩

end Registry

/-! ## What the ledger says -/

/-- What a cost at a path means for a method: nothing unless the path ends in
it, and no inclusive time when the method came up before. -/
def share (method : Method) (path : List Method) : Measurement α →+ Measurement α where
  toFun cost :=
    if path.head? = some method then
      if method ∈ path.tail then { cost with totalTime := 0 } else cost
    else 0
  map_zero' := by
    split
    · split
      · rfl
      · rfl
    · rfl
  map_add' a b := by
    split
    · split
      · show (⟨_, _, 0, _⟩ : Measurement α) = ⟨_, _, 0 + 0, _⟩
        rw [add_zero]
        rfl
      · rfl
    · exact (add_zero 0).symm

theorem share_cons (method other : Method) (above : List Method) (cost : Measurement α) :
    share method (other :: above) cost =
      if method = other then
        if other ∈ above then { cost with totalTime := 0 } else cost
      else 0 := by
  show (if some other = some method then
      if method ∈ above then { cost with totalTime := 0 } else cost else 0) = _
  by_cases h : method = other
  · subst h
    rw [if_pos rfl, if_pos rfl]
  · rw [if_neg h, if_neg fun heq => h (Option.some.inj heq).symm]

/-- What the paths of a ledger say of a method. -/
noncomputable def summary (method : Method) : PathLedger α →+ Measurement α :=
  Finsupp.liftAddHom (share method)

theorem summary_single (method : Method) (path : List Method) (cost : Measurement α) :
    summary method (Finsupp.single path cost) = share method path cost :=
  Finsupp.liftAddHom_apply_single _ _ _

namespace Profile

/-- Records and nodes keep one account. -/
structure Accounted (exclusions : Exclusions) (profile : Profile α)
    (calls : List (OpenCall α)) : Prop extends Ordered exclusions profile calls where
  /-- The records say what the ledger says. -/
  balanced : ∀ method, profile.methods.spent method = summary method profile.ledger

variable {exclusions : Exclusions} {profile other : Profile α} {calls : List (OpenCall α)}

theorem accounted_empty : Accounted exclusions (empty : Profile α) [] where
  toOrdered := ordered_empty
  balanced method := by
    rw [ledger_empty, map_zero]
    exact Registry.spent_unknown fun hid => absurd (Registry.record?_lt hid) (Nat.not_lt_zero _)

/-- Where no cost is added, the account stays as it was. -/
theorem Accounted.of_ordered (h : Accounted exclusions profile calls)
    {after : List (OpenCall α)} (ho : Ordered exclusions other after)
    (hspent : ∀ method, other.methods.spent method = profile.methods.spent method)
    (hledger : other.ledger = profile.ledger) : Accounted exclusions other after where
  toOrdered := ho
  balanced method := by rw [hspent, hledger, h.balanced]

/-- Notes about a method that are no part of its account. -/
theorem Accounted.note (h : Accounted exclusions profile calls) (id : Nat)
    (change : MethodRecord α → MethodRecord α)
    (hkey : ∀ record, (change record).key = record.key)
    (hmethod : ∀ record, (change record).method = record.method)
    (hnodes : ∀ record, (change record).nodes = record.nodes)
    (hcost : ∀ record, (change record).measurement = record.measurement)
    (hexcluded : ∀ record, (change record).excluded = record.excluded)
    (hvisits : ∀ record, (change record).visits = record.visits) :
    Accounted exclusions (profile.modifyMethod id change) calls := by
  have hshape : SameShape profile (profile.modifyMethod id change) :=
    sameShape_modifyMethod hkey hmethod hnodes
  have ho := h.toOrdered.note id change hkey hmethod hnodes hexcluded hvisits
  refine h.of_ordered ho (fun method => ?_) (h.sound.ledger_of_tree ho.sound hshape.grows rfl)
  show (profile.methods.modify id change).spent method = _
  cases hrecord : profile.methods.record? id with
  | none => rw [Registry.modify_of_none hrecord]
  | some record =>
      have hnone : (change record).measurement = record.measurement + 0 := by
        rw [hcost, add_zero]
      have hspent := h.sound.methods.spent_modify hrecord change hkey hmethod hnone method
      rw [ite_self, add_zero] at hspent
      exact hspent

/-! ## Booking -/

/-- A cost goes to a node, and its share to the record of the node's method. -/
theorem Accounted.balanced_book (h : Accounted exclusions profile calls) {id : Nat}
    {node : Node α} {record : MethodRecord α} (hnode : profile.tree.node? id = some node)
    (hrecord : profile.methods.record? node.method = some record)
    (note : Node α → Node α) (change : MethodRecord α → MethodRecord α)
    (cost : Measurement α)
    (horigin : ∀ node, (note node).origin = node.origin)
    (hlinks : ∀ node, (note node).links = node.links)
    (hkey : ∀ record, (change record).key = record.key)
    (hmethod : ∀ record, (change record).method = record.method)
    (hnodes : ∀ record, (change record).nodes = record.nodes)
    (hcost : (note node).measurement = node.measurement + cost)
    (hshare : (change record).measurement =
      record.measurement + share record.method (profile.path id) cost) (method : Method) :
    ((profile.modifyNode id note).modifyMethod node.method change).methods.spent method =
      summary method ((profile.modifyNode id note).modifyMethod node.method change).ledger := by
  have hledger := h.sound.ledger_book hnode node.method note change cost horigin hlinks hkey
    hmethod hnodes hcost
  have hspent := h.sound.methods.spent_modify hrecord change hkey hmethod hshare method
  rw [hledger, map_add, summary_single, ← h.balanced]
  refine hspent.trans ?_
  congr 1
  rw [h.sound.path_eq hnode hrecord, share_cons, share_cons, if_pos rfl]

/-- Opening a call at a node. -/
theorem Accounted.enter (h : Accounted exclusions profile calls) {id method : Nat}
    (hmethod : profile.methodOf? id = some method)
    (hplace : innermost calls = some id ∨ profile.tree.parent? id = innermost calls) :
    Accounted exclusions (profile.enter id method) (⟨id, method, 0⟩ :: calls) := by
  refine ⟨h.toOrdered.enter hmethod hplace 0, ?_⟩
  obtain ⟨node, hnode, rfl⟩ := methodOf?_eq_some hmethod
  obtain ⟨record, hrecord, -⟩ := h.sound.bound hnode
  have hpath := h.sound.path_eq hnode hrecord
  refine h.balanced_book hnode hrecord Node.entered MethodRecord.entered ⟨0, 0, 0, 1⟩
    (fun _ => rfl) (fun _ => rfl) (fun _ => rfl) (fun _ => rfl) (fun _ => rfl) ?_ ?_
  · exact node.measurement_entered
  · rw [hpath, share_cons, if_pos rfl, ite_self]
    exact record.measurement_entered

/-- Closing the innermost call. -/
theorem Accounted.close {call : OpenCall α} {below : List (OpenCall α)}
    (h : Accounted exclusions profile (call :: below)) (selfTime waitTime totalTime : α) :
    Accounted exclusions
      (profile.settle call.node call.method selfTime waitTime totalTime)
      (credited totalTime below) := by
  refine ⟨h.toOrdered.close selfTime waitTime totalTime, ?_⟩
  obtain ⟨node, hnode, hmethod⟩ := methodOf?_eq_some (h.stacked.methodOf? List.mem_cons_self)
  obtain ⟨record, hrecord, -⟩ := h.sound.bound hnode
  have hpath := h.sound.path_eq hnode hrecord
  have hlast := h.last_visit_iff hnode (hmethod ▸ hrecord)
  have htail : (profile.path call.node).tail = profile.pathTo node.parent := by
    rw [hpath]
    rfl
  rw [← hmethod]
  refine h.balanced_book hnode hrecord (·.settled selfTime waitTime totalTime)
    (·.settled selfTime waitTime totalTime)
    ⟨selfTime, waitTime, if node.visits = 1 then totalTime else 0, 0⟩
    (fun _ => rfl) (fun _ => rfl) (fun _ => rfl) (fun _ => rfl) (fun _ => rfl) ?_ ?_
  · exact node.measurement_settled selfTime waitTime totalTime
  · rw [hpath, share_cons, if_pos rfl, record.measurement_settled]
    rw [htail] at hlast
    by_cases hmem : record.method ∈ profile.pathTo node.parent
    · rw [if_pos hmem, if_neg fun hone => (hlast.mp hone).2 hmem]
    · rw [if_neg hmem]
      by_cases hone : node.visits = 1
      · rw [if_pos (hlast.mpr ⟨hone, hmem⟩), if_pos hone]
      · rw [if_neg fun hrec => hone (hlast.mp hrec).1, if_neg hone]

end Profile

end CallLedger
