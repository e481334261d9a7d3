import CallLedger.Proofs.Registry

/-!
# What a registry has on a method

A registry in good order has one record of a method, or none (`Sound.recordsOf_cases`).
Read as a list that says the same whatever id the method goes by, so what two
registries have on a method can be compared. Changing a record changes what there is
on its method, and a new record adds to that.
-/

namespace CallLedger

/-- The one member of a list that meets a condition. -/
theorem filter_eq_singleton {γ : Type} {members : List γ} {meets : γ → Bool} {member : γ}
    (halone : members.Pairwise fun a b => ¬(meets a = true ∧ meets b = true))
    (hmember : member ∈ members) (hmeets : meets member = true) :
    members.filter meets = [member] := by
  induction members with
  | nil => cases hmember
  | cons first rest ih =>
      obtain ⟨hfirst, hrest⟩ := List.pairwise_cons.mp halone
      rcases List.mem_cons.mp hmember with rfl | hlater
      · rw [List.filter_cons_of_pos hmeets, List.filter_eq_nil_iff.mpr]
        exact fun other hother hother' => hfirst other hother ⟨hmeets, hother'⟩
      · rw [List.filter_cons_of_neg fun hhere => hfirst member hlater ⟨hhere, hmeets⟩]
        exact ih hrest hlater

variable {α : Type}

/-- A record but for the list of its nodes. -/
def MethodRecord.unlisted (record : MethodRecord α) : MethodRecord α := { record with nodes := #[] }

namespace Registry

variable {methods : Registry α}

/-- What a registry has on a method. -/
def recordsOf (methods : Registry α) (method : Method) : List (MethodRecord α) :=
  methods.records.toList.filter (·.method = method)

theorem mem_records {record : MethodRecord α} :
    record ∈ methods.records.toList ↔ ∃ id : Nat, methods.record? id = some record := by
  rw [Array.mem_toList_iff]
  exact ⟨Array.getElem?_of_mem, fun ⟨_, hid⟩ => Array.mem_of_getElem? hid⟩

theorem mem_recordsOf {method : Method} {record : MethodRecord α} :
    record ∈ methods.recordsOf method ↔
      (∃ id : Nat, methods.record? id = some record) ∧ record.method = method := by
  rw [recordsOf, List.mem_filter, mem_records, decide_eq_true_eq]

theorem Sound.recordsOf_record (hs : methods.Sound) {id : Nat} {record : MethodRecord α}
    (hid : methods.record? id = some record) : methods.recordsOf record.method = [record] := by
  refine filter_eq_singleton (hs.pairwise.imp fun hne hboth => hne ?_)
    (mem_records.mpr ⟨id, hid⟩) (decide_eq_true rfl)
  exact (of_decide_eq_true hboth.1).trans (of_decide_eq_true hboth.2).symm

theorem recordsOf_unknown {method : Method}
    (h : ∀ {id : Nat} {record : MethodRecord α}, methods.record? id = some record →
      record.method ≠ method) : methods.recordsOf method = [] := by
  refine List.eq_nil_iff_forall_not_mem.mpr fun record hrecord => ?_
  obtain ⟨⟨id, hid⟩, hmethod⟩ := mem_recordsOf.mp hrecord
  exact h hid hmethod

/-- A method is known or it is not. -/
theorem Sound.recordsOf_cases (hs : methods.Sound) (method : Method) :
    (∃ (id : Nat) (record : MethodRecord α), methods.record? id = some record ∧
      record.method = method ∧ methods.recordsOf method = [record]) ∨
    methods.recordsOf method = [] := by
  cases hrecords : methods.recordsOf method with
  | nil => exact Or.inr rfl
  | cons record rest =>
      obtain ⟨⟨id, hid⟩, rfl⟩ := mem_recordsOf.mp (hrecords ▸ List.mem_cons_self)
      exact Or.inl ⟨id, record, hid, rfl, hrecords.symm.trans (hs.recordsOf_record hid)⟩

theorem Sound.recordsOf_modify (hs : methods.Sound) {id : Nat} {record : MethodRecord α}
    (hid : methods.record? id = some record) (change : MethodRecord α → MethodRecord α)
    (hkey : ∀ record, (change record).key = record.key)
    (hmethod : ∀ record, (change record).method = record.method) (method : Method) :
    (methods.modify id change).recordsOf method =
      if method = record.method then [change record] else methods.recordsOf method := by
  have ho : (methods.modify id change).Sound := hs.of_names (names_modify hkey hmethod).symm
  have hafter : (methods.modify id change).record? id = some (change record) := by
    rw [record?_modify, if_pos rfl, hid]
    rfl
  split
  · next heq => rw [heq, ← hmethod record, ho.recordsOf_record hafter]
  · next hne =>
      have hother : ∀ {i : Nat} {found : MethodRecord α}, found.method = method →
          ((methods.modify id change).record? i = some found ↔
            methods.record? i = some found) := by
        rintro i found rfl
        rw [record?_modify]
        by_cases heq : id = i
        · subst heq
          rw [if_pos rfl, hid]
          refine iff_of_false (fun hsame => hne ?_) (fun hsame => hne ?_)
          · rw [← Option.some.inj hsame, hmethod]
          · rw [← Option.some.inj hsame]
        · rw [if_neg heq]
      rcases hs.recordsOf_cases method with ⟨i, found, hi, hfound, hrecords⟩ | hrecords
      · rw [hrecords, ← hfound]
        exact ho.recordsOf_record ((hother hfound).mpr hi)
      · rw [hrecords]
        refine recordsOf_unknown fun hi hfound => ?_
        have hmem := mem_recordsOf.mpr ⟨⟨_, (hother hfound).mp hi⟩, hfound⟩
        rw [hrecords] at hmem
        cases hmem

theorem filter_singleton (record : MethodRecord α) (method : Method) :
    [record].filter (·.method = method) = if method = record.method then [record] else [] := by
  by_cases heq : method = record.method
  · subst heq
    simp
  · rw [if_neg heq, List.filter_eq_nil_iff]
    intro other hother hsame
    rw [List.mem_singleton.mp hother] at hsame
    exact heq (of_decide_eq_true hsame).symm

theorem recordsOf_push (record : MethodRecord α) (method : Method) :
    (methods.push record).recordsOf method =
      methods.recordsOf method ++ if method = record.method then [record] else [] := by
  rw [recordsOf, push, Array.toList_push, List.filter_append, filter_singleton]
  rfl

end Registry

end CallLedger
