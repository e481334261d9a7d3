import Mathlib.Data.Fintype.Pigeonhole
import Mathlib.Logic.Function.Iterate
import CallLedger.Method.Registry

/-!
# A registry is an exact map on method identities

Keys are hashes and may collide, so what makes a search exact is not the key
but the trail that leads to it: every record sits on a candidate of its own
method, and each earlier candidate of that method was taken when the record
was added. Keys are never given back, so the trail stays closed for good, and
a search that follows it cannot stop before the record.

A search that has turned down `size + 1` candidates does not end. Two of them
were the same, because they are held by `size` records only, and from the
first repetition on the candidates run in a circle. So it has seen all the
candidates there are, and no later search for the same method ends either:
that is why a method that was taken to live under a spare key is taken to live
there again.
-/

namespace CallLedger

/-! ## First sight -/

theorem eraseDups_concat_of_mem {γ : Type} [BEq γ] [LawfulBEq γ] {members : List γ} {last : γ}
    (h : last ∈ members) : (members ++ [last]).eraseDups = members.eraseDups := by
  rw [List.eraseDups_append]
  simp [List.removeAll, h]

theorem eraseDups_concat {γ : Type} [BEq γ] [LawfulBEq γ] {members : List γ} {last : γ}
    (h : last ∉ members) : (members ++ [last]).eraseDups = members.eraseDups ++ [last] := by
  rw [List.eraseDups_append]
  simp [List.removeAll, h, List.eraseDups_cons]

/-! ## Candidates -/

/-- The candidates for the key of a method, in the order of the search. -/
def Key.candidate (method : Method) (n : Nat) : UInt64 :=
  Key.next^[n] (Key.first method)

theorem Key.candidate_succ {method : Method} {n : Nat} :
    Key.candidate method (n + 1) = Key.next (Key.candidate method n) :=
  Function.iterate_succ_apply' _ _ _

/-- From a repetition on, the candidates run in a circle. -/
theorem Key.candidate_add {method : Method} {i j : Nat}
    (h : Key.candidate method i = Key.candidate method j) (n : Nat) :
    Key.candidate method (i + n) = Key.candidate method (j + n) := by
  induction n with
  | zero => exact h
  | succ n ih =>
      rw [← Nat.add_assoc, ← Nat.add_assoc, Key.candidate_succ, Key.candidate_succ, ih]

/-- After a repetition no further candidate is new. -/
theorem Key.exists_candidate_lt {method : Method} {i j : Nat} (hij : i < j)
    (h : Key.candidate method i = Key.candidate method j) (n : Nat) :
    ∃ l < j, Key.candidate method n = Key.candidate method l := by
  induction n using Nat.strongRecOn with
  | ind n ih =>
      rcases Nat.lt_or_ge n j with hn | hn
      · exact ⟨n, hn, rfl⟩
      · obtain ⟨l, hl, heq⟩ := ih (i + (n - j)) (by omega)
        refine ⟨l, hl, ?_⟩
        rw [← heq, Key.candidate_add h]
        congr 1
        omega

namespace Registry

variable {α : Type}

/-! ## Records by position -/

theorem record?_modify {methods : Registry α} {id other : Nat}
    {change : MethodRecord α → MethodRecord α} :
    (methods.modify id change).record? other =
      if id = other then (methods.record? other).map change
      else methods.record? other := by
  unfold modify record?
  rw [Array.getElem?_modify]

/-- A record after a change is the changed one, or one of the others as it was. -/
theorem record?_modify_cases {methods : Registry α} {id other : Nat}
    {change : MethodRecord α → MethodRecord α} {after : MethodRecord α}
    (h : (methods.modify id change).record? other = some after) :
    ∃ before, methods.record? other = some before ∧
      ((other = id ∧ after = change before) ∨ (other ≠ id ∧ after = before)) := by
  rw [record?_modify] at h
  split at h
  · next heq =>
      obtain ⟨before, hbefore, rfl⟩ := Option.map_eq_some_iff.mp h
      exact ⟨before, hbefore, Or.inl ⟨heq.symm, rfl⟩⟩
  · next hne => exact ⟨after, h, Or.inr ⟨fun heq => hne heq.symm, rfl⟩⟩

theorem record?_push {methods : Registry α} {record : MethodRecord α} {id : Nat} :
    (methods.push record).record? id =
      if id = methods.size then some record else methods.record? id := by
  unfold push record? size
  rw [Array.getElem?_push]

theorem size_push {methods : Registry α} {record : MethodRecord α} :
    (methods.push record).size = methods.size + 1 := by
  unfold push size
  rw [Array.size_push]

theorem record?_lt {methods : Registry α} {id : Nat} {record : MethodRecord α}
    (h : methods.record? id = some record) : id < methods.size := by
  unfold record? at h
  exact (Array.getElem?_eq_some_iff.mp h).1

theorem exists_record? {methods : Registry α} {id : Nat} (h : id < methods.size) :
    ∃ record, methods.record? id = some record :=
  ⟨_, Array.getElem?_eq_getElem h⟩

theorem modify_of_none {methods : Registry α} {id : Nat} (h : methods.record? id = none)
    (change : MethodRecord α → MethodRecord α) : methods.modify id change = methods := by
  refine congrArg Registry.mk (Array.ext_getElem? fun i => ?_)
  show (methods.modify id change).record? i = methods.record? i
  rw [record?_modify]
  split
  · next heq =>
      rw [← heq, h]
      rfl
  · rfl

theorem find?_eq_some {methods : Registry α} {key : Key} {id : Nat}
    (h : methods.find? key = some id) :
    ∃ record, methods.record? id = some record ∧ record.key = key := by
  obtain ⟨hid, hkey, -⟩ := Array.findIdx?_eq_some_iff_getElem.mp h
  exact ⟨methods.records[id], Array.getElem?_eq_getElem hid, by simpa using hkey⟩

theorem find?_eq_none {methods : Registry α} {key : Key} (h : methods.find? key = none)
    {id : Nat} {record : MethodRecord α} (hid : methods.record? id = some record) :
    record.key ≠ key := by
  have := Array.findIdx?_eq_none_iff.mp h record (Array.mem_of_getElem? hid)
  simpa using this

/-! ## What a search sees

A search looks at keys and identities only, so it does not notice anything
that is measured. -/

/-- The key and the identity of every record. -/
def names (methods : Registry α) : Array (Key × Method) :=
  methods.records.map fun record => (record.key, record.method)

theorem names_getElem? {methods : Registry α} {id : Nat} :
    methods.names[id]? =
      (methods.record? id).map fun record => (record.key, record.method) := by
  unfold names record?
  rw [Array.getElem?_map]

theorem size_names {methods : Registry α} : methods.names.size = methods.size := by
  unfold names size
  rw [Array.size_map]

theorem names_push {methods : Registry α} {record : MethodRecord α} :
    (methods.push record).names = methods.names.push (record.key, record.method) := by
  unfold push names
  rw [Array.map_push]

theorem names_modify {methods : Registry α} {id : Nat}
    {change : MethodRecord α → MethodRecord α}
    (hkey : ∀ record, (change record).key = record.key)
    (hmethod : ∀ record, (change record).method = record.method) :
    (methods.modify id change).names = methods.names := by
  refine Array.ext_getElem? fun i => ?_
  rw [names_getElem?, names_getElem?, record?_modify]
  split
  · rw [Option.map_map]
    congr 1
    funext record
    simp [hkey, hmethod]
  · rfl

section Congr

variable {β : Type} {methods : Registry α} {others : Registry β}

theorem find?_names {key : Key} :
    methods.find? key = methods.names.findIdx? fun name => name.1 = key := by
  unfold find? names
  rw [Array.findIdx?_map]
  rfl

theorem find?_congr (h : methods.names = others.names) {key : Key} :
    methods.find? key = others.find? key := by
  rw [find?_names, find?_names, h]

theorem probe_congr (h : methods.names = others.names) {method : Method} :
    ∀ {tries : Nat} {candidate : UInt64},
      methods.probe method tries candidate = others.probe method tries candidate := by
  intro tries
  induction tries with
  | zero => intro candidate; rfl
  | succ tries ih =>
      intro candidate
      rw [probe, probe, find?_congr h]
      cases others.find? (.hash candidate) with
      | none => rfl
      | some id =>
          have hid : (methods.record? id).map (fun r => (r.key, r.method)) =
              (others.record? id).map fun r => (r.key, r.method) := by
            rw [← names_getElem?, ← names_getElem?, h]
          cases hm : methods.record? id with
          | none =>
              cases ho : others.record? id with
              | none => simp only [hm, ho]
              | some theirs => rw [hm, ho] at hid; cases hid
          | some mine =>
              cases ho : others.record? id with
              | none => rw [hm, ho] at hid; cases hid
              | some theirs =>
                  rw [hm, ho] at hid
                  simp only [Option.map_some, Option.some.injEq, Prod.mk.injEq] at hid
                  simp only [hm, ho]
                  rw [hid.2, ih]

/-- Registries that list the same names find the same methods. -/
theorem locate_congr (h : methods.names = others.names) {method : Method} :
    methods.locate method = others.locate method := by
  have hsize : methods.size = others.size := by
    rw [← size_names, ← size_names, h]
  have hspare : methods.locateSpare method = others.locateSpare method := by
    have hidx : methods.records.findIdx? (fun record => record.method = method) =
        others.records.findIdx? fun record => record.method = method := by
      have hm := congrArg (Array.findIdx? fun name => name.2 = method) h
      unfold names at hm
      rw [Array.findIdx?_map, Array.findIdx?_map] at hm
      exact hm
    unfold locateSpare
    rw [hidx, hsize]
  unfold locate search
  rw [hsize, probe_congr h, hspare]

end Congr

/-- A record of one registry has its counterpart in another that lists the
same names. -/
theorem record?_of_names {β : Type} {methods : Registry α} {others : Registry β}
    (h : methods.names = others.names) {id : Nat} {record : MethodRecord α}
    (hid : methods.record? id = some record) :
    ∃ other, others.record? id = some other ∧ other.key = record.key ∧
      other.method = record.method := by
  have heq : (methods.record? id).map (fun r => (r.key, r.method)) =
      (others.record? id).map fun r => (r.key, r.method) := by
    rw [← names_getElem?, ← names_getElem?, h]
  rw [hid] at heq
  cases ho : others.record? id with
  | none => rw [ho] at heq; cases heq
  | some other =>
      rw [ho] at heq
      simp only [Option.map_some, Option.some.injEq, Prod.mk.injEq] at heq
      exact ⟨other, rfl, heq.1.symm, heq.2.symm⟩

/-! ## The trail to a record -/

/-- Some record holds a candidate. -/
def Taken (methods : Registry α) (candidate : UInt64) : Prop :=
  ∃ id record, methods.record? id = some record ∧ record.key = .hash candidate

/-- A search for a method comes to a key and finds nothing free on the way. -/
def Trail (methods : Registry α) (method : Method) : Key → Prop
  | .hash value =>
      ∃ n, value = Key.candidate method n ∧
        ∀ l < n, methods.Taken (Key.candidate method l)
  | .spare number => number < methods.size ∧ ∀ l, methods.Taken (Key.candidate method l)

/-- No two records share a key or an identity, and the trail to every record
is closed. -/
structure Sound (methods : Registry α) : Prop where
  key_inj : ∀ {i j : Nat} {a b : MethodRecord α}, methods.record? i = some a →
    methods.record? j = some b → a.key = b.key → i = j
  method_inj : ∀ {i j : Nat} {a b : MethodRecord α}, methods.record? i = some a →
    methods.record? j = some b → a.method = b.method → i = j
  trail : ∀ {i : Nat} {a : MethodRecord α}, methods.record? i = some a →
    methods.Trail a.method a.key

/-- No two records in the list have one method. -/
theorem Sound.pairwise {methods : Registry α} (hs : methods.Sound) :
    methods.records.toList.Pairwise fun a b => a.method ≠ b.method := by
  refine List.pairwise_iff_getElem.mpr fun i j hi hj hij heq => ?_
  have := hs.method_inj (i := i) (j := j) (methods.records.getElem?_eq_getElem hi)
    (methods.records.getElem?_eq_getElem hj) heq
  omega

theorem Taken.of_names {β : Type} {methods : Registry α} {others : Registry β}
    (h : methods.names = others.names) {candidate : UInt64}
    (ht : methods.Taken candidate) : others.Taken candidate := by
  obtain ⟨id, record, hid, hkey⟩ := ht
  obtain ⟨other, ho, hkeys, -⟩ := record?_of_names h hid
  exact ⟨id, other, ho, hkeys.trans hkey⟩

theorem Trail.of_names {β : Type} {methods : Registry α} {others : Registry β}
    (h : methods.names = others.names) {method : Method} {key : Key}
    (ht : methods.Trail method key) : others.Trail method key := by
  cases key with
  | hash value =>
      obtain ⟨n, hn, hl⟩ := ht
      exact ⟨n, hn, fun l hlt => (hl l hlt).of_names h⟩
  | spare number =>
      obtain ⟨hn, hl⟩ := ht
      refine ⟨?_, fun l => (hl l).of_names h⟩
      rw [← size_names, ← h, size_names]
      exact hn

/-- Soundness is about names only, so nothing that is measured can break it. -/
theorem Sound.of_names {β : Type} {methods : Registry α} {others : Registry β}
    (h : methods.names = others.names) (hs : methods.Sound) : others.Sound where
  key_inj hi hj hkey := by
    obtain ⟨a, ha, hka, -⟩ := record?_of_names h.symm hi
    obtain ⟨b, hb, hkb, -⟩ := record?_of_names h.symm hj
    exact hs.key_inj ha hb (by rw [hka, hkb, hkey])
  method_inj hi hj hmethod := by
    obtain ⟨a, ha, -, hma⟩ := record?_of_names h.symm hi
    obtain ⟨b, hb, -, hmb⟩ := record?_of_names h.symm hj
    exact hs.method_inj ha hb (by rw [hma, hmb, hmethod])
  trail hi := by
    obtain ⟨a, ha, hka, hma⟩ := record?_of_names h.symm hi
    rw [← hka, ← hma]
    exact (hs.trail ha).of_names h

theorem sound_empty : (empty : Registry α).Sound where
  key_inj hi := absurd (record?_lt hi) (Nat.not_lt_zero _)
  method_inj hi := absurd (record?_lt hi) (Nat.not_lt_zero _)
  trail hi := absurd (record?_lt hi) (Nat.not_lt_zero _)

/-! ## Where a search ends -/

theorem probe_found {methods : Registry α} {method : Method} {id : Nat} :
    ∀ {tries : Nat} {candidate : UInt64},
      methods.probe method tries candidate = some (.found id) →
      ∃ record, methods.record? id = some record ∧ record.method = method := by
  intro tries
  induction tries with
  | zero => intro candidate h; cases h
  | succ tries ih =>
      intro candidate h
      rw [probe] at h
      split at h
      · cases h
      · next other hfind =>
          split at h
          · cases h
          · next record hrecord =>
              split at h
              · next hmethod =>
                  cases h
                  exact ⟨record, hrecord, hmethod⟩
              · exact ih h

theorem probe_free {methods : Registry α} {method : Method} {key : Key} :
    ∀ {tries n : Nat},
      methods.probe method tries (Key.candidate method n) = some (.free key) →
      ∃ m, n ≤ m ∧ key = .hash (Key.candidate method m) ∧ methods.find? key = none ∧
        ∀ l, n ≤ l → l < m → methods.Taken (Key.candidate method l) := by
  intro tries
  induction tries with
  | zero => intro n h; cases h
  | succ tries ih =>
      intro n h
      rw [probe] at h
      split at h
      · next hfind =>
          cases h
          exact ⟨n, Nat.le_refl n, rfl, hfind, fun l hn hl => absurd hn (by omega)⟩
      · next other hfind =>
          obtain ⟨record, hrecord, hkey⟩ := find?_eq_some hfind
          rw [hrecord] at h
          simp only [] at h
          split at h
          · cases h
          · rw [← Key.candidate_succ] at h
            obtain ⟨m, hnm, hm, hnone, htaken⟩ := ih h
            refine ⟨m, by omega, hm, hnone, fun l hn hl => ?_⟩
            rcases Nat.eq_or_lt_of_le hn with rfl | hlt
            · exact ⟨other, record, hrecord, hkey⟩
            · exact htaken l hlt hl

theorem probe_none {methods : Registry α} {method : Method} :
    ∀ {tries n : Nat},
      methods.probe method tries (Key.candidate method n) = none →
      ∀ l, n ≤ l → l < n + tries → methods.Taken (Key.candidate method l) := by
  intro tries
  induction tries with
  | zero => intro n _ l hn hl; exact absurd hl (by omega)
  | succ tries ih =>
      intro n h l hn hl
      rw [probe] at h
      split at h
      · cases h
      · next other hfind =>
          obtain ⟨record, hrecord, hkey⟩ := find?_eq_some hfind
          rw [hrecord] at h
          simp only [] at h
          split at h
          · cases h
          · rw [← Key.candidate_succ] at h
            rcases Nat.eq_or_lt_of_le hn with rfl | hlt
            · exact ⟨other, record, hrecord, hkey⟩
            · exact ih h l hlt (by omega)

/-- One step of a search at a taken candidate that is not the key of the
method that is searched for: it goes on with the next one. -/
theorem Sound.probe_step {methods : Registry α} (hs : methods.Sound) {id : Nat}
    {record : MethodRecord α} (hid : methods.record? id = some record) {n tries : Nat}
    (htaken : methods.Taken (Key.candidate record.method n))
    (hne : record.key ≠ .hash (Key.candidate record.method n)) :
    methods.probe record.method (tries + 1) (Key.candidate record.method n) =
      methods.probe record.method tries (Key.candidate record.method (n + 1)) := by
  obtain ⟨i, a, ha, hkey⟩ := htaken
  rw [probe]
  cases hfind : methods.find? (.hash (Key.candidate record.method n)) with
  | none => exact absurd hkey (find?_eq_none hfind ha)
  | some other =>
      obtain ⟨b, hb, hkb⟩ := find?_eq_some hfind
      have hmethod : b.method ≠ record.method := by
        intro heq
        have hio := hs.method_inj hb hid heq
        subst hio
        rw [hb] at hid
        cases hid
        exact hne hkb
      simp only [hb]
      rw [if_neg hmethod, Key.candidate_succ]

theorem Sound.probe_hit {methods : Registry α} (hs : methods.Sound) {id : Nat}
    {record : MethodRecord α} (hid : methods.record? id = some record) {m : Nat}
    (hkey : record.key = .hash (Key.candidate record.method m)) :
    ∀ {tries n : Nat}, n ≤ m → m < n + tries →
      (∀ l, n ≤ l → l < m → methods.Taken (Key.candidate record.method l) ∧
        Key.candidate record.method m ≠ Key.candidate record.method l) →
      methods.probe record.method tries (Key.candidate record.method n) =
        some (.found id) := by
  intro tries
  induction tries with
  | zero => intro n hn hm _; exact absurd hm (by omega)
  | succ tries ih =>
      intro n hn hm hbefore
      rcases Nat.eq_or_lt_of_le hn with rfl | hlt
      · rw [probe]
        cases hfind : methods.find? (.hash (Key.candidate record.method n)) with
        | none => exact absurd hkey (find?_eq_none hfind hid)
        | some other =>
            obtain ⟨b, hb, hkb⟩ := find?_eq_some hfind
            have hio := hs.key_inj hb hid (by rw [hkb, hkey])
            subst hio
            rw [hb] at hid
            cases hid
            simp only [hb, if_true]
      · obtain ⟨htaken, hne⟩ := hbefore n (Nat.le_refl n) hlt
        rw [hs.probe_step hid htaken (by rw [hkey]; simpa using hne)]
        exact ih (by omega) (by omega) fun l hl hlm => hbefore l (by omega) hlm

theorem Sound.probe_miss {methods : Registry α} (hs : methods.Sound) {id number : Nat}
    {record : MethodRecord α} (hid : methods.record? id = some record)
    (hkey : record.key = .spare number)
    (htaken : ∀ l, methods.Taken (Key.candidate record.method l)) :
    ∀ {tries n : Nat},
      methods.probe record.method tries (Key.candidate record.method n) = none := by
  intro tries
  induction tries with
  | zero => intro n; rfl
  | succ tries ih =>
      intro n
      rw [hs.probe_step hid (htaken n) (by rw [hkey]; simp)]
      exact ih

/-! ## Circles

`size` records cannot hold `size + 1` different candidates. -/

theorem exists_candidate_eq {methods : Registry α} {method : Method}
    (h : ∀ l ≤ methods.size, methods.Taken (Key.candidate method l)) :
    ∃ i j, i < j ∧ j ≤ methods.size ∧
      Key.candidate method i = Key.candidate method j := by
  have hholder : ∀ l : Fin (methods.size + 1), ∃ id : Fin methods.size, ∃ record,
      methods.record? id = some record ∧
        record.key = .hash (Key.candidate method l) := by
    intro l
    obtain ⟨id, record, hid, hkey⟩ := h l (by omega)
    exact ⟨⟨id, record?_lt hid⟩, record, hid, hkey⟩
  choose holder hrecord using hholder
  obtain ⟨a, b, hab, heq⟩ :=
    Fintype.exists_ne_map_eq_of_card_lt holder (by simp)
  have hsame : Key.candidate method a = Key.candidate method b := by
    obtain ⟨ra, hra, hka⟩ := hrecord a
    obtain ⟨rb, hrb, hkb⟩ := hrecord b
    rw [heq, hrb] at hra
    cases hra
    rw [hka] at hkb
    simpa using hkb
  have hne : a.val ≠ b.val := fun h => hab (Fin.ext h)
  rcases Nat.lt_or_gt_of_ne hne with hlt | hlt
  · exact ⟨a, b, hlt, by omega, hsame⟩
  · exact ⟨b, a, hlt, by omega, hsame.symm⟩

/-- A search that turned down `size + 1` candidates has seen them all. -/
theorem taken_of_taken_le {methods : Registry α} {method : Method}
    (h : ∀ l ≤ methods.size, methods.Taken (Key.candidate method l)) (n : Nat) :
    methods.Taken (Key.candidate method n) := by
  obtain ⟨i, j, hij, hj, heq⟩ := exists_candidate_eq h
  obtain ⟨l, hl, hn⟩ := Key.exists_candidate_lt hij heq n
  rw [hn]
  exact h l (by omega)

/-! ## The search -/

/-- Every record is found by its identity. -/
theorem Sound.locate_record {methods : Registry α} (hs : methods.Sound) {id : Nat}
    {record : MethodRecord α} (hid : methods.record? id = some record) :
    methods.locate record.method = .found id := by
  have htrail := hs.trail hid
  cases hkey : record.key with
  | hash value =>
      rw [hkey] at htrail
      obtain ⟨n, hn, htaken⟩ := htrail
      -- the first time the key comes up, nothing before it repeats
      have hex : ∃ m, Key.candidate record.method m = value := ⟨n, hn.symm⟩
      have hm : Key.candidate record.method (Nat.find hex) = value := Nat.find_spec hex
      have hfirst : ∀ l < Nat.find hex, Key.candidate record.method l ≠ value :=
        fun l hl => Nat.find_min hex hl
      have hmn : Nat.find hex ≤ n := Nat.find_min' hex hn.symm
      have hsize : Nat.find hex ≤ methods.size := by
        by_contra hlt
        obtain ⟨i, j, hij, hj, heq⟩ :=
          exists_candidate_eq fun l (hl : l ≤ methods.size) => htaken l (by omega)
        obtain ⟨l, hl, hcircle⟩ := Key.exists_candidate_lt hij heq (Nat.find hex)
        exact hfirst l (by omega) (hcircle.symm.trans hm)
      have hprobe : methods.probe record.method (methods.size + 1)
          (Key.candidate record.method 0) = some (.found id) :=
        hs.probe_hit hid (by rw [hkey, hm]) (Nat.zero_le (Nat.find hex)) (by omega)
          fun l _ hl => ⟨htaken l (by omega), fun heq => hfirst l hl (heq.symm.trans hm)⟩
      have hstart : Key.candidate record.method 0 = Key.first record.method := rfl
      rw [hstart] at hprobe
      rw [locate, search, hprobe]
  | spare number =>
      rw [hkey] at htrail
      have hprobe : methods.probe record.method (methods.size + 1)
          (Key.candidate record.method 0) = none := hs.probe_miss hid hkey htrail.2
      have hstart : Key.candidate record.method 0 = Key.first record.method := rfl
      rw [hstart] at hprobe
      rw [locate, search, hprobe]
      simp only [locateSpare]
      have hidx : methods.records.findIdx? (fun r => r.method = record.method) =
          some id := by
        obtain ⟨hlt, hget⟩ := Array.getElem?_eq_some_iff.mp hid
        refine Array.findIdx?_eq_some_iff_getElem.mpr ⟨hlt, by simp [hget], ?_⟩
        intro j hj hmethod
        have := hs.method_inj (Array.getElem?_eq_getElem (Nat.lt_trans hj hlt)) hid
          (by simpa using hmethod)
        exact absurd this (Nat.ne_of_lt hj)
      rw [hidx]

theorem locate_found {methods : Registry α} {method : Method} {id : Nat}
    (h : methods.locate method = .found id) :
    ∃ record, methods.record? id = some record ∧ record.method = method := by
  rw [locate] at h
  split at h
  · next located hprobe =>
      subst h
      exact probe_found hprobe
  · rw [locateSpare] at h
    split at h
    · next other hidx =>
        cases h
        obtain ⟨hlt, hmethod, -⟩ := Array.findIdx?_eq_some_iff_getElem.mp hidx
        exact ⟨methods.records[id], Array.getElem?_eq_getElem hlt, by simpa using hmethod⟩
    · cases h

/-- A key that is free for a method is held by no record, and the trail to it
is closed. -/
theorem Sound.locate_free {methods : Registry α} (hs : methods.Sound) {method : Method}
    {key : Key} (h : methods.locate method = .free key) :
    (∀ {id : Nat} {record : MethodRecord α}, methods.record? id = some record →
      record.key ≠ key ∧ record.method ≠ method) ∧
    (key = .spare methods.size ∨ methods.Trail method key) ∧
    (key = .spare methods.size → ∀ l, methods.Taken (Key.candidate method l)) := by
  have hunknown : ∀ {id : Nat} {record : MethodRecord α},
      methods.record? id = some record → record.method ≠ method := by
    intro id record hid heq
    have := hs.locate_record hid
    rw [heq, h] at this
    cases this
  rw [locate] at h
  split at h
  · next located hprobe =>
      subst h
      obtain ⟨m, -, hm, hnone, htaken⟩ := probe_free (n := 0) hprobe
      refine ⟨fun hid => ⟨find?_eq_none hnone hid, hunknown hid⟩, Or.inr ?_, ?_⟩
      · rw [hm]
        exact ⟨m, rfl, fun l hl => htaken l (Nat.zero_le l) hl⟩
      · rw [hm]
        intro heq
        cases heq
  · next hprobe =>
      rw [locateSpare] at h
      split at h
      · cases h
      · cases h
        refine ⟨fun hid => ⟨fun hkey => ?_, hunknown hid⟩, Or.inl rfl, fun _ => ?_⟩
        · have htrail := hs.trail hid
          rw [hkey] at htrail
          exact absurd htrail.1 (Nat.lt_irrefl _)
        · exact taken_of_taken_le fun l hl =>
            probe_none (n := 0) hprobe l (Nat.zero_le l) (by omega)

theorem Sound.lookup_record {methods : Registry α} (hs : methods.Sound) {id : Nat}
    {record : MethodRecord α} (hid : methods.record? id = some record) :
    methods.lookup record.method = some id := by
  rw [lookup, hs.locate_record hid]

theorem lookup_eq_some {methods : Registry α} {method : Method} {id : Nat}
    (h : methods.lookup method = some id) :
    ∃ record, methods.record? id = some record ∧ record.method = method := by
  rw [lookup] at h
  split at h
  · next found hlocate =>
      cases h
      exact locate_found hlocate
  · cases h

/-- What is searched for and found is the record of the method. -/
theorem Sound.lookup_eq_some_iff {methods : Registry α} (hs : methods.Sound) {method : Method}
    {id : Nat} : methods.lookup method = some id ↔
      ∃ record, methods.record? id = some record ∧ record.method = method := by
  constructor
  · exact lookup_eq_some
  · rintro ⟨record, hid, rfl⟩
    exact hs.lookup_record hid

/-! ## Adding a record -/

theorem Taken.push {methods : Registry α} {record : MethodRecord α} {candidate : UInt64}
    (h : methods.Taken candidate) : (methods.push record).Taken candidate := by
  obtain ⟨id, holder, hid, hkey⟩ := h
  refine ⟨id, holder, ?_, hkey⟩
  rw [record?_push, if_neg (Nat.ne_of_lt (record?_lt hid))]
  exact hid

theorem Trail.push {methods : Registry α} {record : MethodRecord α} {method : Method}
    {key : Key} (h : methods.Trail method key) : (methods.push record).Trail method key := by
  cases key with
  | hash value =>
      obtain ⟨n, hn, htaken⟩ := h
      exact ⟨n, hn, fun l hl => (htaken l hl).push⟩
  | spare number =>
      refine ⟨?_, fun l => (h.2 l).push⟩
      have := h.1
      rw [size_push]
      omega

/-- A record under the key that is free for its method keeps the registry
sound. -/
theorem Sound.push {methods : Registry α} (hs : methods.Sound) {record : MethodRecord α}
    (h : methods.locate record.method = .free record.key) :
    (methods.push record).Sound := by
  obtain ⟨hfresh, htrail, hspare⟩ := hs.locate_free h
  have hcases : ∀ {i : Nat} {a : MethodRecord α},
      (methods.push record).record? i = some a →
      (i = methods.size ∧ a = record) ∨ methods.record? i = some a := by
    intro i a hi
    rw [record?_push] at hi
    split at hi
    · next heq =>
        cases hi
        exact Or.inl ⟨heq, rfl⟩
    · exact Or.inr hi
  refine ⟨?_, ?_, ?_⟩
  · intro i j a b hi hj hkey
    rcases hcases hi with ⟨rfl, rfl⟩ | hi' <;> rcases hcases hj with ⟨rfl, rfl⟩ | hj'
    · rfl
    · exact absurd hkey.symm (hfresh hj').1
    · exact absurd hkey (hfresh hi').1
    · exact hs.key_inj hi' hj' hkey
  · intro i j a b hi hj hmethod
    rcases hcases hi with ⟨rfl, rfl⟩ | hi' <;> rcases hcases hj with ⟨rfl, rfl⟩ | hj'
    · rfl
    · exact absurd hmethod.symm (hfresh hj').2
    · exact absurd hmethod (hfresh hi').2
    · exact hs.method_inj hi' hj' hmethod
  · intro i a hi
    rcases hcases hi with ⟨rfl, rfl⟩ | hi'
    · rcases htrail with hkey | htrail
      · have htaken := hspare hkey
        rw [hkey]
        refine ⟨?_, fun l => (htaken l).push⟩
        rw [size_push]
        omega
      · exact htrail.push
    · exact (hs.trail hi').push

/-- Nothing has been measured on a record, and nothing is noted there. -/
structure Unseen [Amount α] (record : MethodRecord α) : Prop where
  cost : record.measurement = .empty
  recursive : record.recursive = false
  root : record.root = false
  visits : record.visits = 0
  nodes : record.nodes = #[]
  allocations : record.allocations = .empty

/-- The outcome of a search that adds a record when it finds none. -/
inductive Entered (methods : Registry α) [Amount α] (method : Method) (excluded : Bool) :
    Registry α → MethodId → Prop
  | known {id : MethodId} (hlocate : methods.locate method = .found id) :
      Entered methods method excluded methods id
  | new {record : MethodRecord α} (hmethod : record.method = method)
      (hlocate : methods.locate record.method = .free record.key) (hunseen : Unseen record)
      (hexcluded : record.excluded = excluded) :
      Entered methods method excluded (methods.push record) methods.size

theorem lookupOrCreate_entered (methods : Registry α) [Amount α] (method : Method)
    (native : Bool) (source : Option SourceLocation) (exclusions : Exclusions) :
    Entered methods method (exclusions.contains method)
      (methods.lookupOrCreate method native source exclusions).1
      (methods.lookupOrCreate method native source exclusions).2 := by
  unfold lookupOrCreate
  cases hlocate : methods.locate method with
  | found id => exact .known hlocate
  | free key => exact .new rfl hlocate ⟨rfl, rfl, rfl, rfl, rfl, rfl⟩ rfl

theorem adopt_entered (methods : Registry α) [Amount α] (record : MethodRecord α) :
    Entered methods record.method record.excluded (methods.adopt record).1
      (methods.adopt record).2 := by
  unfold adopt insert
  cases hlocate : methods.locate record.detached.method with
  | found id => exact .known hlocate
  | free key => exact .new rfl hlocate ⟨rfl, rfl, rfl, rfl, rfl, rfl⟩ rfl

theorem Entered.exists_record {methods after : Registry α} [Amount α] {method : Method}
    {excluded : Bool} {id : Nat} (h : Entered methods method excluded after id) :
    ∃ record, after.record? id = some record ∧ record.method = method := by
  cases h with
  | known hlocate => exact locate_found hlocate
  | @new record hmethod _ _ _ =>
      exact ⟨record, by rw [record?_push, if_pos rfl], hmethod⟩

/-- A search leaves the records that are there as they are. -/
theorem Entered.record?_eq {methods after : Registry α} [Amount α] {method : Method}
    {excluded : Bool} {mine id : Nat} (h : Entered methods method excluded after mine)
    (hid : id < methods.size) : after.record? id = methods.record? id := by
  cases h with
  | known _ => rfl
  | new _ _ _ _ => rw [record?_push, if_neg (Nat.ne_of_lt hid)]

/-- What a search adds is the record that it answers with, of which nothing has been seen. -/
theorem Entered.unseen {methods after : Registry α} [Amount α] {method : Method}
    {excluded : Bool} {mine id : Nat} (h : Entered methods method excluded after mine)
    (hnew : methods.size ≤ id) {record : MethodRecord α} (hid : after.record? id = some record) :
    id = mine ∧ Unseen record ∧ record.method = method := by
  cases h with
  | known _ => exact absurd (record?_lt hid) (Nat.not_lt_of_le hnew)
  | new hmethod _ hunseen _ =>
      rw [record?_push] at hid
      split at hid
      · next hlast =>
          cases hid
          exact ⟨hlast, hunseen, hmethod⟩
      · exact absurd (record?_lt hid) (Nat.not_lt_of_le hnew)

end Registry

end CallLedger
