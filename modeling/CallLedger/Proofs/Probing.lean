import CallLedger.Proofs.Directory

/-!
# A search that can end does

A search knows no bound. It goes from candidate to candidate until one is free or is the key of
the method (`Registry.Searches`), and if the candidates run in a circle of keys that others hold, it
goes on for ever. `Registry.probe` is the same search with a limit. The limit of `size + 1` tries
takes nothing away (`Registry.ends_iff`): by then two of the candidates were the same, and from the
first repetition on a search only sees again what it has turned down before.

So a search ends when the first `size + 1` candidates differ (`Registry.search_settled`). They cannot
all be taken, for no two records hold one key and there are only `size` of them. Nothing else is
asked of the hash.
-/

namespace CallLedger.Registry

variable {α : Type}

/-- The search for a method from a candidate on, as long as it takes: the number of candidates that
are tried, and what it comes to. -/
inductive Searches (methods : Registry α) (method : Method) : UInt64 → Nat → Located → Prop
  | free {candidate : UInt64} (hfind : methods.find? (.hash candidate) = none) :
      Searches methods method candidate 1 (.free (.hash candidate))
  | found {candidate : UInt64} {id : MethodId} {record : MethodRecord α}
      (hfind : methods.find? (.hash candidate) = some id)
      (hid : methods.record? id = some record) (hmethod : record.method = method) :
      Searches methods method candidate 1 (.found id)
  | next {candidate : UInt64} {id : MethodId} {record : MethodRecord α} {tries : Nat}
      {outcome : Located} (hfind : methods.find? (.hash candidate) = some id)
      (hid : methods.record? id = some record) (hmethod : record.method ≠ method)
      (hrest : Searches methods method (Key.next candidate) tries outcome) :
      Searches methods method candidate (tries + 1) outcome

variable {methods : Registry α} {method : Method}

/-! ## The search and its limit -/

theorem searches_of_probe : ∀ {limit : Nat} {candidate : UInt64} {outcome : Located},
    methods.probe method limit candidate = some outcome →
      ∃ tries ≤ limit, methods.Searches method candidate tries outcome := by
  intro limit
  induction limit with
  | zero => intro candidate outcome h; cases h
  | succ limit ih =>
      intro candidate outcome h
      rw [probe] at h
      split at h
      · next hfind =>
          cases h
          exact ⟨1, by omega, .free hfind⟩
      · next id hfind =>
          obtain ⟨record, hid, -⟩ := find?_eq_some hfind
          rw [hid] at h
          simp only [] at h
          split at h
          · next hmethod =>
              cases h
              exact ⟨1, by omega, .found hfind hid hmethod⟩
          · next hmethod =>
              obtain ⟨tries, hle, hrest⟩ := ih h
              exact ⟨tries + 1, by omega, .next hfind hid hmethod hrest⟩

/-- Tries that are left over do not matter. -/
theorem Searches.probe {candidate : UInt64} {tries : Nat} {outcome : Located}
    (h : methods.Searches method candidate tries outcome) :
    ∀ {limit : Nat}, tries ≤ limit → methods.probe method limit candidate = some outcome := by
  induction h with
  | free hfind =>
      intro limit hle
      obtain ⟨limit, rfl⟩ := Nat.exists_eq_add_of_le' hle
      simp only [Registry.probe, hfind]
  | found hfind hid hmethod =>
      intro limit hle
      obtain ⟨limit, rfl⟩ := Nat.exists_eq_add_of_le' hle
      simp only [Registry.probe, hfind, hid, hmethod, if_true]
  | @next candidate id record tries outcome hfind hid hmethod _ ih =>
      intro limit hle
      obtain ⟨limit, rfl⟩ := Nat.exists_eq_add_of_le' (Nat.le_of_add_left_le hle)
      simp only [Registry.probe, hfind, hid, hmethod, if_false]
      exact ih (by omega)

/-- A search goes one way only. -/
theorem Searches.unique {candidate : UInt64} {tries : Nat} {outcome : Located}
    (h : methods.Searches method candidate tries outcome) :
    ∀ {times : Nat} {other : Located}, methods.Searches method candidate times other →
      times = tries ∧ other = outcome := by
  induction h with
  | free hfind =>
      intro times other hother
      cases hother <;> simp_all
  | found hfind hid hmethod =>
      intro times other hother
      cases hother <;> simp_all
  | next hfind hid hmethod _ ih =>
      intro times other hother
      cases hother with
      | free hother => simp_all
      | found hother hrecord hsame => simp_all
      | next _ _ _ hrest =>
          obtain ⟨rfl, rfl⟩ := ih hrest
          exact ⟨rfl, rfl⟩

/-! ## How long it takes -/

/-- A candidate that leads to the record of another method. -/
def TurnsDown (methods : Registry α) (method : Method) (candidate : UInt64) : Prop :=
  ∃ id record, methods.find? (.hash candidate) = some id ∧ methods.record? id = some record ∧
    record.method ≠ method

/-- A search that is over after one try does not turn its candidate down. -/
theorem Searches.not_turnsDown {candidate : UInt64} {outcome : Located}
    (h : methods.Searches method candidate 1 outcome) : ¬ methods.TurnsDown method candidate := by
  rintro ⟨id, record, hfind, hid, hmethod⟩
  cases h with
  | free hnone => simp_all
  | found hother hrecord hsame => simp_all
  | next _ _ _ hrest => cases hrest

/-- The last try is over at once, and those before it turn their candidates down. -/
theorem Searches.last_try {tries : Nat} {outcome : Located} : ∀ {n : Nat},
    methods.Searches method (Key.candidate method n) tries outcome →
      ∃ m, tries = m + 1 ∧ methods.Searches method (Key.candidate method (n + m)) 1 outcome ∧
        ∀ l < m, methods.TurnsDown method (Key.candidate method (n + l)) := by
  induction tries with
  | zero => intro n h; cases h
  | succ tries ih =>
      intro n h
      cases h with
      | free hfind => exact ⟨0, rfl, .free hfind, nofun⟩
      | found hfind hid hmethod => exact ⟨0, rfl, .found hfind hid hmethod, nofun⟩
      | next hfind hid hmethod hrest =>
          rw [← Key.candidate_succ] at hrest
          obtain ⟨m, rfl, hlast, hbefore⟩ := ih hrest
          have hshift : ∀ l, n + 1 + l = n + (l + 1) := fun l => by omega
          refine ⟨m + 1, rfl, by rwa [hshift] at hlast, fun l hl => ?_⟩
          cases l with
          | zero => exact ⟨_, _, hfind, hid, hmethod⟩
          | succ l =>
              have hearlier := hbefore l (by omega)
              rwa [hshift] at hearlier

theorem TurnsDown.taken {candidate : UInt64} (h : methods.TurnsDown method candidate) :
    methods.Taken candidate := by
  obtain ⟨id, record, hfind, -, -⟩ := h
  obtain ⟨found, hfound, hkey⟩ := find?_eq_some hfind
  exact ⟨id, found, hfound, hkey⟩

/-- A search that is not over after `size + 1` tries is going in a circle. -/
theorem Searches.le_size {tries : Nat} {outcome : Located}
    (h : methods.Searches method (Key.first method) tries outcome) : tries ≤ methods.size + 1 := by
  obtain ⟨m, rfl, hlast, hbefore⟩ := h.last_try (n := 0)
  simp only [Nat.zero_add] at hlast hbefore
  by_contra hlong
  obtain ⟨i, j, hij, hj, hrepeats⟩ :=
    exists_candidate_eq fun l (hl : l ≤ methods.size) => (hbefore l (by omega)).taken
  obtain ⟨l, hl, hagain⟩ := Key.exists_candidate_lt hij hrepeats m
  rw [hagain] at hlast
  exact hlast.not_turnsDown (hbefore l (by omega))

/-- The limit cuts no search off. -/
theorem ends_iff : methods.Ends method ↔
    ∃ tries outcome, methods.Searches method (Key.first method) tries outcome := by
  rw [Ends, Option.ne_none_iff_exists']
  constructor
  · rintro ⟨outcome, h⟩
    obtain ⟨tries, -, hends⟩ := searches_of_probe h
    exact ⟨tries, outcome, hends⟩
  · rintro ⟨tries, outcome, h⟩
    exact ⟨outcome, h.probe h.le_size⟩

theorem search_eq_none : methods.search method = none ↔
    ∀ tries outcome, ¬ methods.Searches method (Key.first method) tries outcome := by
  have hends : ¬ methods.Ends method ↔ _ := ends_iff.not
  rw [Ends, not_not] at hends
  simpa only [not_exists] using hends

/-- The keys of `size` records cannot be `size + 1` different ones. -/
theorem ends_of_nodup
    (h : ((List.range (methods.size + 1)).map (Key.candidate method)).Nodup) :
    methods.Ends method := by
  intro hnone
  obtain ⟨i, j, hij, hj, hrepeats⟩ := exists_candidate_eq fun l (hl : l ≤ methods.size) =>
    probe_none (n := 0) hnone l (Nat.zero_le l) (by omega)
  have hdistinct := List.pairwise_iff_getElem.mp h i j (by simp; omega) (by simp; omega) hij
  simp only [List.getElem_map, List.getElem_range] at hdistinct
  exact hdistinct hrepeats

/-! ## What it comes to -/

/-- A search that ends, after so many tries, at the record of its method or, if there is none, at the
first candidate that is free. -/
structure Settled (methods : Registry α) (method : Method) (tries : Nat) : Prop where
  within : tries ≤ methods.size + 1
  ends : ∀ {times : Nat} {outcome : Located},
    methods.Searches method (Key.first method) times outcome ↔
      times = tries ∧ outcome = methods.locate method
  present : ∀ {id : MethodId}, methods.locate method = .found id ↔
    ∃ record, methods.record? id = some record ∧ record.method = method
  absent : (∀ (id : MethodId) (record : MethodRecord α), methods.record? id = some record →
      record.method ≠ method) →
    ∃ n, tries = n + 1 ∧ methods.locate method = .free (.hash (Key.candidate method n)) ∧
      ¬ methods.Taken (Key.candidate method n) ∧ ∀ l < n, methods.Taken (Key.candidate method l)

theorem Searches.locate {tries : Nat} {outcome : Located}
    (h : methods.Searches method (Key.first method) tries outcome) :
    methods.locate method = outcome := by
  rw [Registry.locate, Registry.search, h.probe h.le_size]

theorem Sound.settled (hs : methods.Sound) (hends : methods.Ends method) :
    ∃ tries, methods.Settled method tries := by
  obtain ⟨tries, outcome, hsearch⟩ := ends_iff.mp hends
  refine ⟨tries, hsearch.le_size, fun {times other} => ⟨fun hother => ?_, ?_⟩, fun {id} =>
    ⟨locate_found, ?_⟩, fun habsent => ?_⟩
  · obtain ⟨rfl, rfl⟩ := hsearch.unique hother
    exact ⟨rfl, hother.locate.symm⟩
  · rintro ⟨rfl, rfl⟩
    rwa [hsearch.locate]
  · rintro ⟨record, hid, rfl⟩
    exact hs.locate_record hid
  · obtain ⟨m, rfl, hlast, hbefore⟩ := hsearch.last_try (n := 0)
    simp only [Nat.zero_add] at hlast hbefore
    have htaken := fun l (hl : l < m) => (hbefore l hl).taken
    cases hlast with
    | free hfind =>
        refine ⟨m, rfl, hsearch.locate, ?_, htaken⟩
        rintro ⟨id, record, hid, hkey⟩
        exact find?_eq_none hfind hid hkey
    | found _ hid hmethod => exact absurd hmethod (habsent _ _ hid)
    | next _ _ _ hrest => cases hrest

variable [Amount α]

/-- In every registry that comes about by requests, the search for a method whose first `size + 1`
candidates differ ends, at the record of the method or at the first candidate that is free. -/
theorem search_settled (requests : List (Request α)) (method : Method)
    (hdistinct : ((List.range ((served requests).1.size + 1)).map
      (Key.candidate method)).Nodup) :
    ∃ tries, (served requests).1.Settled method tries :=
  (serves_served requests).sound.settled (ends_of_nodup hdistinct)

/-- Of two methods that hash alike the second goes on to its next candidate, where it is found when
it is there, and which is free for it when it is not. -/
theorem search_settled_alike : ∃ (one two : Registry Int) (method : Method),
    (served [.create ⟨.owner .plain, "A"⟩ "chg_wXvR9SJ" false none .empty]).1 = one ∧
    (served [.create ⟨.owner .plain, "A"⟩ "chg_wXvR9SJ" false none .empty,
      .create ⟨.owner .plain, "A"⟩ "b_Bhq90kU8C" false none .empty]).1 = two ∧
    method = ⟨⟨.plain, "A"⟩, "b_Bhq90kU8C"⟩ ∧
    ((List.range (one.size + 1)).map (Key.candidate method)).Nodup ∧
    ((List.range (two.size + 1)).map (Key.candidate method)).Nodup ∧
    one.locate method = .free (.hash (Key.candidate method 1)) ∧
    two.locate method = .found 1 ∧
    (∃ tries, one.Settled method tries) ∧ ∃ tries, two.Settled method tries := by
  refine ⟨_, _, _, rfl, rfl, rfl, ?_, ?_, ?_, ?_, search_settled _ _ ?_, search_settled _ _ ?_⟩
  all_goals decide +kernel

end CallLedger.Registry
