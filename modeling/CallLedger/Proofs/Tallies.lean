import Mathlib
import CallLedger.Method.Record

/-!
# What the rows of a table add up

A method notes the objects it allocates one by one and takes over rows that were put together
elsewhere. Either way a row goes into its table, and a row that is found there takes it in
(`note_eq_addRow`). So the table has one row for each key that came up, under the site that came up
with it first, and that row holds all there was under the key (`rowsUnder_merge`).

A key is a hash of the site. One row for each site, with all there was at that site and nothing
else, is what the table has exactly when no two of the sites that came up share a key
(`exactBySite_iff`).
-/

namespace CallLedger

/-- What a method notes of its allocations: an object, or a row that was put together elsewhere. -/
inductive AllocationEntry where
  | object (site : AllocationSite) (size : Nat)
  | merged (row : AllocationRow)

/-- An entry as a row of its own. -/
def AllocationEntry.toRow : AllocationEntry → AllocationRow
  | object site size => ⟨site, 1, size⟩
  | merged row => row

namespace AllocationTable

def note (table : AllocationTable) : AllocationEntry → AllocationTable
  | .object site size => table.record site size
  | .merged row => table.addRow row

theorem note_eq_addRow (table : AllocationTable) (entry : AllocationEntry) :
    table.note entry = table.addRow entry.toRow := by
  cases entry <;> rfl

theorem foldl_note (table : AllocationTable) (entries : List AllocationEntry) :
    entries.foldl note table = table.merge (entries.map AllocationEntry.toRow) := by
  rw [merge, List.foldl_map]
  simp only [← note_eq_addRow]

/-! ## Sums -/

/-- Rows added up under the site of the first of them. -/
def tally : List AllocationRow → List AllocationRow
  | [] => []
  | first :: rest =>
    [⟨first.site, ((first :: rest).map (·.count)).sum, ((first :: rest).map (·.memory)).sum⟩]

/-- What becomes of the rows under a key when another one joins them. -/
def joined (row : AllocationRow) : List AllocationRow → List AllocationRow
  | [] => [row]
  | rows => rows.map fun other =>
      ⟨other.site, other.count + row.count, other.memory + row.memory⟩

theorem joined_of_ne_nil (row : AllocationRow) {rows : List AllocationRow} (h : rows ≠ []) :
    joined row rows = rows.map fun other =>
      ⟨other.site, other.count + row.count, other.memory + row.memory⟩ := by
  cases rows with
  | nil => exact absurd rfl h
  | cons first rest => rfl

theorem tally_concat (rows : List AllocationRow) (row : AllocationRow) :
    tally (rows ++ [row]) = joined row (tally rows) := by
  cases rows with
  | nil => simp [tally, joined]
  | cons first rest => simp [tally, joined, Nat.add_assoc]

theorem mem_tally {rows : List AllocationRow} {row : AllocationRow} (h : row ∈ tally rows) :
    ∃ first ∈ rows, first.site = row.site := by
  cases rows with
  | nil => cases h
  | cons first rest =>
      rw [tally, List.mem_singleton] at h
      exact ⟨first, List.mem_cons_self, by rw [h]⟩

/-! ## Rows by key -/

/-- The rows of a table whose sites have the given key. -/
def rowsUnder (table : AllocationTable) (hash : UInt64) : List AllocationRow :=
  table.rows.filter (·.site.key = hash)

theorem filter_place_of_neg {row : AllocationRow} {keeps : AllocationRow → Bool}
    (h : keeps row = false) (rows : List AllocationRow) :
    (place row rows).filter keeps = rows.filter keeps := by
  induction rows with
  | nil => simp [place, h]
  | cons first rest ih =>
      rw [place]
      split
      · rw [List.filter_cons, List.filter_cons, ih]
      · rw [List.filter_cons_of_neg (by simp [h])]

theorem filter_place_of_pos {row : AllocationRow} {keeps : AllocationRow → Bool}
    (h : keeps row = true) {rows : List AllocationRow} (hnone : rows.filter keeps = []) :
    (place row rows).filter keeps = [row] := by
  induction rows with
  | nil => simp [place, h]
  | cons first rest ih =>
      have hfirst : ¬ keeps first = true := List.filter_eq_nil_iff.mp hnone first List.mem_cons_self
      rw [List.filter_cons_of_neg hfirst] at hnone
      rw [place]
      split
      · rw [List.filter_cons_of_neg hfirst, ih hnone]
      · rw [List.filter_cons_of_pos h, List.filter_cons_of_neg hfirst, hnone]

/-- A row joins those that have its key, and leaves the others alone. -/
theorem rowsUnder_addRow (table : AllocationTable) (row : AllocationRow) (hash : UInt64) :
    (table.addRow row).rowsUnder hash =
      if row.site.key = hash then joined row (table.rowsUnder hash)
      else table.rowsUnder hash := by
  have hany : (table.rows.any fun other => other.site.key = row.site.key) = true ↔
      table.rowsUnder row.site.key ≠ [] := by
    simp [rowsUnder, List.filter_eq_nil_iff]
  unfold addRow add
  split
  · next hfound =>
      -- rows keep their sites, so the same ones are under the key before and after
      have hkeeps : ∀ other : AllocationRow, decide ((if other.site.key = row.site.key then
          (⟨other.site, other.count + row.count, other.memory + row.memory⟩ : AllocationRow)
            else other).site.key = hash) = decide (other.site.key = hash) := by
        intro other
        split <;> rfl
      rw [rowsUnder, List.filter_map]
      simp only [Function.comp_def, hkeeps]
      split
      · next hhere =>
          subst hhere
          rw [joined_of_ne_nil row (hany.mp hfound), rowsUnder]
          refine List.map_congr_left fun other hother => ?_
          rw [if_pos (by simpa using (List.mem_filter.mp hother).2)]
      · next hother =>
          refine (List.map_congr_left fun found hfound => ?_).trans (List.map_id _)
          have hkey : found.site.key = hash := by simpa using (List.mem_filter.mp hfound).2
          rw [if_neg fun heq => hother (heq.symm.trans hkey)]
          rfl
  · next hmissing =>
      have hnone : table.rowsUnder row.site.key = [] := by
        by_contra hsome
        exact hmissing (hany.mpr hsome)
      split
      · next hhere =>
          subst hhere
          rw [hnone]
          exact filter_place_of_pos (by simp) hnone
      · next hother => exact filter_place_of_neg (by simpa using hother) table.rows

/-- All there was under a key is in one row, under the site that came first. -/
theorem rowsUnder_merge (rows : List AllocationRow) (hash : UInt64) :
    (empty.merge rows).rowsUnder hash = tally (rows.filter (·.site.key = hash)) := by
  induction rows using List.reverseRecOn with
  | nil => rfl
  | append_singleton rows row ih =>
      have hlast : empty.merge (rows ++ [row]) = (empty.merge rows).addRow row := by
        rw [merge, List.foldl_append]
        rfl
      rw [hlast, rowsUnder_addRow, ih, List.filter_append]
      split
      · next hhere =>
          rw [List.filter_cons_of_pos (by simpa using hhere), List.filter_nil, tally_concat]
      · next hother =>
          rw [List.filter_cons_of_neg (by simpa using hother), List.filter_nil, List.append_nil]

/-! ## Rows by site -/

/-- One row for each site that came up, with all there was at that site and nothing else. -/
def ExactBySite (table : AllocationTable) (rows : List AllocationRow) : Prop :=
  ∀ site, table.rows.filter (·.site = site) = tally (rows.filter (·.site = site))

/-- The row of a site is among those under its key. -/
theorem filter_site (table : AllocationTable) (site : AllocationSite) :
    table.rows.filter (·.site = site) = (table.rowsUnder site.key).filter (·.site = site) := by
  rw [rowsUnder, List.filter_filter]
  refine List.filter_congr fun row _ => ?_
  by_cases h : row.site = site
  · simp [h]
  · simp [h]

/-- What came up has a row of its own. -/
theorem ExactBySite.exists_row {table : AllocationTable} {rows : List AllocationRow}
    (h : table.ExactBySite rows) {row : AllocationRow} (hrow : row ∈ rows) :
    ∃ found ∈ table.rowsUnder row.site.key, found.site = row.site := by
  have hne : tally (rows.filter (·.site = row.site)) ≠ [] := by
    cases hsame : rows.filter (·.site = row.site) with
    | nil => simpa using List.filter_eq_nil_iff.mp hsame row hrow
    | cons first rest => exact List.cons_ne_nil _ _
  rw [← h row.site, filter_site] at hne
  obtain ⟨found, hfound⟩ := List.exists_mem_of_ne_nil _ hne
  obtain ⟨hmem, hsite⟩ := List.mem_filter.mp hfound
  exact ⟨found, hmem, of_decide_eq_true hsite⟩

theorem exactBySite_iff (rows : List AllocationRow) :
    (empty.merge rows).ExactBySite rows ↔
      ∀ a ∈ rows, ∀ b ∈ rows, a.site.key = b.site.key → a.site = b.site := by
  constructor
  · intro hexact a ha b hb hkey
    obtain ⟨x, hx, hxa⟩ := hexact.exists_row ha
    obtain ⟨y, hy, hyb⟩ := hexact.exists_row hb
    rw [← hkey, rowsUnder_merge] at hy
    rw [rowsUnder_merge] at hx
    -- under one key there is one row
    cases hunder : rows.filter (·.site.key = a.site.key) with
    | nil =>
        rw [hunder] at hx
        cases hx
    | cons first rest =>
        rw [hunder, tally, List.mem_singleton] at hx hy
        rw [← hxa, ← hyb, hx, hy]
  · intro hapart site
    rw [filter_site, rowsUnder_merge]
    by_cases hcame : ∃ row ∈ rows, row.site = site
    · obtain ⟨row, hrow, rfl⟩ := hcame
      have hsame : rows.filter (·.site.key = row.site.key) = rows.filter (·.site = row.site) := by
        refine List.filter_congr fun other hother => ?_
        rw [decide_eq_decide]
        exact ⟨fun hkey => hapart other hother row hrow hkey, fun heq => by rw [heq]⟩
      rw [hsame, List.filter_eq_self]
      intro found hfound
      obtain ⟨first, hfirst, heq⟩ := mem_tally hfound
      rw [← heq]
      exact (List.mem_filter.mp hfirst).2
    · have hnone : rows.filter (·.site = site) = [] := by
        refine List.filter_eq_nil_iff.mpr fun row hrow hsite => hcame ⟨row, hrow, ?_⟩
        exact of_decide_eq_true hsite
      rw [hnone, tally, List.filter_eq_nil_iff]
      intro found hfound hsite
      obtain ⟨first, hfirst, heq⟩ := mem_tally hfound
      exact hcame ⟨first, (List.mem_filter.mp hfirst).1, heq.trans (of_decide_eq_true hsite)⟩

end AllocationTable

/-! ## The allocations of a method -/

namespace MethodRecord

open AllocationTable

variable {α : Type}

def noted (record : MethodRecord α) (entry : AllocationEntry) : MethodRecord α :=
  { record with allocations := record.allocations.note entry }

theorem allocations_foldl_noted (entries : List AllocationEntry) (record : MethodRecord α) :
    (entries.foldl noted record).allocations =
      record.allocations.merge (entries.map AllocationEntry.toRow) := by
  rw [← foldl_note]
  induction entries generalizing record with
  | nil => rfl
  | cons entry entries ih => exact ih (record.noted entry)

/-- Whatever a new method notes, there is one row for each key that came up, and it holds all there
was under that key. There is one for each site exactly when no two of the sites share a key. -/
theorem noted_by_key [Amount α] (key : Key) (method : Method) (entries : List AllocationEntry) :
    (∀ hash, (entries.foldl noted (fresh key method : MethodRecord α)).allocations.rowsUnder hash =
      tally ((entries.map AllocationEntry.toRow).filter (·.site.key = hash))) ∧
    ((entries.foldl noted (fresh key method : MethodRecord α)).allocations.ExactBySite
        (entries.map AllocationEntry.toRow) ↔
      ∀ a ∈ entries, ∀ b ∈ entries,
        a.toRow.site.key = b.toRow.site.key → a.toRow.site = b.toRow.site) := by
  have hempty : (fresh key method : MethodRecord α).allocations = .empty := rfl
  rw [allocations_foldl_noted, hempty]
  refine ⟨rowsUnder_merge _, (exactBySite_iff _).trans ?_⟩
  simp only [List.forall_mem_map]

/-- Two classes of one source line whose sites have one key: the object of the second is counted
as one of the first. -/
theorem second_class_lost : ¬ ([.object ⟨"app.rb", 11, "rXU_9ePYSLG"⟩ 5,
    .object ⟨"app.rb", 11, "bEvN$eaYeyM"⟩ 3].foldl noted
      (fresh (.hash 0) ⟨⟨.plain, "App"⟩, "m"⟩ : MethodRecord Int)).allocations.ExactBySite
        [⟨⟨"app.rb", 11, "rXU_9ePYSLG"⟩, 1, 5⟩, ⟨⟨"app.rb", 11, "bEvN$eaYeyM"⟩, 1, 3⟩] := by
  intro hexact
  have hrow := hexact ⟨"app.rb", 11, "bEvN$eaYeyM"⟩
  revert hrow
  decide +kernel

end MethodRecord

end CallLedger
