import Mathlib.Data.Prod.Lex
import Mathlib.Data.String.Basic
import CallLedger.Method.Allocation

/-!
# Rows put together once stay as they are

A table of allocations holds its rows in the order of their sites, and no two
of them have one key. Neither is ever broken: a row joins the one that has its
key, or takes the place that the order gives it. So a table that is read row
by row into an empty one comes out the same (`Sorted.merge_rows`): every row is
new there, and stands behind those that came before it.

The keys are hashes. That two sites with different keys differ is all that is
asked of them.
-/

namespace CallLedger

namespace AllocationSite

/-- What sites are ordered by. -/
def rank (site : AllocationSite) : String ×ₗ ℕ ×ₗ String :=
  toLex (site.file, toLex (site.line.toNat, site.className))

theorem before_iff {a b : AllocationSite} : a.before b = true ↔ a.rank < b.rank := by
  simp only [before, rank, Prod.Lex.toLex_lt_toLex, Bool.or_eq_true, Bool.and_eq_true,
    decide_eq_true_eq, UInt32.lt_iff_toNat_lt, UInt32.toNat_inj]

theorem rank_inj {a b : AllocationSite} (h : a.rank = b.rank) : a = b := by
  obtain ⟨file, line, className⟩ := a
  obtain ⟨otherFile, otherLine, otherName⟩ := b
  simpa [rank, UInt32.toNat_inj] using h

end AllocationSite

namespace AllocationTable

/-- Rows that stand in order, each under a key of its own. -/
structure Precedes (row later : AllocationRow) : Prop where
  before : row.site.rank < later.site.rank
  apart : row.site.key ≠ later.site.key

def Sorted (table : AllocationTable) : Prop := table.rows.Pairwise Precedes

theorem sorted_empty : empty.Sorted := List.Pairwise.nil

theorem mem_place {row other : AllocationRow} {rows : List AllocationRow} :
    other ∈ place row rows ↔ other = row ∨ other ∈ rows := by
  induction rows with
  | nil => simp [place]
  | cons first rest ih =>
      rw [place]
      split
      · rw [List.mem_cons, ih, List.mem_cons, or_left_comm]
      · rw [List.mem_cons]

theorem place_pairwise {row : AllocationRow} {rows : List AllocationRow}
    (h : rows.Pairwise Precedes) (hnew : ∀ other ∈ rows, other.site.key ≠ row.site.key) :
    (place row rows).Pairwise Precedes := by
  induction rows with
  | nil => exact List.pairwise_singleton _ _
  | cons first rest ih =>
      obtain ⟨hfirst, hrest⟩ := List.pairwise_cons.mp h
      have hapart := hnew first List.mem_cons_self
      rw [place]
      split
      · next hbefore =>
          refine List.pairwise_cons.mpr ⟨fun other hother => ?_,
            ih hrest fun other hother => hnew other (List.mem_cons_of_mem _ hother)⟩
          rcases mem_place.mp hother with rfl | hold
          · exact ⟨AllocationSite.before_iff.mp hbefore, hapart⟩
          · exact hfirst other hold
      · next hbefore =>
          -- rows under different keys are of different sites, so one is before the other
          have hlt : row.site.rank < first.site.rank := by
            refine lt_of_le_of_ne ?_ fun heq => hapart ?_
            · exact not_lt.mp fun hlt => hbefore (AllocationSite.before_iff.mpr hlt)
            · rw [AllocationSite.rank_inj heq]
          refine List.pairwise_cons.mpr ⟨fun other hother => ?_, h⟩
          refine ⟨?_, (hnew other hother).symm⟩
          rcases List.mem_cons.mp hother with rfl | hold
          · exact hlt
          · exact hlt.trans (hfirst other hold).before

theorem Sorted.add {table : AllocationTable} (h : table.Sorted) (site : AllocationSite)
    (count memory : Nat) : (table.add site count memory).Sorted := by
  unfold AllocationTable.add
  split
  · -- a row that takes in more keeps its site
    refine List.pairwise_map.mpr (List.Pairwise.imp (fun hab => ?_) h)
    refine ⟨?_, ?_⟩
    · split <;> split <;> exact hab.before
    · split <;> split <;> exact hab.apart
  · next hnone =>
      refine place_pairwise h fun other hother heq => hnone ?_
      exact List.any_eq_true.mpr ⟨other, hother, decide_eq_true heq⟩

theorem Sorted.merge {table : AllocationTable} (h : table.Sorted) (rows : List AllocationRow) :
    (table.merge rows).Sorted := by
  unfold AllocationTable.merge
  induction rows generalizing table with
  | nil => exact h
  | cons row rows ih => exact ih (h.add _ _ _)

/-- A row that follows all others is put behind them. -/
theorem place_last {row : AllocationRow} {rows : List AllocationRow}
    (h : ∀ other ∈ rows, Precedes other row) : place row rows = rows ++ [row] := by
  induction rows with
  | nil => rfl
  | cons first rest ih =>
      have hbefore := AllocationSite.before_iff.mpr (h first List.mem_cons_self).before
      rw [place, if_pos hbefore, ih fun other hother => h other (List.mem_cons_of_mem _ hother)]
      rfl

theorem addRow_last {row : AllocationRow} {rows : List AllocationRow}
    (h : ∀ other ∈ rows, Precedes other row) : addRow ⟨rows⟩ row = ⟨rows ++ [row]⟩ := by
  have hnone : ¬ rows.any (fun other => other.site.key = row.site.key) = true := by
    intro hany
    obtain ⟨other, hother, hkey⟩ := List.any_eq_true.mp hany
    exact (h other hother).apart (of_decide_eq_true hkey)
  unfold addRow AllocationTable.add
  rw [if_neg hnone, place_last h]

theorem merge_rows_append {rows : List AllocationRow} : ∀ {known : List AllocationRow},
    (known ++ rows).Pairwise Precedes → AllocationTable.merge ⟨known⟩ rows = ⟨known ++ rows⟩ := by
  induction rows with
  | nil =>
      intro known _
      rw [List.append_nil]
      rfl
  | cons row rows ih =>
      intro known h
      have hlast : ∀ other ∈ known, Precedes other row := fun other hother =>
        (List.pairwise_append.mp h).2.2 other hother row List.mem_cons_self
      rw [List.append_cons] at h ⊢
      rw [← ih h]
      show AllocationTable.merge (addRow ⟨known⟩ row) rows = _
      rw [addRow_last hlast]

/-- Reading a table row by row into an empty one gives the table back. -/
theorem Sorted.merge_rows {table : AllocationTable} (h : table.Sorted) :
    empty.merge table.rows = table :=
  merge_rows_append h

end AllocationTable

end CallLedger
