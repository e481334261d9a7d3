import CallLedger.Context.Table

/-!
# Folding fibers into threads

The contexts of a thread are its fibers. Folding keeps the fiber with the lowest number, adds
the others to it in the order of their numbers, and releases them.
-/

namespace CallLedger.ContextTable

variable {α : Type} [Amount α]

/-- The contexts of a thread by fiber, those of one fiber in slot order. -/
def fibers (table : ContextTable α) (thread : UInt64) : List (Handle × Context α) :=
  (table.live.filter fun entry => entry.2.key.thread = thread).mergeSort fun a b =>
    a.2.key.fiber ≤ b.2.key.fiber

def foldThread (table : ContextTable α) (thread : UInt64) : ContextTable α :=
  match table.fibers thread with
  | [] => table
  | (first, _) :: others =>
    (others.foldl (fun table other => table.release other.1) table).modify first fun context =>
      others.foldl (fun context other => context.merge other.2) context

/-- The threads that have contexts, each once. -/
def threads (table : ContextTable α) : List UInt64 :=
  (table.live.map fun entry => entry.2.key.thread).eraseDups

def foldFibers (table : ContextTable α) : ContextTable α :=
  table.threads.foldl foldThread table

end CallLedger.ContextTable
