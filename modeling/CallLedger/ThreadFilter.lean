/-!
# Thread filters

Which threads are traced. Without a restriction every thread is; a list of included threads lets
through only those on it, and a list of excluded threads keeps out those on it, included or not.
-/

namespace CallLedger

structure ThreadFilter where
  /-- If given, only these threads are traced. -/
  included : Option (List UInt64)
  /-- If given, these threads are not traced. -/
  excluded : Option (List UInt64)
deriving DecidableEq

namespace ThreadFilter

/-- The filter that lets every thread through. -/
def all : ThreadFilter := ⟨none, none⟩

def traces (filter : ThreadFilter) (thread : UInt64) : Bool :=
  (match filter.included with
    | some threads => threads.contains thread
    | none => true) &&
  (match filter.excluded with
    | some threads => !threads.contains thread
    | none => true)

end ThreadFilter

end CallLedger
