import CallLedger.Dump.Basic

/-!
# Comparing dumps

Two dumps are the same if everything but the amounts agrees and the amounts are equal as
numbers. That is not quite equality: a NaN equals nothing, so a dump with a NaN is not even the
same as itself, and the two zeros are equal.
-/

namespace CallLedger

variable {α β : Type}

def Measurement.map (f : α → β) (m : Measurement α) : Measurement β :=
  ⟨f m.selfTime, f m.waitTime, f m.totalTime, m.called⟩

def Measurement.amounts (m : Measurement α) : List α := [m.selfTime, m.waitTime, m.totalTime]

def DumpedMethod.map (f : α → β) (dumped : DumpedMethod α) : DumpedMethod β :=
  { dumped with measurement := dumped.measurement.map f }

def DumpedNode.map (f : α → β) (dumped : DumpedNode α) : DumpedNode β :=
  { dumped with measurement := dumped.measurement.map f }

def DumpedContext.map (f : α → β) (dumped : DumpedContext α) : DumpedContext β :=
  { dumped with
    methods := dumped.methods.map (.map f)
    nodes := dumped.nodes.map (.map f) }

def DumpedContext.amounts (dumped : DumpedContext α) : List α :=
  dumped.methods.flatMap (·.measurement.amounts) ++ dumped.nodes.flatMap (·.measurement.amounts)

namespace Dump

def map (f : α → β) (dump : Dump α) : Dump β :=
  { dump with contexts := dump.contexts.map (.map f) }

/-- The amounts of a dump in order. -/
def amounts (dump : Dump α) : List α := dump.contexts.flatMap DumpedContext.amounts

def same (a b : Dump Binary64) : Bool :=
  a.map (fun _ => ()) = b.map (fun _ => ()) &&
    (List.zipWith Binary64.sameNumber a.amounts b.amounts).all id

end Dump

end CallLedger
