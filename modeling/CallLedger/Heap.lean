/-!
# A counting heap

The heap of the observed program, as far as the allocation counters see it. The counters only
grow: releasing a block takes nothing back, so both can serve as clocks. Growing a block counts
as one allocation of the bytes it grows by, shrinking it as none, and an allocation that fails
does not count.
-/

namespace CallLedger

/-- How many allocations there were, and of how many bytes. -/
structure Counters where
  count : Nat
  bytes : Nat
deriving DecidableEq

namespace Counters

def zero : Counters := ⟨0, 0⟩

def record (counters : Counters) (size : Nat) : Counters :=
  ⟨counters.count + 1, counters.bytes + size⟩

end Counters

inductive HeapError where
  /-- A block of this size could not be described. -/
  | layout
  | noBlock
deriving DecidableEq

structure Heap where
  /-- The sizes of the blocks, in the order in which they were allocated. -/
  blocks : List Nat
  counters : Counters
deriving DecidableEq

/-- The answer to a request: the heap afterwards, and whether the request failed. -/
structure HeapAnswer where
  heap : Heap
  failed : Bool
deriving DecidableEq

namespace Heap

def empty : Heap := ⟨[], .zero⟩

/-- No block has this size or a larger one. -/
def limit : Nat := Nat.pow 2 60

/-- Sizes from here on do not fit into a description of a block. -/
def layoutLimit : Nat := Nat.pow 2 63

def allocate (heap : Heap) (size : Nat) : Except HeapError HeapAnswer :=
  if size ≥ layoutLimit then .error .layout
  else if size ≥ limit then .ok ⟨heap, true⟩
  else
    let size := max size 1
    .ok ⟨⟨heap.blocks ++ [size], heap.counters.record size⟩, false⟩

def resize (heap : Heap) (block size : Nat) : Except HeapError HeapAnswer :=
  if size ≥ layoutLimit then .error .layout
  else match heap.blocks[block]? with
    | none => .error .noBlock
    | some old =>
      if size ≥ limit then .ok ⟨heap, true⟩
      else
        let size := max size 1
        let counters := if old < size then heap.counters.record (size - old) else heap.counters
        .ok ⟨⟨heap.blocks.set block size, counters⟩, false⟩

/-- Releases a block. The blocks after it move down by one place. -/
def release (heap : Heap) (block : Nat) : Except HeapError HeapAnswer :=
  if block < heap.blocks.length then
    .ok ⟨{ heap with blocks := heap.blocks.eraseIdx block }, false⟩
  else .error .noBlock

def record (heap : Heap) (size : Nat) : HeapAnswer :=
  ⟨{ heap with counters := heap.counters.record size }, false⟩

end Heap

end CallLedger
