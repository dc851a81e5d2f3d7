import GraphKernels.Queue.Basic

/-!
# Batches

A batch stages items in front of a queue and publishes them together. A full batch is published before
the next item is staged, and closing a batch publishes the rest.
-/

namespace GraphKernels

/-- Staged items and the queue that they are published to. -/
structure Batch where
  queue : WindowQueue
  staged : Array Nat := #[]
deriving DecidableEq, Repr

namespace Batch

/-- The number of items at which a batch is full. -/
def size : Nat := 16384

/-- Publish what is staged. -/
def flush (b : Batch) : Except Overrun Batch := do
  return { queue := ← b.queue.append b.staged.toList }

/-- Publish what is staged if the batch is full. -/
def makeRoom (b : Batch) : Except Overrun Batch :=
  if b.staged.size = size then b.flush else .ok b

/-- Stage an item, after publishing a batch that is full. -/
def push (b : Batch) (v : Nat) : Except Overrun Batch := do
  let b ← b.makeRoom
  return { b with staged := b.staged.push v }

/-- The queue once the rest of the batch is published. -/
def close (b : Batch) : Except Overrun WindowQueue := do
  return (← b.flush).queue

end Batch

end GraphKernels
