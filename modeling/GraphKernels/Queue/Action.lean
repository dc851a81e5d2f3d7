import GraphKernels.Queue.Batch

/-!
# Actions on a queue

The changes that a queue goes through, as values. A refused action reports a fault and leaves a queue
behind with which others can go on.
-/

namespace GraphKernels

/-- A step in the life of a batch. -/
inductive BatchStep
  | push (v : Nat)
  | flush
deriving DecidableEq, Repr

/-- Take one step with a batch. -/
def BatchStep.perform (b : Batch) : BatchStep → Except Overrun Batch
  | .push v => b.push v
  | .flush => b.flush

/-- Something that changes a queue. -/
inductive QueueAction
  | push (v : Nat)
  | append (items : List Nat)
  | batch (steps : List BatchStep)
  | slide
  | reset
  | ensureCapacity (capacity : Nat)
deriving DecidableEq, Repr

namespace QueueAction

/-- The queue after an action, or the refusal of the action. -/
def apply (q : WindowQueue) : QueueAction → Except Overrun WindowQueue
  | push v => q.push v
  | append items => q.append items
  | batch steps => do (← steps.foldlM BatchStep.perform { queue := q }).close
  | slide => .ok q.slide
  | reset => .ok q.reset
  | ensureCapacity capacity =>
    match requireRoom capacity WindowQueue.slotBytes with
    | .ok () => q.ensureCapacity capacity
    | .error _ => .error ⟨q⟩

/-- The fault of an action, if it has one, and the queue that it leaves behind. -/
def perform (q : WindowQueue) (action : QueueAction) : Except Fault Unit × WindowQueue :=
  match action.apply q with
  | .ok next => (.ok (), next)
  | .error overrun => (.error overrun.fault, overrun.left)

end QueueAction

end GraphKernels
