import GraphKernels.Fault

/-!
# Queues with a window

A queue keeps every item that is published between two resets in one array. Its window is the current
frontier; what is published later lies behind the window and becomes the next window when the queue
slides. Several items at once reserve their slots first and are stored afterwards, so items that do not
fit leave their reservation behind and nothing else.
-/

namespace GraphKernels

/-- An array of slots, the number of reserved ones, and the window of positions to be read. -/
structure WindowQueue where
  slots : Array Nat
  tail : Nat := 0
  windowStart : Nat := 0
  windowEnd : Nat := 0
deriving DecidableEq, Repr

/-- A refusal for lack of room, with the queue that it leaves behind. -/
structure Overrun where
  left : WindowQueue
deriving DecidableEq, Repr

/-- A refusal as a fault. -/
def Overrun.fault (_ : Overrun) : Fault := .queueFull

/-- Store items at consecutive positions. -/
def storeFrom (slots : Array Nat) (start : Nat) : List Nat → Array Nat
  | [] => slots
  | v :: rest => storeFrom (slots.setIfInBounds start v) (start + 1) rest

/-- Storing keeps the number of slots. -/
@[simp] theorem storeFrom_size (slots : Array Nat) (start : Nat) (items : List Nat) :
    (storeFrom slots start items).size = slots.size := by
  induction items generalizing slots start with
  | nil => rfl
  | cons v rest ih => simp [storeFrom, ih]

/-- Items that fit follow the slots before them. -/
theorem storeFrom_extract (slots : Array Nat) (start : Nat) (items : List Nat)
    (hroom : start + items.length ≤ slots.size) :
    ((storeFrom slots start items).extract 0 (start + items.length)).toList =
      (slots.extract 0 start).toList ++ items := by
  induction items generalizing slots start with
  | nil => simp [storeFrom]
  | cons v rest ih =>
    simp only [List.length_cons] at hroom
    have hstart : start < slots.size := by omega
    have hnext := ih (slots.setIfInBounds start v) (start + 1) (by simp; omega)
    have htake : ((slots.setIfInBounds start v).extract 0 (start + 1)).toList =
        (slots.extract 0 start).toList ++ [v] := by
      simp only [Array.toList_extract, Array.toList_setIfInBounds, List.extract_eq_take_drop,
        List.drop_zero, Nat.sub_zero]
      rw [← List.take_append_getElem (by simpa using hstart), List.take_set_of_le (Nat.le_refl _)]
      simp
    simp only [storeFrom, List.length_cons]
    rw [show start + (rest.length + 1) = start + 1 + rest.length by omega, hnext, htake]
    simp

namespace WindowQueue

/-- The empty queue with some number of slots. -/
def withCapacity (capacity : Nat) : WindowQueue := { slots := Array.replicate capacity 0 }

/-- The number of bytes in a slot. -/
def slotBytes : Nat := 4

/-- The empty queue with a number of slots that an array can have. -/
def withCapacity? (capacity : Nat) : Except Fault WindowQueue := do
  requireRoom capacity slotBytes
  return withCapacity capacity

/-- The number of slots. -/
def capacity (q : WindowQueue) : Nat := q.slots.size

/-- The items published since the last reset, in order. -/
def history (q : WindowQueue) : List Nat := (q.slots.extract 0 q.tail).toList

/-- The queue with some more slots reserved. -/
def reserve (q : WindowQueue) (count : Nat) : WindowQueue := { q with tail := q.tail + count }

/-- Publish some items. -/
def append (q : WindowQueue) (items : List Nat) : Except Overrun WindowQueue :=
  if items.isEmpty then .ok q
  else if q.tail + items.length ≤ q.capacity then
    .ok { q.reserve items.length with slots := storeFrom q.slots q.tail items }
  else .error ⟨q.reserve items.length⟩

/-- Publish one item; a full queue is left as it is. -/
def push (q : WindowQueue) (v : Nat) : Except Overrun WindowQueue :=
  if q.tail < q.capacity then
    .ok { q with slots := q.slots.setIfInBounds q.tail v, tail := q.tail + 1 }
  else .error ⟨q⟩

/-- Make what was published since the last slide the window. -/
def slide (q : WindowQueue) : WindowQueue :=
  { q with windowStart := q.windowEnd, windowEnd := q.tail }

/-- Forget all items. -/
def reset (q : WindowQueue) : WindowQueue := { q with tail := 0, windowStart := 0, windowEnd := 0 }

/-- Grow to at least some number of slots and keep the items. -/
def ensureCapacity (q : WindowQueue) (capacity : Nat) : Except Overrun WindowQueue :=
  if capacity ≤ q.capacity then .ok q
  else if q.tail ≤ q.capacity then
    .ok { q with slots := q.slots.extract 0 q.tail ++ Array.replicate (capacity - q.tail) 0 }
  else .error ⟨q⟩

/-- Whether the window is empty. -/
def isEmpty (q : WindowQueue) : Bool := q.windowStart == q.windowEnd

/-- The size of the window. -/
def length (q : WindowQueue) : Nat := q.windowEnd - q.windowStart

/-- The item at a position. -/
def get (q : WindowQueue) (i : Nat) : Except Fault Nat := readAt q.slots i

/-- The items from one position up to another. -/
def range (q : WindowQueue) (start stop : Nat) : Except Fault (List Nat) :=
  readSpan q.slots start stop

/-- The items in the window. -/
def window (q : WindowQueue) : Except Fault (List Nat) := q.range q.windowStart q.windowEnd

/-- Items that fit are published behind all earlier ones. -/
theorem history_append {q next : WindowQueue} {items : List Nat} (h : q.append items = .ok next) :
    next.history = q.history ++ items := by
  unfold append at h
  split at h
  · next hempty =>
    cases h
    simp [List.isEmpty_iff.mp hempty]
  · split at h
    · next hroom =>
      cases h
      exact storeFrom_extract q.slots q.tail items hroom
    · cases h

/-- An item that fits is published behind all earlier ones. -/
theorem history_push {q next : WindowQueue} {v : Nat} (h : q.push v = .ok next) :
    next.history = q.history ++ [v] := by
  unfold push at h
  split at h
  · next hroom =>
    cases h
    exact storeFrom_extract q.slots q.tail [v] hroom
  · cases h

/-- Sliding publishes nothing. -/
@[simp] theorem history_slide (q : WindowQueue) : q.slide.history = q.history := rfl

/-- A reset forgets all items. -/
@[simp] theorem history_reset (q : WindowQueue) : q.reset.history = [] := by
  simp [history, reset]

/-- A new queue has published nothing. -/
@[simp] theorem history_withCapacity (capacity : Nat) : (withCapacity capacity).history = [] := by
  simp [history, withCapacity]

end WindowQueue

end GraphKernels
