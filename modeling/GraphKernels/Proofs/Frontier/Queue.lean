import GraphKernels.Proofs.Run
import GraphKernels.Queue.Batch

/-!
# Queues that show a frontier

A queue shows a list when the list is its window and nothing is pending behind it. What is published
then, at once or through a batch, becomes the next window as long as there is room for it, and nothing
else about the queue changes. What was stored behind the tail before a reset is never read: queues that differ
only there answer alike.
-/

namespace GraphKernels

namespace WindowQueue

variable {q next last : WindowQueue} {items more : List Nat}

/-- The history has one item for each reserved slot. -/
theorem history_length (h : q.tail ≤ q.capacity) : q.history.length = q.tail := by
  rw [history, Array.length_toList, Array.size_extract, Nat.sub_zero]
  exact Nat.min_eq_left h

/-- A range of published positions holds the items published there. -/
theorem range_eq {start stop : Nat} (hle : start ≤ stop) (hstop : stop ≤ q.tail)
    (h : q.tail ≤ q.capacity) : q.range start stop = .ok ((q.history.take stop).drop start) := by
  rw [range, readSpan_of_le hle (Nat.le_trans hstop h)]
  simp [history, List.drop_take, List.take_take, Nat.min_eq_left hstop]

/-- The window is the list, and it reaches up to the last published item. -/
structure Shows (q : WindowQueue) (items : List Nat) : Prop where
  tail_le : q.tail ≤ q.capacity
  windowStart_le : q.windowStart ≤ q.windowEnd
  windowEnd_eq : q.windowEnd = q.tail
  drop_history : q.history.drop q.windowStart = items

/-- One queue is another one with some items published. -/
structure Publishes (q : WindowQueue) (items : List Nat) (next : WindowQueue) : Prop where
  capacity_eq : next.capacity = q.capacity
  tail_eq : next.tail = q.tail + items.length
  tail_le : next.tail ≤ next.capacity
  windowStart_eq : next.windowStart = q.windowStart
  windowEnd_eq : next.windowEnd = q.windowEnd
  history_eq : next.history = q.history ++ items

namespace Publishes

/-- Publishing nothing leaves the queue as it is. -/
theorem refl (h : q.tail ≤ q.capacity) : q.Publishes [] q :=
  ⟨rfl, rfl, h, rfl, rfl, (List.append_nil _).symm⟩

/-- Items can be published one part after the other. -/
theorem trans (h : q.Publishes items next) (h' : next.Publishes more last) :
    q.Publishes (items ++ more) last where
  capacity_eq := h'.capacity_eq.trans h.capacity_eq
  tail_eq := by rw [h'.tail_eq, h.tail_eq, List.length_append, Nat.add_assoc]
  tail_le := h'.tail_le
  windowStart_eq := h'.windowStart_eq.trans h.windowStart_eq
  windowEnd_eq := h'.windowEnd_eq.trans h.windowEnd_eq
  history_eq := by rw [h'.history_eq, h.history_eq, List.append_assoc]

/-- What was published behind a window that reached up to the tail is the next window. -/
theorem slide_shows (h : q.Publishes items next) (hwindow : q.windowEnd = q.tail) :
    next.slide.Shows items := by
  have htail := h.tail_eq
  refine ⟨h.tail_le, ?_, rfl, ?_⟩
  · change next.windowEnd ≤ next.tail
    rw [h.windowEnd_eq, hwindow]
    omega
  · change next.history.drop next.windowEnd = items
    have hroom : q.tail ≤ q.capacity := by
      have := h.tail_le
      rw [h.capacity_eq] at this
      omega
    rw [h.windowEnd_eq, hwindow, h.history_eq, ← history_length hroom, List.drop_left]

end Publishes

/-- Items that fit are published. -/
theorem append_yields (hroom : q.tail + items.length ≤ q.capacity) :
    Yields (q.append items) (q.Publishes items) := by
  cases items with
  | nil => exact ⟨q, rfl, .refl (by simpa using hroom)⟩
  | cons v rest =>
    have happend : q.append (v :: rest) = .ok { q.reserve (v :: rest).length with
        slots := storeFrom q.slots q.tail (v :: rest) } := by
      rw [append, if_neg (by simp), if_pos hroom]
    refine ⟨_, happend, ?_, rfl, ?_, rfl, rfl, history_append happend⟩
    · simp [capacity]
    · simpa [capacity, reserve] using hroom

/-- An item that fits is published. -/
theorem push_yields {v : Nat} (hroom : q.tail < q.capacity) :
    Yields (q.push v) (q.Publishes [v]) := by
  have hpush : q.push v = .ok { q with slots := q.slots.setIfInBounds q.tail v, tail := q.tail + 1 } := by
    rw [push, if_pos hroom]
  refine ⟨_, hpush, ?_, rfl, ?_, rfl, rfl, history_push hpush⟩
  · simp [capacity]
  · simpa [capacity, Nat.succ_le_iff] using hroom

/-- A queue that is reset can grow to any number of slots. -/
theorem reset_ensureCapacity_yields (q : WindowQueue) (capacity : Nat) :
    Yields (q.reset.ensureCapacity capacity) fun next =>
      next.tail = 0 ∧ next.windowEnd = 0 ∧ capacity ≤ next.capacity := by
  have hempty : q.reset.tail ≤ q.reset.capacity := Nat.zero_le _
  rw [ensureCapacity, if_pos hempty]
  by_cases hroom : capacity ≤ q.reset.capacity
  · rw [if_pos hroom]
    exact .ok ⟨rfl, rfl, hroom⟩
  · rw [if_neg hroom]
    exact .ok ⟨rfl, rfl, by simp [WindowQueue.capacity, reset]⟩

namespace Shows

/-- The window holds the list. -/
theorem window_eq (h : q.Shows items) : q.window = .ok items := by
  rw [window, range_eq h.windowStart_le (Nat.le_of_eq h.windowEnd_eq) h.tail_le, h.windowEnd_eq,
    ← history_length h.tail_le, List.take_length, h.drop_history]

/-- The length of the window is that of the list. -/
theorem length_eq (h : q.Shows items) : q.length = items.length := by
  rw [length, ← h.drop_history, List.length_drop, history_length h.tail_le, h.windowEnd_eq]

/-- The window is empty exactly when the list is. -/
theorem isEmpty_iff (h : q.Shows items) : q.isEmpty = true ↔ items = [] := by
  have hlength := h.length_eq
  have hle := h.windowStart_le
  rw [length] at hlength
  rw [isEmpty, beq_iff_eq, ← List.length_eq_zero_iff]
  omega

/-- Sliding once more leaves nothing in the window. -/
theorem slide (h : q.Shows items) : q.slide.Shows [] := (Publishes.refl h.tail_le).slide_shows h.windowEnd_eq

end Shows

/-- Two queues have published the same items and have their windows at the same place. What their slots hold
behind the tail may differ. -/
structure Alike (q r : WindowQueue) : Prop where
  capacity_eq : r.capacity = q.capacity
  tail_eq : r.tail = q.tail
  tail_le : q.tail ≤ q.capacity
  windowStart_eq : r.windowStart = q.windowStart
  windowEnd_eq : r.windowEnd = q.windowEnd
  windowEnd_le : q.windowEnd ≤ q.tail
  history_eq : r.history = q.history

namespace Alike

variable {r later : WindowQueue}

/-- A queue is like itself. -/
theorem refl (htail : q.tail ≤ q.capacity) (hwindow : q.windowEnd ≤ q.tail) : q.Alike q :=
  ⟨rfl, rfl, htail, rfl, rfl, hwindow, rfl⟩

/-- Queues of one capacity that are reset are alike, whatever was published before. -/
theorem reset (h : r.capacity = q.capacity) : q.reset.Alike r.reset where
  capacity_eq := h
  tail_eq := rfl
  tail_le := Nat.zero_le _
  windowStart_eq := rfl
  windowEnd_eq := rfl
  windowEnd_le := Nat.le_refl 0
  history_eq := by rw [history_reset, history_reset]

/-- Queues stay alike when the same items are published to both. -/
theorem publishes (h : q.Alike r) (hq : q.Publishes items next) (hr : r.Publishes items later) :
    next.Alike later where
  capacity_eq := by rw [hr.capacity_eq, hq.capacity_eq, h.capacity_eq]
  tail_eq := by rw [hr.tail_eq, hq.tail_eq, h.tail_eq]
  tail_le := hq.tail_le
  windowStart_eq := by rw [hr.windowStart_eq, hq.windowStart_eq, h.windowStart_eq]
  windowEnd_eq := by rw [hr.windowEnd_eq, hq.windowEnd_eq, h.windowEnd_eq]
  windowEnd_le := by
    rw [hq.windowEnd_eq, hq.tail_eq]
    exact Nat.le_add_right_of_le h.windowEnd_le
  history_eq := by rw [hr.history_eq, hq.history_eq, h.history_eq]

/-- Where one queue has room for some items, so has the other. -/
theorem append_simulates (h : q.Alike r) (items : List Nat) :
    Simulates Alike (q.append items) (r.append items) := by
  intro next hnext
  have hroom : q.tail + items.length ≤ q.capacity := by
    have htail := h.tail_le
    rw [append] at hnext
    split at hnext
    · next hempty => simpa [List.isEmpty_iff.mp hempty] using htail
    · split at hnext
      · next hroom => exact hroom
      · cases hnext
  have hroom' : r.tail + items.length ≤ r.capacity := by rwa [h.tail_eq, h.capacity_eq]
  exact (append_yields hroom').mono fun later hlater =>
    h.publishes ((append_yields hroom).of_eq hnext) hlater

/-- Where one queue has room for an item, so has the other. -/
theorem push_simulates (h : q.Alike r) (v : Nat) : Simulates Alike (q.push v) (r.push v) := by
  intro next hnext
  have hroom : q.tail < q.capacity := by
    rw [push] at hnext
    split at hnext
    · next hroom => exact hroom
    · cases hnext
  have hroom' : r.tail < r.capacity := by rwa [h.tail_eq, h.capacity_eq]
  exact (push_yields hroom').mono fun later hlater =>
    h.publishes ((push_yields hroom).of_eq hnext) hlater

/-- A slide moves both windows alike. -/
theorem slide (h : q.Alike r) : q.slide.Alike r.slide where
  capacity_eq := h.capacity_eq
  tail_eq := h.tail_eq
  tail_le := h.tail_le
  windowStart_eq := h.windowEnd_eq
  windowEnd_eq := h.tail_eq
  windowEnd_le := Nat.le_refl _
  history_eq := h.history_eq

/-- Published positions hold the same items. -/
theorem range_eq {start stop : Nat} (h : q.Alike r) (hle : start ≤ stop) (hstop : stop ≤ q.tail) :
    r.range start stop = q.range start stop := by
  have htail : r.tail ≤ r.capacity := by
    rw [h.tail_eq, h.capacity_eq]
    exact h.tail_le
  rw [WindowQueue.range_eq hle hstop h.tail_le, WindowQueue.range_eq hle (h.tail_eq.symm ▸ hstop) htail,
    h.history_eq]

/-- The windows hold the same items. -/
theorem window_simulates (h : q.Alike r) : Simulates Eq q.window r.window := by
  intro items hitems
  refine ⟨items, ?_, rfl⟩
  have hle : q.windowStart ≤ q.windowEnd := by
    rw [window, range, readSpan] at hitems
    split at hitems
    · next hspan => exact hspan.1
    · cases hitems
  rw [← hitems, window, window, h.windowStart_eq, h.windowEnd_eq, h.range_eq hle h.windowEnd_le]

/-- The windows are empty together. -/
theorem isEmpty_eq (h : q.Alike r) : r.isEmpty = q.isEmpty := by
  rw [isEmpty, isEmpty, h.windowStart_eq, h.windowEnd_eq]

end Alike

end WindowQueue

namespace Batch

variable {q : WindowQueue} {items : List Nat} {b : Batch}

/-- The items have been pushed to a batch in front of a queue: some are published already, and the rest
is staged. -/
def Carries (q : WindowQueue) (items : List Nat) (b : Batch) : Prop :=
  ∃ published, q.Publishes published b.queue ∧ items = published ++ b.staged.toList

/-- An empty batch carries nothing. -/
theorem carries_nil (h : q.tail ≤ q.capacity) : Carries q [] { queue := q } := ⟨[], .refl h, rfl⟩

/-- What is staged can be published as long as there is room for all items. -/
theorem flush_yields (h : Carries q items b) (hroom : q.tail + items.length ≤ q.capacity) :
    Yields b.flush fun b => q.Publishes items b.queue ∧ b.staged = #[] := by
  obtain ⟨published, hpublished, hitems⟩ := h
  have hfits : b.queue.tail + b.staged.toList.length ≤ b.queue.capacity := by
    rw [hpublished.tail_eq, hpublished.capacity_eq]
    rw [hitems, List.length_append] at hroom
    omega
  apply (WindowQueue.append_yields hfits).bind
  intro queue hqueue
  exact .ok ⟨hitems ▸ hpublished.trans hqueue, rfl⟩

/-- One more item can be pushed as long as there is room for all earlier ones. -/
theorem push_yields {v : Nat} (h : Carries q items b) (hroom : q.tail + items.length ≤ q.capacity) :
    Yields (b.push v) (Carries q (items ++ [v])) := by
  have hready : Yields b.makeRoom (Carries q items) := by
    rw [makeRoom]
    split
    · apply (flush_yields h hroom).mono
      intro flushed hflushed
      exact ⟨items, hflushed.1, by simp [hflushed.2]⟩
    · exact .ok h
  apply hready.bind
  intro ready hready
  obtain ⟨published, hpublished, hitems⟩ := hready
  exact .ok ⟨published, hpublished, by simp [hitems]⟩

/-- Closing a batch publishes all items as long as there is room for them. -/
theorem close_yields (h : Carries q items b) (hroom : q.tail + items.length ≤ q.capacity) :
    Yields b.close (q.Publishes items) :=
  (flush_yields h hroom).bind fun _ hflushed => .ok hflushed.1

/-- Two batches have staged the same items in front of queues that are alike. -/
structure Alike (b c : Batch) : Prop where
  queue : b.queue.Alike c.queue
  staged_eq : c.staged = b.staged

namespace Alike

variable {c : Batch}

/-- Batches that are alike are published alike. -/
theorem flush_simulates (h : b.Alike c) : Simulates Alike b.flush c.flush := by
  rw [flush, flush, h.staged_eq]
  apply (h.queue.append_simulates _).bind
  intro q r hqueue
  exact .ok ⟨hqueue, rfl⟩

/-- Batches that are alike take one more item alike. -/
theorem push_simulates (h : b.Alike c) (v : Nat) : Simulates Alike (b.push v) (c.push v) := by
  have hready : Simulates Alike b.makeRoom c.makeRoom := by
    rw [makeRoom, makeRoom, h.staged_eq]
    split
    · exact h.flush_simulates
    · exact .ok h
  apply hready.bind
  intro b c hready
  exact .ok ⟨hready.queue, by rw [hready.staged_eq]⟩

/-- Batches that are alike leave queues that are alike. -/
theorem close_simulates (h : b.Alike c) : Simulates WindowQueue.Alike b.close c.close :=
  h.flush_simulates.bind fun _ _ hflushed => .ok hflushed.queue

end Alike

end Batch

end GraphKernels
