import GraphKernels.Proofs.Frontier.Queue
import GraphKernels.Queue.Action

/-!
# Queues as histories

What a queue holds is told by the items published since its last reset, in order and parted by the last
two slides. Every action has an effect on these parts that says nothing about slots, counters or batch
sizes, and a queue follows its history as long as the history fits: no action is refused, and every
position and range of the history can be read.

How much fits is up to the caller, and so is the choice of a capacity that an array can have.
-/

namespace GraphKernels

/-- The items published since the last reset, and the number of slots for them. -/
structure History where
  capacity : Nat
  /-- The items published before the last slide but one. -/
  seen : List Nat := []
  /-- The items published between the last two slides. -/
  window : List Nat := []
  /-- The items published since the last slide. -/
  pending : List Nat := []
deriving DecidableEq

/-- The items that a step in the life of a batch adds. -/
def BatchStep.items : BatchStep → List Nat
  | .push v => [v]
  | .flush => []

/-- The number of slots that an action asks for. -/
def QueueAction.asked : QueueAction → Nat
  | .ensureCapacity capacity => capacity
  | _ => 0

namespace History

/-- All items, in the order in which they were published. -/
def published (h : History) : List Nat := h.seen ++ h.window ++ h.pending

/-- The history with some more items. -/
def publish (h : History) (items : List Nat) : History := { h with pending := h.pending ++ items }

/-- The history after an action. -/
def after (h : History) : QueueAction → History
  | .push v => h.publish [v]
  | .append items => h.publish items
  | .batch steps => h.publish (steps.flatMap BatchStep.items)
  | .slide => { h with seen := h.seen ++ h.window, window := h.pending, pending := [] }
  | .reset => { capacity := h.capacity }
  | .ensureCapacity capacity => { h with capacity := max h.capacity capacity }

/-- The history of a queue with some number of slots after some actions. -/
def of (capacity : Nat) (actions : List QueueAction) : History := actions.foldl after { capacity }

/-- At no point more has been published since the last reset than there are slots for. -/
def Fits (capacity : Nat) (actions : List QueueAction) : Prop :=
  ∀ done, done <+: actions → (of capacity done).published.length ≤ (of capacity done).capacity

variable {capacity : Nat} {actions : List QueueAction} {action : QueueAction} {h : History}

/-- More items come behind all earlier ones. -/
@[simp] theorem published_publish (items : List Nat) :
    (h.publish items).published = h.published ++ items := by
  simp [published, publish]

/-- A slide publishes nothing and forgets nothing. -/
@[simp] theorem published_after_slide : (h.after .slide).published = h.published := by
  simp [published, after]

/-- Growth publishes nothing and forgets nothing. -/
@[simp] theorem published_after_ensureCapacity :
    (h.after (.ensureCapacity capacity)).published = h.published := rfl

/-- One more action acts on the history so far. -/
theorem of_concat : of capacity (actions ++ [action]) = (of capacity actions).after action := by
  rw [of, List.foldl_concat]
  rfl

/-- What fits has room for all that is published in the end. -/
theorem Fits.room (hfits : Fits capacity actions) :
    (of capacity actions).published.length ≤ (of capacity actions).capacity :=
  hfits actions (List.prefix_refl actions)

/-- Actions fit if they do with some more behind them. -/
theorem Fits.of_prefix {done : List QueueAction} (hfits : Fits capacity actions)
    (hdone : done <+: actions) : Fits capacity done :=
  fun _ hearlier => hfits _ (hearlier.trans hdone)

/-- Whether actions fit is decided by going through them. -/
instance : Decidable (Fits capacity actions) :=
  decidable_of_iff (∀ done ∈ actions.inits,
      (of capacity done).published.length ≤ (of capacity done).capacity)
    (by simp only [List.mem_inits]; rfl)

end History

namespace WindowQueue

/-- The queue holds the items of a history, with the window where the history has it. -/
structure Follows (q : WindowQueue) (h : History) : Prop where
  capacity_eq : q.capacity = h.capacity
  tail_eq : q.tail = h.published.length
  tail_le : q.tail ≤ q.capacity
  windowStart_eq : q.windowStart = h.seen.length
  windowEnd_eq : q.windowEnd = h.seen.length + h.window.length
  history_eq : q.history = h.published

/-- What can be read from the queue is what the history says. -/
structure Reads (q : WindowQueue) (h : History) : Prop where
  capacity_eq : q.capacity = h.capacity
  windowStart_eq : q.windowStart = h.seen.length
  windowEnd_eq : q.windowEnd = h.seen.length + h.window.length
  length_eq : q.length = h.window.length
  isEmpty_eq : q.isEmpty = h.window.isEmpty
  window_eq : q.window = .ok h.window
  get_eq : ∀ i (hi : i < h.published.length), q.get i = .ok h.published[i]
  range_eq : ∀ start stop, start ≤ stop → stop ≤ h.published.length →
    q.range start stop = .ok ((h.published.take stop).drop start)

variable {q next : WindowQueue} {h : History} {items : List Nat}

/-- A new queue follows the empty history. -/
theorem withCapacity_follows (capacity : Nat) : (withCapacity capacity).Follows { capacity } where
  capacity_eq := by simp [WindowQueue.capacity, withCapacity]
  tail_eq := rfl
  tail_le := Nat.zero_le _
  windowStart_eq := rfl
  windowEnd_eq := rfl
  history_eq := history_withCapacity capacity

namespace Follows

/-- The three parts of the history fill the reserved slots. -/
theorem tail_eq_parts (hq : q.Follows h) :
    q.tail = h.seen.length + h.window.length + h.pending.length := by
  rw [hq.tail_eq, History.published, List.length_append, List.length_append]

/-- Published items come behind the history. -/
theorem publishes (hq : q.Follows h) (hnext : q.Publishes items next) :
    next.Follows (h.publish items) where
  capacity_eq := hnext.capacity_eq.trans hq.capacity_eq
  tail_eq := by rw [hnext.tail_eq, hq.tail_eq, History.published_publish, List.length_append]
  tail_le := hnext.tail_le
  windowStart_eq := hnext.windowStart_eq.trans hq.windowStart_eq
  windowEnd_eq := hnext.windowEnd_eq.trans hq.windowEnd_eq
  history_eq := by rw [hnext.history_eq, hq.history_eq, History.published_publish]

/-- What is published next fits behind the history. -/
theorem room (hq : q.Follows h) (hroom : (h.publish items).published.length ≤ h.capacity) :
    q.tail + items.length ≤ q.capacity := by
  rw [History.published_publish, List.length_append] at hroom
  rw [hq.tail_eq, hq.capacity_eq]
  exact hroom

/-- A slide moves the window behind what was seen of it. -/
theorem slide (hq : q.Follows h) : q.slide.Follows (h.after .slide) where
  capacity_eq := hq.capacity_eq
  tail_eq := by rw [History.published_after_slide]; exact hq.tail_eq
  tail_le := hq.tail_le
  windowStart_eq := by
    rw [History.after, List.length_append]
    exact hq.windowEnd_eq
  windowEnd_eq := by
    rw [History.after, List.length_append]
    exact hq.tail_eq_parts
  history_eq := by rw [History.published_after_slide]; exact hq.history_eq

/-- A reset leaves nothing but the slots. -/
theorem reset (hq : q.Follows h) : q.reset.Follows (h.after .reset) where
  capacity_eq := hq.capacity_eq
  tail_eq := rfl
  tail_le := Nat.zero_le _
  windowStart_eq := rfl
  windowEnd_eq := rfl
  history_eq := history_reset q

/-- Growth adds slots, as many as were asked for, and changes nothing else. -/
theorem ensureCapacity_yields (hq : q.Follows h) (capacity : Nat) :
    Yields (q.ensureCapacity capacity) (·.Follows (h.after (.ensureCapacity capacity))) := by
  rw [ensureCapacity]
  have hcapacity := hq.capacity_eq
  by_cases hlarge : capacity ≤ q.capacity
  · rw [if_pos hlarge]
    refine .ok { hq with capacity_eq := ?_ }
    change q.capacity = max h.capacity capacity
    omega
  · rw [if_neg hlarge, if_pos hq.tail_le]
    have htail : q.tail ≤ q.slots.size := hq.tail_le
    have hsize : (q.slots.extract 0 q.tail ++ Array.replicate (capacity - q.tail) 0).size =
        max h.capacity capacity := by
      simp only [WindowQueue.capacity] at hcapacity hlarge
      simp
      omega
    refine .ok ⟨hsize, hq.tail_eq, ?_, hq.windowStart_eq, hq.windowEnd_eq, ?_⟩
    · have htail := hq.tail_le
      change q.tail ≤ _
      rw [WindowQueue.capacity, hsize]
      omega
    · change (Array.extract _ 0 q.tail).toList = _
      rw [History.published_after_ensureCapacity, ← hq.history_eq, history]
      simp [htail]

/-- A queue that follows a history shows it to its readers. -/
theorem reads (hq : q.Follows h) : q.Reads h where
  capacity_eq := hq.capacity_eq
  windowStart_eq := hq.windowStart_eq
  windowEnd_eq := hq.windowEnd_eq
  length_eq := by rw [length, hq.windowStart_eq, hq.windowEnd_eq, Nat.add_sub_cancel_left]
  isEmpty_eq := by
    rw [isEmpty, hq.windowStart_eq, hq.windowEnd_eq, Bool.eq_iff_iff, beq_iff_eq, List.isEmpty_iff,
      ← List.length_eq_zero_iff]
    omega
  window_eq := by
    have hparts := hq.tail_eq_parts
    have hstart := hq.windowStart_eq
    have hend := hq.windowEnd_eq
    rw [window, WindowQueue.range_eq (by omega) (by omega) hq.tail_le, hq.history_eq, hstart, hend,
      History.published, ← List.length_append, List.take_left, List.drop_left]
  get_eq i hi := by
    have htail := hq.tail_eq
    have hsize : q.tail ≤ q.slots.size := hq.tail_le
    rw [get, readAt_of_lt (by omega)]
    have hitem : q.history[i]? = some h.published[i] := by
      rw [hq.history_eq, List.getElem?_eq_getElem hi]
    simp only [history, Array.getElem?_toList, Array.getElem?_extract] at hitem
    rw [if_pos (by omega), Nat.zero_add, Array.getElem?_eq_getElem (by omega)] at hitem
    exact congrArg Except.ok (Option.some.inj hitem)
  range_eq start stop hle hstop := by
    rw [WindowQueue.range_eq hle (by rw [hq.tail_eq]; exact hstop) hq.tail_le, hq.history_eq]

end Follows

end WindowQueue

namespace Batch

variable {q : WindowQueue} {items : List Nat} {b : Batch}

/-- Some steps with a batch push their items, wherever it is flushed on the way. -/
theorem steps_yields (steps : List BatchStep) (hb : Carries q items b)
    (hroom : q.tail + (items ++ steps.flatMap BatchStep.items).length ≤ q.capacity) :
    Yields (steps.foldlM BatchStep.perform b)
      (Carries q (items ++ steps.flatMap BatchStep.items)) := by
  induction steps generalizing items b with
  | nil => simpa using hb
  | cons step rest ih =>
    have hstep : Yields (step.perform b) (Carries q (items ++ step.items)) := by
      have hitems : q.tail + items.length ≤ q.capacity := by
        rw [List.length_append] at hroom
        omega
      cases step with
      | push v => exact push_yields hb hitems
      | flush =>
        apply (flush_yields hb hitems).mono
        intro flushed hflushed
        exact ⟨items, hflushed.1, by simp [hflushed.2, BatchStep.items]⟩
    rw [List.flatMap_cons, ← List.append_assoc] at hroom ⊢
    rw [List.foldlM_cons]
    exact hstep.bind fun next hnext => ih hnext hroom

end Batch

namespace QueueAction

open WindowQueue

variable {q : WindowQueue} {h : History}

/-- An action that fits is not refused, and the queue follows its history through it. -/
theorem apply_yields (action : QueueAction) (hq : q.Follows h)
    (hroom : (h.after action).published.length ≤ (h.after action).capacity)
    (hasked : requireRoom action.asked slotBytes = .ok ()) :
    Yields (action.apply q) (·.Follows (h.after action)) := by
  cases action with
  | push v => exact (push_yields (hq.room hroom)).mono fun _ hnext => hq.publishes hnext
  | append items => exact (append_yields (hq.room hroom)).mono fun _ hnext => hq.publishes hnext
  | batch steps =>
    have hfits := hq.room hroom
    apply (Batch.steps_yields steps (Batch.carries_nil hq.tail_le) hfits).bind
    intro b hb
    exact (Batch.close_yields hb hfits).mono fun _ hnext => hq.publishes hnext
  | slide => exact .ok hq.slide
  | reset => exact .ok hq.reset
  | ensureCapacity capacity =>
    have happly : (ensureCapacity capacity).apply q = q.ensureCapacity capacity := by
      rw [asked] at hasked
      simp only [apply, hasked]
    rw [happly]
    exact hq.ensureCapacity_yields capacity

/-- Actions that fit are not refused, and the queue follows its history through all of them. -/
theorem foldlM_apply_yields {capacity : Nat} {actions : List QueueAction}
    (hfits : History.Fits capacity actions)
    (hasked : ∀ action ∈ actions, requireRoom action.asked slotBytes = .ok ()) :
    Yields (actions.foldlM apply (withCapacity capacity)) (·.Follows (History.of capacity actions)) := by
  apply Yields.foldlM fun (done : List QueueAction) (q : WindowQueue) => q.Follows (History.of capacity done)
  · exact withCapacity_follows capacity
  · intro done action rest q hactions hq
    rw [History.of_concat]
    apply apply_yields action hq
    · rw [← History.of_concat]
      exact (hfits.of_prefix ⟨rest, by simp [hactions]⟩).room
    · exact hasked action (by simp [hactions])

/-- From an empty queue on, and as long as what is published since the last reset fits and no capacity
is asked for that no array can have, no action is refused, and the queue reads as the list of the items
published since the last reset. -/
theorem reads_history (capacity : Nat) (actions : List QueueAction)
    (hfits : History.Fits capacity actions)
    (hcapacity : requireRoom capacity slotBytes = .ok ())
    (hasked : ∀ action ∈ actions, requireRoom action.asked slotBytes = .ok ()) :
    ∃ start q, withCapacity? capacity = .ok start ∧ actions.foldlM apply start = .ok q ∧
      q.Reads (History.of capacity actions) := by
  obtain ⟨q, hrun, hq⟩ := foldlM_apply_yields hfits hasked
  refine ⟨withCapacity capacity, q, ?_, hrun, hq.reads⟩
  rw [withCapacity?, hcapacity]
  rfl

/-- A frontier of two items, then one of two more after growth, the second pair by way of a batch. -/
theorem reads_history_growth :
    ∃ start q, withCapacity? 2 = .ok start ∧
      [push 9, push 8, slide, ensureCapacity 4, batch [.push 1, .flush, .push 2], slide].foldlM
        apply start = .ok q ∧
      q.Reads { capacity := 4, seen := [9, 8], window := [1, 2] } :=
  reads_history 2 [push 9, push 8, slide, ensureCapacity 4, batch [.push 1, .flush, .push 2], slide]
    (by decide) (by decide) (by decide)

/-- Growth to more slots than any array has is refused, though everything published fits. -/
theorem beyond_any_array_refused :
    ¬ ∀ capacity actions, History.Fits capacity actions →
      ∃ q, actions.foldlM apply (withCapacity capacity) = .ok q := by
  intro h
  obtain ⟨q, hq⟩ := h 2 [ensureCapacity 2305843009213693952] (by decide)
  cases hq

end QueueAction

end GraphKernels
