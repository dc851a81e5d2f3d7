import GraphKernels.Proofs.Frontier.Queue
import GraphKernels.Queue.Action

/-!
# Queues after refusals

A queue is used with no regard to its room. An action that is refused leaves a queue behind, with which others
go on: items that did not fit have advanced the tail past all slots, the window may then be moved past them too,
and growth is refused as well. All of this ends with a reset. The slots still hold what was stored before, but
none of it is read again: a queue that is reset and a new one with as many slots answer alike from then on.

Two queues that mirror each other are followed through their actions side by side. As long as the tail is inside
the slots they are alike. Beyond that nothing is stored any more, so it is enough that their windows agree.
Counters are numbers of any size, which do not wrap.
-/

namespace GraphKernels

namespace WindowQueue

variable {q r next later : WindowQueue} {items : List Nat}

/-- A window that reaches past all slots cannot be read. -/
theorem window_of_capacity_lt (h : q.capacity < q.windowEnd) : q.window = .error .outOfRange := by
  rw [window, range, readSpan, if_neg fun hspan => Nat.not_le.mpr h hspan.2]

/-- Two queues have the same number of slots, the same tail and the same window, which lies in front of the
tail and reads the same in both. While the tail is inside the slots, they have published the same items. -/
structure Mirrors (q r : WindowQueue) : Prop where
  capacity_eq : r.capacity = q.capacity
  tail_eq : r.tail = q.tail
  windowStart_eq : r.windowStart = q.windowStart
  windowEnd_eq : r.windowEnd = q.windowEnd
  windowStart_le : q.windowStart ≤ q.windowEnd
  windowEnd_le : q.windowEnd ≤ q.tail
  window_eq : r.window = q.window
  history_eq : q.tail ≤ q.capacity → r.history = q.history

/-- Queues that are alike mirror each other. -/
theorem Alike.mirrors (h : q.Alike r) (hstart : q.windowStart ≤ q.windowEnd) : q.Mirrors r where
  capacity_eq := h.capacity_eq
  tail_eq := h.tail_eq
  windowStart_eq := h.windowStart_eq
  windowEnd_eq := h.windowEnd_eq
  windowStart_le := hstart
  windowEnd_le := h.windowEnd_le
  window_eq := by
    rw [window, window, h.windowStart_eq, h.windowEnd_eq, h.range_eq hstart h.windowEnd_le]
  history_eq _ := h.history_eq

namespace Mirrors

/-- A queue mirrors itself when its window lies in front of its tail. -/
theorem refl (hstart : q.windowStart ≤ q.windowEnd) (hend : q.windowEnd ≤ q.tail) : q.Mirrors q :=
  ⟨rfl, rfl, rfl, rfl, hstart, hend, rfl, fun _ => rfl⟩

/-- Queues that mirror each other are alike while their tails are inside the slots. -/
theorem alike (h : q.Mirrors r) (hroom : q.tail ≤ q.capacity) : q.Alike r :=
  ⟨h.capacity_eq, h.tail_eq, hroom, h.windowStart_eq, h.windowEnd_eq, h.windowEnd_le, h.history_eq hroom⟩

/-- Publishing the same items keeps up the mirror. -/
theorem publishes (h : q.Mirrors r) (hroom : q.tail ≤ q.capacity) (hq : q.Publishes items next)
    (hr : r.Publishes items later) : next.Mirrors later := by
  apply ((h.alike hroom).publishes hq hr).mirrors
  rw [hq.windowStart_eq, hq.windowEnd_eq]
  exact h.windowStart_le

/-- So does reserving slots that are not there. -/
theorem reserve {count : Nat} (h : q.Mirrors r) (hfull : q.capacity < q.tail + count) :
    (q.reserve count).Mirrors (r.reserve count) where
  capacity_eq := h.capacity_eq
  tail_eq := congrArg (· + count) h.tail_eq
  windowStart_eq := h.windowStart_eq
  windowEnd_eq := h.windowEnd_eq
  windowStart_le := h.windowStart_le
  windowEnd_le := Nat.le_add_right_of_le h.windowEnd_le
  window_eq := h.window_eq
  history_eq hroom := absurd hroom (Nat.not_le.mpr hfull)

/-- A slide past the slots gives windows that cannot be read, and any other gives windows that read alike. -/
theorem slide (h : q.Mirrors r) : q.slide.Mirrors r.slide := by
  by_cases hroom : q.tail ≤ q.capacity
  · exact (h.alike hroom).slide.mirrors h.windowEnd_le
  · have hpast : q.slide.capacity < q.slide.windowEnd := Nat.not_le.mp hroom
    have hpast' : r.slide.capacity < r.slide.windowEnd := by
      change r.capacity < r.tail
      rw [h.capacity_eq, h.tail_eq]
      exact hpast
    exact {
      capacity_eq := h.capacity_eq
      tail_eq := h.tail_eq
      windowStart_eq := h.windowEnd_eq
      windowEnd_eq := h.tail_eq
      windowStart_le := h.windowEnd_le
      windowEnd_le := Nat.le_refl _
      window_eq := by rw [window_of_capacity_lt hpast, window_of_capacity_lt hpast']
      history_eq := fun hroom' => absurd hroom' hroom }

/-- A reset mirrors any other reset of as many slots. -/
theorem reset (h : r.capacity = q.capacity) : q.reset.Mirrors r.reset :=
  (Alike.reset h).mirrors (Nat.le_refl 0)

end Mirrors

/-! ### The same ending on both sides -/

/-- Two runs both end in answers, which are related, or both are refused, and leave queues behind that mirror
each other. -/
def EndAlike {α β : Type} (related : α → β → Prop) : Except Overrun α → Except Overrun β → Prop
  | .ok a, .ok b => related a b
  | .error overrun, .error overrun' => overrun.left.Mirrors overrun'.left
  | _, _ => False

/-- Runs in two parts are compared part by part. -/
theorem EndAlike.bind {α β γ δ : Type} {related : α → β → Prop} {further : γ → δ → Prop}
    {run : Except Overrun α} {other : Except Overrun β} {rest : α → Except Overrun γ}
    {rest' : β → Except Overrun δ} (h : EndAlike related run other)
    (hrest : ∀ a b, related a b → EndAlike further (rest a) (rest' b)) :
    EndAlike further (run >>= rest) (other >>= rest') := by
  cases run with
  | ok a =>
    cases other with
    | ok b => exact hrest a b h
    | error _ => exact h.elim
  | error _ =>
    cases other with
    | ok _ => exact h.elim
    | error _ => exact h

namespace Mirrors

/-- Items fit both queues, or neither; then the reservation stays in both. -/
theorem append_endAlike (h : q.Mirrors r) (items : List Nat) :
    EndAlike Mirrors (q.append items) (r.append items) := by
  by_cases hroom : q.tail + items.length ≤ q.capacity
  · have hroom' : r.tail + items.length ≤ r.capacity := by rwa [h.tail_eq, h.capacity_eq]
    obtain ⟨next, hnext, hq⟩ := append_yields hroom
    obtain ⟨later, hlater, hr⟩ := append_yields hroom'
    rw [hnext, hlater]
    exact h.publishes (by omega) hq hr
  · rw [append, append, h.tail_eq, h.capacity_eq]
    split
    · exact h
    · exact h.reserve (Nat.not_le.mp hroom)

/-- An item fits both queues, or neither. -/
theorem push_endAlike (h : q.Mirrors r) (v : Nat) : EndAlike Mirrors (q.push v) (r.push v) := by
  by_cases hroom : q.tail < q.capacity
  · have hroom' : r.tail < r.capacity := by rwa [h.tail_eq, h.capacity_eq]
    obtain ⟨next, hnext, hq⟩ := push_yields (v := v) hroom
    obtain ⟨later, hlater, hr⟩ := push_yields (v := v) hroom'
    rw [hnext, hlater]
    exact h.publishes (Nat.le_of_lt hroom) hq hr
  · rw [push, push, h.tail_eq, h.capacity_eq, if_neg hroom, if_neg hroom]
    exact h

/-- Growth keeps what was published and nothing else, so it leaves the same slots. -/
theorem ensureCapacity_endAlike (h : q.Mirrors r) (capacity : Nat) :
    EndAlike Mirrors (q.ensureCapacity capacity) (r.ensureCapacity capacity) := by
  rw [ensureCapacity, ensureCapacity, h.tail_eq, h.capacity_eq]
  by_cases henough : capacity ≤ q.capacity
  · rw [if_pos henough, if_pos henough]
    exact h
  · rw [if_neg henough, if_neg henough]
    by_cases hroom : q.tail ≤ q.capacity
    · have hkept : r.slots.extract 0 q.tail = q.slots.extract 0 q.tail := by
        have hhistory := h.history_eq hroom
        rw [history, history, h.tail_eq] at hhistory
        exact Array.toList_inj.mp hhistory
      rw [if_pos hroom, if_pos hroom, hkept, h.windowStart_eq, h.windowEnd_eq]
      exact .refl h.windowStart_le h.windowEnd_le
    · rw [if_neg hroom, if_neg hroom]
      exact h

end Mirrors

end WindowQueue

/-! ### Batches -/

namespace Batch

open WindowQueue (EndAlike)

/-- Two batches have staged the same items in front of queues that mirror each other. -/
structure Mirrors (b c : Batch) : Prop where
  queue : b.queue.Mirrors c.queue
  staged_eq : c.staged = b.staged

namespace Mirrors

variable {b c : Batch}

/-- What is staged fits both queues, or neither. -/
theorem flush_endAlike (h : b.Mirrors c) : EndAlike Mirrors b.flush c.flush := by
  rw [flush, flush, h.staged_eq]
  exact (h.queue.append_endAlike _).bind fun _ _ hqueue => ⟨hqueue, rfl⟩

/-- A step is taken with both batches, or with neither. -/
theorem perform_endAlike (h : b.Mirrors c) (step : BatchStep) :
    EndAlike Mirrors (step.perform b) (step.perform c) := by
  cases step with
  | flush => exact h.flush_endAlike
  | push v =>
    have hready : EndAlike Mirrors b.makeRoom c.makeRoom := by
      rw [makeRoom, makeRoom, h.staged_eq]
      split
      · exact h.flush_endAlike
      · exact h
    exact hready.bind fun _ _ hready => ⟨hready.queue, congrArg (·.push v) hready.staged_eq⟩

/-- Some steps are taken with both batches, up to the end or up to the same refusal. -/
theorem foldlM_perform_endAlike (h : b.Mirrors c) (steps : List BatchStep) :
    EndAlike Mirrors (steps.foldlM BatchStep.perform b) (steps.foldlM BatchStep.perform c) := by
  induction steps generalizing b c with
  | nil => exact h
  | cons step rest ih =>
    rw [List.foldlM_cons, List.foldlM_cons]
    exact (h.perform_endAlike step).bind fun _ _ hnext => ih hnext

end Mirrors

end Batch

/-! ### Actions -/

namespace QueueAction

open WindowQueue

variable {q r next : WindowQueue} {fault : Fault}

/-- An action is taken with both queues, or refused by both. -/
theorem apply_endAlike (h : q.Mirrors r) (action : QueueAction) :
    EndAlike Mirrors (action.apply q) (action.apply r) := by
  cases action with
  | push v => exact h.push_endAlike v
  | append items => exact h.append_endAlike items
  | batch steps =>
    have hbatch : Batch.Mirrors { queue := q } { queue := r } := ⟨h, rfl⟩
    apply (hbatch.foldlM_perform_endAlike steps).bind
    intro b c hsteps
    exact hsteps.flush_endAlike.bind fun _ _ hclosed => hclosed.queue
  | slide => exact h.slide
  | reset => exact Mirrors.reset h.capacity_eq
  | ensureCapacity capacity =>
    simp only [apply]
    cases requireRoom capacity slotBytes with
    | ok => exact h.ensureCapacity_endAlike capacity
    | error _ => exact h

/-- Queues that mirror each other still do so after any action, which has ended in the same way. -/
theorem perform_mirrors (h : q.Mirrors r) (action : QueueAction) :
    (action.perform q).1 = (action.perform r).1 ∧ (action.perform q).2.Mirrors (action.perform r).2 := by
  have hend := apply_endAlike h action
  rw [perform, perform]
  cases hq : action.apply q with
  | ok next =>
    cases hr : action.apply r with
    | ok later =>
      rw [hq, hr] at hend
      exact ⟨rfl, hend⟩
    | error _ =>
      rw [hq, hr] at hend
      exact hend.elim
  | error _ =>
    cases hr : action.apply r with
    | ok later =>
      rw [hq, hr] at hend
      exact hend.elim
    | error _ =>
      rw [hq, hr] at hend
      exact ⟨rfl, hend⟩

/-- A refused action leaves the queue of its refusal behind. -/
theorem apply_eq_error {action : QueueAction} (h : action.perform q = (.error fault, next)) :
    action.apply q = .error ⟨next⟩ := by
  rw [perform] at h
  split at h
  · cases h
  · next heq =>
    cases h
    exact heq

/-- An item that is refused changes nothing. -/
theorem push_refused {v : Nat} (h : (push v).perform q = (.error fault, next)) : next = q := by
  have happly := apply_eq_error h
  rw [apply, WindowQueue.push] at happly
  split at happly
  · cases happly
  · cases happly
    rfl

/-- Growth that is refused changes nothing. -/
theorem ensureCapacity_refused {capacity : Nat}
    (h : (ensureCapacity capacity).perform q = (.error fault, next)) : next = q := by
  have happly := apply_eq_error h
  simp only [apply, WindowQueue.ensureCapacity] at happly
  split at happly
  · split at happly
    · cases happly
    · split at happly
      · cases happly
      · cases happly
        rfl
  · cases happly
    rfl

/-- Items that are refused advance the tail and change nothing else. -/
theorem append_refused {items : List Nat} (h : (append items).perform q = (.error fault, next)) :
    next = { q with tail := q.tail + items.length } := by
  have happly := apply_eq_error h
  rw [apply, WindowQueue.append] at happly
  split at happly
  · cases happly
  · split at happly
    · cases happly
    · cases happly
      rfl

end QueueAction

/-! ### Calls -/

/-- A use of a queue: an action, or a look at its window. -/
inductive QueueCall
  | act (action : QueueAction)
  | window
  | length
deriving DecidableEq, Repr

/-- What a queue answers to a call. -/
inductive QueueAnswer
  | ended (result : Except Fault Unit)
  | window (items : Except Fault (List Nat))
  | length (count : Nat)

namespace QueueCall

/-- The answer to a call, and the queue that it leaves behind. -/
def perform (q : WindowQueue) : QueueCall → QueueAnswer × WindowQueue
  | act action => (.ended (action.perform q).1, (action.perform q).2)
  | window => (.window q.window, q)
  | length => (.length q.length, q)

/-- Queues that mirror each other answer a call alike, and still do so afterwards. -/
theorem perform_mirrors {q r : WindowQueue} (h : q.Mirrors r) (call : QueueCall) :
    (call.perform q).1 = (call.perform r).1 ∧ (call.perform q).2.Mirrors (call.perform r).2 := by
  cases call with
  | act action =>
    obtain ⟨hresult, hleft⟩ := QueueAction.perform_mirrors h action
    exact ⟨congrArg QueueAnswer.ended hresult, hleft⟩
  | window => exact ⟨congrArg QueueAnswer.window h.window_eq.symm, h⟩
  | length =>
    refine ⟨congrArg QueueAnswer.length ?_, h⟩
    rw [WindowQueue.length, WindowQueue.length, h.windowStart_eq, h.windowEnd_eq]

end QueueCall

namespace WindowQueue

variable {q r : WindowQueue}

/-- The queue that some actions leave behind, refused ones included. -/
def after (q : WindowQueue) (actions : List QueueAction) : WindowQueue :=
  actions.foldl (fun q action => (action.perform q).2) q

/-- The answers to some calls, one after the other. -/
def answers (q : WindowQueue) : List QueueCall → List QueueAnswer
  | [] => []
  | call :: rest => (call.perform q).1 :: answers (call.perform q).2 rest

/-- Queues that mirror each other give the same answers. -/
theorem Mirrors.answers_eq (h : q.Mirrors r) (calls : List QueueCall) : q.answers calls = r.answers calls := by
  induction calls generalizing q r with
  | nil => rfl
  | cons call rest ih =>
    obtain ⟨hanswer, hleft⟩ := QueueCall.perform_mirrors h call
    rw [answers, answers, hanswer, ih hleft]

/-- Queues that mirror each other still do so after any actions. -/
theorem Mirrors.after (h : q.Mirrors r) (actions : List QueueAction) :
    (q.after actions).Mirrors (r.after actions) := by
  induction actions generalizing q r with
  | nil => exact h
  | cons action rest ih => exact ih (QueueAction.perform_mirrors h action).2

/-- Refusals keep the window in front of the tail, store nothing, and are forgotten with a reset. -/
structure Recovers (q : WindowQueue) : Prop where
  windowStart_le : q.windowStart ≤ q.windowEnd
  windowEnd_le : q.windowEnd ≤ q.tail
  /-- The length is what lies between the ends of the window; their difference is not cut off at zero. -/
  length_eq : q.windowStart + q.length = q.windowEnd
  push_refused : ∀ v fault next, (QueueAction.push v).perform q = (.error fault, next) → next = q
  ensureCapacity_refused : ∀ capacity fault next,
    (QueueAction.ensureCapacity capacity).perform q = (.error fault, next) → next = q
  append_refused : ∀ items fault next, (QueueAction.append items).perform q = (.error fault, next) →
    next = { q with tail := q.tail + items.length }
  reset_answers : ∀ calls, q.reset.answers calls = (withCapacity q.capacity).answers calls

/-- Whatever has been done to a queue, and whatever of it has been refused, its window lies in front of its tail.
A refused action changes nothing but the tail, and that only where items were reserved for. Once the queue is
reset it answers all further calls like a new queue with as many slots. -/
theorem after_recovers (capacity : Nat) (actions : List QueueAction) :
    ((withCapacity capacity).after actions).Recovers := by
  have hnew : (withCapacity capacity).Mirrors (withCapacity capacity) := .refl (Nat.le_refl 0) (Nat.le_refl 0)
  have h := hnew.after actions
  exact {
    windowStart_le := h.windowStart_le
    windowEnd_le := h.windowEnd_le
    length_eq := Nat.add_sub_cancel' h.windowStart_le
    push_refused := fun _ _ _ => QueueAction.push_refused
    ensureCapacity_refused := fun _ _ _ => QueueAction.ensureCapacity_refused
    append_refused := fun _ _ _ => QueueAction.append_refused
    reset_answers := fun calls => by
      apply Mirrors.answers_eq
      exact Mirrors.reset (r := withCapacity _) Array.size_replicate }

/-- Items that do not fit cost the window and the room to grow. A reset brings both back, and what had been
stored is gone. -/
example : (withCapacity 2).answers
    [.act (.push 7), .act (.append [8, 9]), .act .slide, .window, .length, .act (.ensureCapacity 4),
      .act .reset, .act (.ensureCapacity 4), .act (.push 5), .act .slide, .window] =
    [.ended (.ok ()), .ended (.error .queueFull), .ended (.ok ()), .window (.error .outOfRange), .length 3,
      .ended (.error .queueFull), .ended (.ok ()), .ended (.ok ()), .ended (.ok ()), .ended (.ok ()),
      .window (.ok [5])] := rfl

end WindowQueue

end GraphKernels
