import GraphKernels.Bitmap
import Mathlib

/-!
# Bitmaps as sets of positions

Two bitmaps are called upon in any order, and change places now and then. What one of them contains is told by
the calls alone: the positions that have been set since its contents were last reset, wherever the contents
were at that time. A call on a position outside all words is refused and changes nothing, and no other call
changes a position that it does not name, or the other bitmap.

Setting a position for one thread or for many is the same call here. Counting leaves no trace in the bitmaps,
so the count is told at the end of the calls, however many there are.
-/

namespace GraphKernels

open Bitmap (wordBits wordCount)

/-! ### Sizes and positions -/

namespace Bitmap

variable {b next : Bitmap} {i length : Nat}

/-- The number of words fits the number of positions that are asked for. -/
def Sized (b : Bitmap) (length : Nat) : Prop := b.length = length ∧ b.words.size = wordCount length

/-- The positions whose bits are set. -/
def positions (b : Bitmap) : Finset Nat := (Finset.range b.room).filter (b.contains · = true)

/-- A bitmap starts with the size that is asked for. -/
theorem sized_clear (length : Nat) : (clear length).Sized length := ⟨rfl, Array.size_replicate⟩

/-- Setting a position keeps the size. -/
theorem Sized.set (h : b.Sized length) (hset : b.set i = .ok next) : next.Sized length := by
  rw [set_eq] at hset
  split at hset
  · cases hset
    exact ⟨h.1, by rw [Array.size_set, h.2]⟩
  · cases hset

/-- A reset keeps the size. -/
theorem Sized.reset (h : b.Sized length) : b.reset.Sized length := ⟨h.1, Array.size_replicate.trans h.2⟩

/-- The words have bits for all positions that are asked for, and for those that fill up the last word. -/
theorem Sized.room_eq (h : b.Sized length) : b.room = 64 * ((length + 63) / 64) := by
  rw [room, h.2, wordCount, wordBits]

/-- Only positions inside the words have bits. -/
theorem lt_room_of_contains (h : b.contains i = true) : i < b.room := by
  rw [lt_room_iff]
  by_contra hword
  rw [contains, Array.getD_eq_getD_getElem?, Array.getElem?_eq_none (Nat.le_of_not_lt hword)] at h
  simp at h

/-- A position is one of the set exactly when its bit is set. -/
@[simp] theorem mem_positions : i ∈ b.positions ↔ b.contains i = true := by
  rw [positions, Finset.mem_filter, Finset.mem_range]
  exact ⟨And.right, fun h => ⟨lt_room_of_contains h, h⟩⟩

/-- The count is the size of the set. -/
theorem card_positions (b : Bitmap) : b.positions.card = b.countOnes := by
  rw [countOnes_eq, List.countP_eq_length_filter, positions, Finset.card_def, Finset.filter_val,
    Finset.range_val, Multiset.range, Multiset.filter_coe, Multiset.coe_card]
  simp

/-- Setting a position changes what is read there, and nothing that is read elsewhere. -/
theorem get_set (hi : i < b.room) (h : b.set i = .ok next) :
    next.get = Function.update b.get i (.ok true) := by
  funext j
  rw [get_eq, room_set h, contains_set h]
  by_cases hj : j = i
  · subst hj
    simp [hi]
  · rw [Function.update_of_ne hj, get_eq, decide_eq_false hj, Bool.or_false]

end Bitmap

/-! ### Actions on one bitmap -/

namespace BitmapAction

/-- The bitmap after an action; a swap only moves it. -/
def on (b : Bitmap) : BitmapAction → Bitmap
  | .set i => (b.set i).toOption.getD b
  | .reset => b.reset
  | .get _ | .swap => b

/-- The answer of an action. -/
def answer (b : Bitmap) : BitmapAction → Except Fault (Option Bool)
  | .set i => (b.set i).map fun _ => none
  | .get i => (b.get i).map some
  | .reset | .swap => .ok none

variable {b : Bitmap} {length : Nat}

/-- No action changes the size of a bitmap. -/
theorem sized_on (h : b.Sized length) (action : BitmapAction) : (action.on b).Sized length := by
  cases action with
  | set i =>
    by_cases hi : i < b.room
    · obtain ⟨next, hset⟩ := Bitmap.exists_set hi
      rw [on, hset]
      exact h.set hset
    · rwa [on, Bitmap.set_of_room_le (Nat.not_lt.mp hi)]
  | reset => exact h.reset
  | get i => exact h
  | swap => exact h

/-- An action adds a position when it sets it, and takes it away when it resets the bitmap. -/
theorem contains_on (action : BitmapAction) (b : Bitmap) (i : Nat) :
    (action.on b).contains i = true ↔
      i < b.room ∧ (action = .set i ∨ b.contains i = true ∧ action ≠ .reset) := by
  have hroom : b.contains i = true → i < b.room := Bitmap.lt_room_of_contains
  cases action with
  | set j =>
    by_cases hj : j < b.room
    · obtain ⟨next, hset⟩ := Bitmap.exists_set hj
      simp only [on, hset, Except.toOption, Option.getD_some, Bitmap.contains_set hset]
      grind
    · simp only [on, Bitmap.set_of_room_le (Nat.not_lt.mp hj), Except.toOption, Option.getD_none]
      grind
  | reset => simp [on]
  | get j => simpa [on] using hroom
  | swap => simpa [on] using hroom

end BitmapAction

/-! ### Calls on two bitmaps -/

/-- Which of two bitmaps. -/
inductive Side
  | first
  | second
deriving DecidableEq, Repr

namespace Side

/-- The other of two bitmaps. -/
def other : Side → Side
  | first => second
  | second => first

/-- The bitmap on a side. -/
def of (pair : Bitmap × Bitmap) : Side → Bitmap
  | first => pair.1
  | second => pair.2

/-- The pair with the bitmap on a side replaced. -/
def put (pair : Bitmap × Bitmap) (b : Bitmap) : Side → Bitmap × Bitmap
  | first => (b, pair.2)
  | second => (pair.1, b)

variable {pair : Bitmap × Bitmap} {b : Bitmap} {side side' : Side}

@[simp] theorem other_other (side : Side) : side.other.other = side := by cases side <;> rfl

/-- There are two sides. -/
theorem eq_other_of_ne (h : side' ≠ side) : side' = side.other := by
  cases side <;> cases side' <;> simp_all [other]

@[simp] theorem put_of (side : Side) : side.put pair (side.of pair) = pair := by cases side <;> rfl

@[simp] theorem of_put (side : Side) : side.of (side.put pair b) = b := by cases side <;> rfl

@[simp] theorem of_put_other (side : Side) : side.other.of (side.put pair b) = side.other.of pair := by
  cases side <;> rfl

@[simp] theorem of_swap (side : Side) : side.of pair.swap = side.other.of pair := by cases side <;> rfl

end Side

/-- Something done to one of two bitmaps. -/
structure BitmapCall where
  side : Side
  action : BitmapAction
deriving DecidableEq, Repr

namespace BitmapCall

/-- The answer of a call, if it has one, and the bitmaps that it leaves behind. An action is one on the first of
two bitmaps, so for the second the two are taken the other way round. -/
def perform (c : BitmapCall) (pair : Bitmap × Bitmap) : Except Fault (Option Bool) × (Bitmap × Bitmap) :=
  match c.side with
  | .first => c.action.perform pair
  | .second => (c.action.perform pair.swap).map id Prod.swap

/-- The bitmaps after some calls, the last of which comes first in the list. -/
def after (lengths : Side → Nat) : List BitmapCall → Bitmap × Bitmap
  | [] => (.clear (lengths .first), .clear (lengths .second))
  | c :: earlier => (c.perform (after lengths earlier)).2

/-- The side on which a call leaves what one side holds, and from which it takes what that side holds then. -/
def moves (c : BitmapCall) (side : Side) : Side := if c.action = .swap then side.other else side

/-- The side on which the contents of a side were at the start. -/
def origin : List BitmapCall → Side → Side
  | [], side => side
  | c :: earlier, side => origin earlier (c.moves side)

/-- A position has been set in the contents of a side, and these have not been reset since. -/
inductive SetSince : List BitmapCall → Side → Nat → Prop
  | now (earlier : List BitmapCall) (side : Side) (i : Nat) : SetSince (⟨side, .set i⟩ :: earlier) side i
  | before {c : BitmapCall} {earlier : List BitmapCall} {side : Side} {i : Nat} (h : SetSince earlier side i)
      (hkept : c ≠ ⟨side, .reset⟩) : SetSince (c :: earlier) (c.moves side) i

variable {c : BitmapCall} {calls : List BitmapCall} {lengths : Side → Nat} {pair : Bitmap × Bitmap}
  {side : Side} {i : Nat}

/-- Contents that move twice with a call are where they were. -/
@[simp] theorem moves_moves (c : BitmapCall) (side : Side) : c.moves (c.moves side) = side := by
  by_cases hswap : c.action = .swap <;> simp [moves, hswap]

/-- A reset moves no contents. -/
theorem eq_reset_moves : c = ⟨c.moves side, .reset⟩ ↔ c = ⟨side, .reset⟩ := by
  obtain ⟨called, action⟩ := c
  cases action <;> simp [moves]

/-- The last call has set a position, or it was set before and the last call has not reset the contents. -/
theorem setSince_cons : SetSince (c :: calls) side i ↔
    c = ⟨side, .set i⟩ ∨ SetSince calls (c.moves side) i ∧ c ≠ ⟨side, .reset⟩ := by
  constructor
  · intro h
    cases h with
    | now => exact Or.inl rfl
    | before h hkept =>
      rw [moves_moves]
      exact Or.inr ⟨h, mt eq_reset_moves.mp hkept⟩
  · rintro (rfl | ⟨h, hkept⟩)
    · exact .now calls side i
    · simpa using h.before (mt eq_reset_moves.mp hkept)

/-! ### What calls do -/

/-- A call answers for the bitmap on its side and replaces it, if it does not swap the two. -/
theorem perform_eq (action : BitmapAction) (hswap : action ≠ .swap) :
    perform ⟨side, action⟩ pair = (action.answer (side.of pair), side.put pair (action.on (side.of pair))) := by
  cases action with
  | set i =>
    cases side with
    | first =>
      simp only [perform, BitmapAction.perform, BitmapAction.answer, BitmapAction.on, Side.of]
      cases pair.1.set i <;> rfl
    | second =>
      simp only [perform, BitmapAction.perform, BitmapAction.answer, BitmapAction.on, Side.of, Prod.fst_swap]
      cases pair.2.set i <;> rfl
  | get i => cases side <;> rfl
  | reset => cases side <;> rfl
  | swap => exact absurd rfl hswap

/-- A call to swap is the same from both sides. -/
theorem perform_swap : perform ⟨side, .swap⟩ pair = (.ok none, pair.swap) := by cases side <;> rfl

/-- What a call leaves on a side is what it took from there, changed by the action if that is the side called. -/
theorem of_perform : side.of (c.perform pair).2 =
    if c.side = side then c.action.on ((c.moves side).of pair) else (c.moves side).of pair := by
  obtain ⟨called, action⟩ := c
  by_cases hswap : action = .swap
  · subst hswap
    rw [perform_swap, Side.of_swap]
    simp [moves, BitmapAction.on]
  · rw [perform_eq action hswap, moves, if_neg hswap]
    by_cases hcalled : called = side
    · rw [if_pos hcalled, hcalled, Side.of_put]
    · rw [if_neg hcalled, Side.eq_other_of_ne (Ne.symm hcalled), Side.of_put_other]

/-- The contents of a side have the size of the bitmap that they were in at the start. -/
theorem sized_after (lengths : Side → Nat) (calls : List BitmapCall) (side : Side) :
    (side.of (after lengths calls)).Sized (lengths (origin calls side)) := by
  induction calls generalizing side with
  | nil => cases side <;> exact Bitmap.sized_clear _
  | cons c earlier ih =>
    rw [after, of_perform, origin]
    split
    · exact c.action.sized_on (ih _)
    · exact ih _

/-- The positions on a side are those inside the words that have been set since the contents were last reset. -/
theorem contains_after (lengths : Side → Nat) (calls : List BitmapCall) (side : Side) (i : Nat) :
    (side.of (after lengths calls)).contains i = true ↔
      i < 64 * ((lengths (origin calls side) + 63) / 64) ∧ SetSince calls side i := by
  induction calls generalizing side with
  | nil =>
    have hnever : ¬ SetSince [] side i := nofun
    cases side <;> simp [after, Side.of, hnever]
  | cons c earlier ih =>
    obtain ⟨called, action⟩ := c
    rw [after, of_perform, setSince_cons, origin]
    by_cases hcalled : called = side
    · rw [if_pos hcalled, BitmapAction.contains_on, ih, (sized_after lengths earlier _).room_eq]
      simp only [ne_eq, BitmapCall.mk.injEq, hcalled, true_and]
      tauto
    · rw [if_neg hcalled, ih]
      simp [hcalled]

/-- One of two bitmaps is a set of positions to its caller. The positions that fill up the last word count as
positions like all others. -/
structure Behaves (pair : Bitmap × Bitmap) (side : Side) (length : Nat) (positions : Finset Nat) : Prop where
  length_eq : (side.of pair).length = length
  /-- A read tells whether a position is in the set. -/
  get_eq : ∀ i < 64 * ((length + 63) / 64),
    perform ⟨side, .get i⟩ pair = (.ok (some (decide (i ∈ positions))), pair)
  /-- After a position has been set it is read as such, and nothing else has changed. -/
  set_eq : ∀ i < 64 * ((length + 63) / 64), ∃ b, perform ⟨side, .set i⟩ pair = (.ok none, side.put pair b) ∧
    b.get = Function.update (side.of pair).get i (.ok true)
  /-- A reset clears all positions, and leaves the other bitmap alone. -/
  reset_eq : ∃ b, perform ⟨side, .reset⟩ pair = (.ok none, side.put pair b) ∧
    ∀ i < 64 * ((length + 63) / 64), b.get i = .ok false
  swap_eq : perform ⟨side, .swap⟩ pair = (.ok none, pair.swap)
  /-- A position outside all words cannot be read, which changes nothing. -/
  get_refused : ∀ i, 64 * ((length + 63) / 64) ≤ i →
    perform ⟨side, .get i⟩ pair = (.error .outOfRange, pair)
  /-- A position outside all words cannot be set, which changes nothing. -/
  set_refused : ∀ i, 64 * ((length + 63) / 64) ≤ i →
    perform ⟨side, .set i⟩ pair = (.error .outOfRange, pair)
  countOnes_eq : (side.of pair).countOnes = positions.card

/-- A bitmap whose words fit its length is the set of its positions. -/
theorem behaves_positions {length : Nat} (h : (side.of pair).Sized length) :
    Behaves pair side length (side.of pair).positions where
  length_eq := h.1
  get_eq i hi := by
    rw [← h.room_eq] at hi
    rw [perform_eq (.get i) nofun, BitmapAction.answer, BitmapAction.on, Bitmap.get_eq, if_pos hi, Side.put_of]
    simp [Except.map]
  set_eq i hi := by
    rw [← h.room_eq] at hi
    obtain ⟨next, hset⟩ := Bitmap.exists_set hi
    refine ⟨next, ?_, Bitmap.get_set hi hset⟩
    rw [perform_eq (.set i) nofun, BitmapAction.answer, BitmapAction.on, hset]
    rfl
  reset_eq := by
    refine ⟨(side.of pair).reset, perform_eq .reset nofun, fun i hi => ?_⟩
    rw [← h.room_eq] at hi
    rw [Bitmap.get_eq, Bitmap.room_reset, if_pos hi, Bitmap.contains_reset]
  swap_eq := perform_swap
  get_refused i hi := by
    rw [← h.room_eq] at hi
    rw [perform_eq (.get i) nofun, BitmapAction.answer, BitmapAction.on, Bitmap.get_eq,
      if_neg (Nat.not_lt.mpr hi), Side.put_of]
    rfl
  set_refused i hi := by
    rw [← h.room_eq] at hi
    rw [perform_eq (.set i) nofun, BitmapAction.answer, BitmapAction.on, Bitmap.set_of_room_le hi]
    exact congrArg _ side.put_of
  countOnes_eq := (Bitmap.card_positions _).symm

/-- After any calls on two bitmaps, each is the set of those positions inside its words that have been set since
its contents were last reset. If these are all below the length, then no more than that many are counted. -/
theorem behaves_setSince (lengths : Side → Nat) (calls : List BitmapCall) (side : Side) :
    ∃ positions : Finset Nat,
      (∀ i, i ∈ positions ↔ i < 64 * ((lengths (origin calls side) + 63) / 64) ∧ SetSince calls side i) ∧
      Behaves (after lengths calls) side (lengths (origin calls side)) positions ∧
      ((∀ i ∈ positions, i < lengths (origin calls side)) →
        (side.of (after lengths calls)).countOnes ≤ lengths (origin calls side)) := by
  have hbehaves := behaves_positions (sized_after lengths calls side)
  refine ⟨_, fun i => Bitmap.mem_positions.trans (contains_after lengths calls side i), hbehaves, fun hbelow => ?_⟩
  rw [hbehaves.countOnes_eq, ← Finset.card_range (lengths (origin calls side))]
  exact Finset.card_le_card fun i hi => Finset.mem_range.mpr (hbelow i hi)

/-- A position behind the length has been set, but is forgotten before the bitmaps change places. -/
theorem behaves_setSince_forgotten :
    (Side.second.of (after (fun side => if side = .first then 130 else 10)
      [⟨.second, .swap⟩, ⟨.first, .set 129⟩, ⟨.first, .set 64⟩, ⟨.first, .reset⟩, ⟨.first, .set 150⟩])).countOnes ≤
        130 := by
  obtain ⟨positions, hpositions, -, hcount⟩ := behaves_setSince (fun side => if side = .first then 130 else 10)
    [⟨.second, .swap⟩, ⟨.first, .set 129⟩, ⟨.first, .set 64⟩, ⟨.first, .reset⟩, ⟨.first, .set 150⟩] .second
  refine hcount fun i hi => ?_
  have hset : 129 = i ∨ 64 = i := by
    simpa [setSince_cons, moves, Side.other] using ((hpositions i).mp hi).2
  rcases hset with rfl | rfl <;> decide

end BitmapCall

end GraphKernels
