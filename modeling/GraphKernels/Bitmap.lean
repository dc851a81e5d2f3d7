import GraphKernels.Fault

/-!
# Bitmaps

A bitmap packs the bits of its positions into words, sixty-four to a word. An access first finds the
word of its position, so it is a fault, and changes nothing, exactly when there is no such word; the
positions that fill up the last word can be used like all others. Seen from outside, a bitmap is the
set of positions that it contains.
-/

namespace GraphKernels

/-- Bits packed into words. -/
structure Bitmap where
  words : Array UInt64
  length : Nat
deriving DecidableEq, Repr

namespace Bitmap

/-- The number of bits in a word. -/
def wordBits : Nat := 64

/-- The number of words that hold the given number of positions. -/
def wordCount (length : Nat) : Nat := (length + (wordBits - 1)) / wordBits

/-- The word in which only the bit of a position is set. -/
def mask (i : Nat) : UInt64 := 1 <<< UInt64.ofNat (i % wordBits)

/-- The bitmap of some length with all bits clear. -/
def clear (length : Nat) : Bitmap := ⟨Array.replicate (wordCount length) 0, length⟩

/-- The bitmap with all bits clear again. -/
def reset (b : Bitmap) : Bitmap := { b with words := Array.replicate b.words.size 0 }

/-- The number of positions that the words have bits for. -/
def room (b : Bitmap) : Nat := wordBits * b.words.size

/-- The bitmap with one more position. -/
def set (b : Bitmap) (i : Nat) : Except Fault Bitmap := do
  let word ← readAt b.words (i / wordBits)
  return { b with words := ← writeAt b.words (i / wordBits) (word ||| mask i) }

/-- Whether a position is in the set. -/
def get (b : Bitmap) (i : Nat) : Except Fault Bool := do
  return ((← readAt b.words (i / wordBits)) &&& mask i) != 0

/-- The number of bits that are set in a word; a word without bits needs no look at each of them. -/
def bitCount (word : UInt64) : Nat :=
  if word = 0 then 0 else (List.range wordBits).countP word.toBitVec.getLsbD

/-- The number of positions in the set. -/
def countOnes (b : Bitmap) : Nat := b.words.foldl (fun total word => total + bitCount word) 0

/-- Whether the bitmap covers no positions. -/
def isEmpty (b : Bitmap) : Bool := b.length == 0

/-! ### Bitmaps as sets -/

/-- Whether the bit of a position is set; positions without a word have no bit. -/
def contains (b : Bitmap) (i : Nat) : Bool :=
  (b.words.getD (i / wordBits) 0).toBitVec.getLsbD (i % wordBits)

/-- A mask has a single bit. -/
theorem getLsbD_mask (i j : Nat) :
    (mask i).toBitVec.getLsbD j = decide (j = i % wordBits) := by
  have hi : i % wordBits < 64 := Nat.mod_lt _ (by decide)
  have hshift : (mask i).toBitVec = 1#64 <<< (i % wordBits) := by
    simp [mask, wordBits, UInt64.toBitVec_shiftLeft]
  rw [hshift, ← BitVec.twoPow_eq, BitVec.getLsbD_twoPow]
  simp [hi, eq_comm]

/-- Masking a word leaves something exactly when the bit is set. -/
theorem and_mask_ne_zero (word : UInt64) (i : Nat) :
    (word &&& mask i != 0) = word.toBitVec.getLsbD (i % wordBits) := by
  have hi : i % wordBits < 64 := Nat.mod_lt _ (by decide)
  have hbits (j : Nat) : (word &&& mask i).toBitVec.getLsbD j =
      (word.toBitVec.getLsbD j && decide (j = i % wordBits)) := by
    rw [UInt64.toBitVec_and, BitVec.getLsbD_and, getLsbD_mask]
  cases hset : word.toBitVec.getLsbD (i % wordBits) with
  | true =>
    have hne : word &&& mask i ≠ 0 := by
      intro hzero
      have hbit := hbits (i % wordBits)
      simp [hzero, hset] at hbit
    simpa using hne
  | false =>
    have hzero : word &&& mask i = 0 := by
      apply UInt64.toBitVec_inj.mp
      apply BitVec.eq_of_getLsbD_eq
      intro j _
      rw [hbits j]
      by_cases hj : j = i % wordBits
      · simp [hj, hset]
      · simp [hj]
    simp [hzero]

/-- There is room for a position exactly when it has a word. -/
theorem lt_room_iff {b : Bitmap} {i : Nat} : i < b.room ↔ i / wordBits < b.words.size := by
  unfold room wordBits
  omega

/-- The bitmap of some length has room for all positions below it. -/
theorem le_room_clear (length : Nat) : length ≤ (clear length).room := by
  simp only [room, clear, Array.size_replicate, wordCount, wordBits]
  omega

/-- Exactly the positions that the bitmap has room for can be read. -/
theorem get_eq (b : Bitmap) (i : Nat) :
    b.get i = if i < b.room then .ok (b.contains i) else .error .outOfRange := by
  simp only [lt_room_iff, get, readAt, contains, ← and_mask_ne_zero]
  split
  · simp [bind, Except.bind, pure, Except.pure]
  · rfl

/-- Exactly the positions that the bitmap has room for can be set. -/
theorem set_eq (b : Bitmap) (i : Nat) :
    b.set i = if h : i / wordBits < b.words.size then
      .ok { b with words := b.words.set (i / wordBits) (b.words[i / wordBits] ||| mask i) h }
    else .error .outOfRange := by
  simp only [set, readAt, writeAt]
  split <;> rfl

/-- A position that there is room for can be set. -/
theorem exists_set {b : Bitmap} {i : Nat} (h : i < b.room) : ∃ next, b.set i = .ok next := by
  rw [set_eq, dif_pos (lt_room_iff.mp h)]
  exact ⟨_, rfl⟩

/-- A position that there is no room for cannot be set. -/
theorem set_of_room_le {b : Bitmap} {i : Nat} (h : b.room ≤ i) : b.set i = .error .outOfRange := by
  rw [set_eq, dif_neg fun hword => absurd (lt_room_iff.mpr hword) (Nat.not_lt.mpr h)]

/-- Setting a position adds it to the set and nothing else. -/
theorem contains_set {b next : Bitmap} {i : Nat} (h : b.set i = .ok next) (j : Nat) :
    next.contains j = (b.contains j || decide (j = i)) := by
  rw [set_eq] at h
  split at h
  · next hword =>
    cases h
    have hposition (hj : j / wordBits = i / wordBits) :
        j % wordBits = i % wordBits ↔ j = i := by
      unfold wordBits at hj ⊢
      omega
    by_cases hj : j / wordBits = i / wordBits
    · simp [contains, hj, hword, getLsbD_mask, hposition hj]
    · have hne : j ≠ i := by
        rintro rfl
        exact hj rfl
      simp [contains, Ne.symm hj, hne]
  · cases h

/-- Setting a position keeps the room. -/
theorem room_set {b next : Bitmap} {i : Nat} (h : b.set i = .ok next) : next.room = b.room := by
  rw [set_eq] at h
  split at h
  · cases h
    simp [room]
  · cases h

/-- A new bitmap contains nothing. -/
@[simp] theorem contains_clear (length i : Nat) : (clear length).contains i = false := by
  simp [contains, clear, Array.getD]

/-- A reset bitmap contains nothing. -/
@[simp] theorem contains_reset (b : Bitmap) (i : Nat) : b.reset.contains i = false := by
  simp [contains, reset, Array.getD]

/-- A reset keeps the room. -/
@[simp] theorem room_reset (b : Bitmap) : b.reset.room = b.room := by
  simp [room, reset]

/-- The bits of a word are those that can be read from it. -/
theorem bitCount_eq (word : UInt64) :
    bitCount word = (List.range wordBits).countP word.toBitVec.getLsbD := by
  unfold bitCount
  split
  · next hzero =>
    subst hzero
    rfl
  · rfl

/-- The bits of some words are those of the first word, and then those of the others. -/
theorem foldl_bitCount (start : Nat) (words : List UInt64) :
    words.foldl (fun total word => total + bitCount word) start =
      start + (List.range (wordBits * words.length)).countP
        fun i => (words.getD (i / wordBits) 0).toBitVec.getLsbD (i % wordBits) := by
  induction words generalizing start with
  | nil => simp
  | cons word rest ih =>
    have hfirst : bitCount word = (List.range wordBits).countP
        fun i => ((word :: rest).getD (i / wordBits) 0).toBitVec.getLsbD (i % wordBits) := by
      rw [bitCount_eq]
      apply List.countP_congr
      intro i hi
      have hi : i < wordBits := by simpa using hi
      simp [Nat.div_eq_of_lt hi, Nat.mod_eq_of_lt hi]
    have hshift (i : Nat) : (wordBits + i) / wordBits = i / wordBits + 1 ∧
        (wordBits + i) % wordBits = i % wordBits := by
      unfold wordBits
      omega
    have hlength : wordBits * (word :: rest).length = wordBits + wordBits * rest.length := by
      rw [List.length_cons, Nat.mul_succ, Nat.add_comm]
    rw [List.foldl_cons, ih, hfirst, hlength, List.range_add, List.countP_append, List.countP_map,
      Nat.add_assoc]
    simp [Function.comp_def, hshift]

/-- The count is the size of the set. -/
theorem countOnes_eq (b : Bitmap) : b.countOnes = (List.range b.room).countP b.contains := by
  rw [countOnes, ← Array.foldl_toList, foldl_bitCount, Nat.zero_add, Array.length_toList]
  congr 1
  funext i
  simp [contains]

end Bitmap

/-- Something done to the first of two bitmaps. -/
inductive BitmapAction
  | set (position : Nat)
  | get (position : Nat)
  | reset
  | swap
deriving DecidableEq, Repr

/-- The answer of an action, if it has one, and the bitmaps that it leaves behind. -/
def BitmapAction.perform (action : BitmapAction) (pair : Bitmap × Bitmap) :
    Except Fault (Option Bool) × (Bitmap × Bitmap) :=
  let (first, second) := pair
  match action with
  | .set i =>
    match first.set i with
    | .ok changed => (.ok none, changed, second)
    | .error fault => (.error fault, first, second)
  | .get i => ((first.get i).map some, first, second)
  | .reset => (.ok none, first.reset, second)
  | .swap => (.ok none, second, first)

end GraphKernels
