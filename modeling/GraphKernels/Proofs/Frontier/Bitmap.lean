import GraphKernels.Bitmap
import GraphKernels.Proofs.Run

/-!
# Bitmaps that hold a frontier

A bitmap holds a set of vertices when it has room for all vertices and contains exactly those of the set.
Bitmaps with the same room and the same positions cannot be told apart.
-/

namespace GraphKernels.Bitmap

variable {b : Bitmap} {n v : Nat} {members : Nat → Prop}

/-- The bitmap has room for `n` positions and contains exactly the members of a set. -/
structure Holds (b : Bitmap) (n : Nat) (members : Nat → Prop) : Prop where
  room_le : n ≤ b.room
  contains_iff : ∀ v, b.contains v = true ↔ members v

/-- A reset bitmap holds nothing. -/
theorem holds_reset (h : n ≤ b.room) : b.reset.Holds n fun _ => False where
  room_le := by rwa [room_reset]
  contains_iff v := by simp

namespace Holds

/-- The set can be described in other words. -/
theorem congr {others : Nat → Prop} (h : b.Holds n members) (hiff : ∀ v, members v ↔ others v) :
    b.Holds n others :=
  ⟨h.room_le, fun v => (h.contains_iff v).trans (hiff v)⟩

/-- A position that there is room for can be read. -/
theorem get_eq (h : b.Holds n members) (hv : v < n) : b.get v = .ok (b.contains v) := by
  rw [Bitmap.get_eq, if_pos (Nat.lt_of_lt_of_le hv h.room_le)]

/-- Setting a position that there is room for adds it to the set. -/
theorem set_yields (h : b.Holds n members) (hv : v < n) :
    Yields (b.set v) (·.Holds n fun u => members u ∨ u = v) := by
  obtain ⟨next, hset⟩ := exists_set (Nat.lt_of_lt_of_le hv h.room_le)
  refine ⟨next, hset, ?_, fun u => ?_⟩
  · rw [room_set hset]
    exact h.room_le
  · rw [contains_set hset, Bool.or_eq_true, h.contains_iff, decide_eq_true_eq]

end Holds

/-- Two bitmaps have some room and contain the same positions. -/
structure Alike (room : Nat) (b c : Bitmap) : Prop where
  room_eq : b.room = room
  room_eq' : c.room = room
  contains_eq : ∀ i, c.contains i = b.contains i

namespace Alike

variable {c : Bitmap} {room : Nat}

/-- Bitmaps that are alike hold the same sets. -/
theorem holds (h : Alike room b c) (hb : b.Holds n members) : c.Holds n members where
  room_le := by
    rw [h.room_eq', ← h.room_eq]
    exact hb.room_le
  contains_iff v := by rw [h.contains_eq, hb.contains_iff]

/-- A position can be set in both bitmaps or in none. -/
theorem set_simulates (h : Alike room b c) (i : Nat) : Simulates (Alike room) (b.set i) (c.set i) := by
  intro marked hmarked
  have hi : i < b.room := by
    by_contra hnone
    rw [set_of_room_le (Nat.not_lt.mp hnone)] at hmarked
    cases hmarked
  rw [h.room_eq, ← h.room_eq'] at hi
  obtain ⟨next, hset⟩ := exists_set hi
  refine ⟨next, hset, (room_set hmarked).trans h.room_eq, (room_set hset).trans h.room_eq', fun j => ?_⟩
  rw [contains_set hset, contains_set hmarked, h.contains_eq]

end Alike

end GraphKernels.Bitmap
