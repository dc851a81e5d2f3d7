import GraphKernels.Distance.Dijkstra
import Mathlib

/-!
# The least entry is popped

In a heap no entry comes before one above it. Joining, merging, pushing and popping keep that for every
total and transitive order, so what is popped comes before all that stays. Tentative distances are ordered
by distance first, so a popped one is not longer than any other.
-/

namespace GraphKernels

namespace Heap

variable {α : Type} {le : α → α → Bool} {heap rest a b : Heap α} {entry least : α}

/-- A pushed entry is one more. -/
theorem size_push (le : α → α → Bool) (heap : Heap α) (entry : α) :
    (heap.push le entry).size = heap.size + 1 := by
  rw [← length_toList, ← length_toList, (toList_push le heap entry).length_eq, List.length_cons]

/-- A popped entry is one less. -/
theorem size_of_pop (h : heap.pop? le = some (least, rest)) : heap.size = rest.size + 1 := by
  rw [← length_toList, ← length_toList, (toList_pop h).length_eq, List.length_cons]

/-- Only a heap without entries gives none. -/
theorem toList_of_pop_none (h : heap.pop? le = none) : heap.toList = [] := by
  cases heap with
  | empty => rfl
  | node rank least left right => cases h

/-- A heap without entries gives none. -/
theorem pop_eq_none (h : heap.size = 0) : heap.pop? le = none := by
  cases heap with
  | empty => rfl
  | node rank least left right => cases h

/-- No entry comes before one above it. -/
def Ordered (le : α → α → Bool) : Heap α → Prop
  | empty => True
  | node _ least left right =>
    (∀ entry ∈ left.toList ++ right.toList, le least entry) ∧ left.Ordered le ∧ right.Ordered le

/-- An entry can be put above heaps that it comes before. -/
theorem Ordered.join (ha : a.Ordered le) (hb : b.Ordered le)
    (h : ∀ entry ∈ a.toList ++ b.toList, le least entry) : (Heap.join least a b).Ordered le := by
  rw [Heap.join]
  split
  · exact ⟨h, ha, hb⟩
  · exact ⟨fun entry hentry => h entry (List.perm_append_comm.mem_iff.mp hentry), hb, ha⟩

/-- The entry on top comes before all of a heap when it comes before the top of that heap. -/
theorem Ordered.le_of_le {rank : Nat} {left right : Heap α} (htrans : ∀ x y z, le x y → le y z → le x z)
    (h : (node rank least left right).Ordered le) (htop : le entry least) :
    ∀ x ∈ (node rank least left right).toList, le entry x := by
  intro x hx
  rcases List.mem_cons.mp hx with rfl | hx
  · exact htop
  · exact htrans entry least x htop (h.1 x hx)

/-- Merging keeps the order. -/
theorem Ordered.merge (htrans : ∀ x y z, le x y → le y z → le x z) (htotal : ∀ x y, le x y ∨ le y x)
    (ha : a.Ordered le) (hb : b.Ordered le) : (Heap.merge le a b).Ordered le := by
  induction a, b using Heap.merge.induct le with
  | case1 b => rwa [Heap.merge]
  | case2 a hne =>
    rw [Heap.merge]
    · exact ha
    · exact hne
  | case3 rank₁ least₁ left₁ right₁ rank₂ least₂ left₂ right₂ hle ih =>
    rw [Heap.merge, if_pos hle]
    apply ha.2.1.join (ih ha.2.2 hb)
    intro x hx
    rw [List.mem_append, (toList_merge ..).mem_iff, ← List.mem_append, ← List.append_assoc,
      List.mem_append] at hx
    rcases hx with hx | hx
    · exact ha.1 x hx
    · exact hb.le_of_le htrans hle x hx
  | case4 rank₁ least₁ left₁ right₁ rank₂ least₂ left₂ right₂ hle ih =>
    have hle' : le least₂ least₁ := (htotal least₂ least₁).resolve_right hle
    rw [Heap.merge, if_neg hle]
    apply hb.2.1.join (ih ha hb.2.2)
    intro x hx
    rw [List.mem_append, (toList_merge ..).mem_iff, List.mem_append] at hx
    rcases hx with hx | hx | hx
    · exact hb.1 x (List.mem_append_left _ hx)
    · exact ha.le_of_le htrans hle' x hx
    · exact hb.1 x (List.mem_append_right _ hx)

/-- Pushing keeps the order. -/
theorem Ordered.push (htrans : ∀ x y z, le x y → le y z → le x z) (htotal : ∀ x y, le x y ∨ le y x)
    (h : heap.Ordered le) (entry : α) : (heap.push le entry).Ordered le :=
  h.merge htrans htotal ⟨by simp [toList], trivial, trivial⟩

/-- What is popped comes before all other entries, and popping keeps the order. -/
theorem Ordered.pop (htrans : ∀ x y z, le x y → le y z → le x z) (htotal : ∀ x y, le x y ∨ le y x)
    (h : heap.Ordered le) (hpop : heap.pop? le = some (least, rest)) :
    (∀ entry ∈ rest.toList, le least entry) ∧ rest.Ordered le := by
  cases heap with
  | empty => cases hpop
  | node rank first left right =>
    simp only [pop?, Option.some.injEq, Prod.mk.injEq] at hpop
    obtain ⟨rfl, rfl⟩ := hpop
    exact ⟨fun entry hentry => h.1 entry ((toList_merge ..).mem_iff.mp hentry),
      h.2.1.merge htrans htotal h.2.2⟩

end Heap

namespace Tentative

variable {t u : Tentative}

/-- Entries are ordered by distance, and entries of one distance by vertex. -/
theorem le_iff : t.le u ↔ t.distance < u.distance ∨ t.distance = u.distance ∧ t.vertex ≤ u.vertex := by
  simp [le]

/-- The order is transitive. -/
theorem le_trans (t u v : Tentative) (h : t.le u) (h' : u.le v) : t.le v := by
  rw [le_iff] at *
  omega

/-- Of two entries one comes first. -/
theorem le_total (t u : Tentative) : t.le u ∨ u.le t := by
  rw [le_iff, le_iff]
  omega

/-- An entry that comes first is not longer. -/
theorem distance_le (h : t.le u) : t.distance ≤ u.distance := by
  rw [le_iff] at h
  omega

end Tentative

end GraphKernels
