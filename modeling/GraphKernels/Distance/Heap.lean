/-!
# Leftist heaps

A heap gives its least entry first. Of the two subheaps of an entry the right one has the shorter
right spine, and merging goes down right spines only, so it is quick.
-/

namespace GraphKernels

variable {α : Type}

/-- A tree of entries that stores how long its right spine is. -/
inductive Heap (α : Type)
  | empty
  | node (rank : Nat) (least : α) (left right : Heap α)
deriving Repr

namespace Heap

/-- The length of the right spine. -/
def rank : Heap α → Nat
  | empty => 0
  | node rank _ _ _ => rank

/-- The number of entries. -/
def size : Heap α → Nat
  | empty => 0
  | node _ _ left right => left.size + right.size + 1

/-- The entries in no particular order. -/
def toList : Heap α → List α
  | empty => []
  | node _ least left right => least :: (left.toList ++ right.toList)

/-- Put an entry above two heaps, the one with the shorter spine to the right. -/
def join (least : α) (a b : Heap α) : Heap α :=
  if b.rank ≤ a.rank then node (b.rank + 1) least a b else node (a.rank + 1) least b a

/-- The entries of two heaps. -/
def merge (le : α → α → Bool) : Heap α → Heap α → Heap α
  | empty, b => b
  | a, empty => a
  | node rank₁ least₁ left₁ right₁, node rank₂ least₂ left₂ right₂ =>
    if le least₁ least₂ then
      join least₁ left₁ (merge le right₁ (node rank₂ least₂ left₂ right₂))
    else
      join least₂ left₂ (merge le (node rank₁ least₁ left₁ right₁) right₂)
termination_by a b => a.size + b.size
decreasing_by all_goals simp only [size]; omega

/-- A heap with one more entry. -/
def push (le : α → α → Bool) (heap : Heap α) (a : α) : Heap α :=
  merge le heap (node 1 a empty empty)

/-- The least entry and the heap without it. -/
def pop? (le : α → α → Bool) : Heap α → Option (α × Heap α)
  | empty => none
  | node _ least left right => some (least, merge le left right)

/-- As many entries as the list has. -/
theorem length_toList (heap : Heap α) : heap.toList.length = heap.size := by
  induction heap with
  | empty => rfl
  | node rank least left right hl hr => simp [toList, size, hl, hr]

/-- Joining keeps the entries. -/
theorem toList_join (least : α) (a b : Heap α) :
    (join least a b).toList.Perm (least :: (a.toList ++ b.toList)) := by
  unfold join
  split
  · exact .rfl
  · exact List.Perm.cons least List.perm_append_comm

/-- Merging keeps the entries. -/
theorem toList_merge (le : α → α → Bool) (a b : Heap α) :
    (merge le a b).toList.Perm (a.toList ++ b.toList) := by
  fun_induction merge le a b with
  | case1 b => simp [toList]
  | case2 a => simp [toList]
  | case3 rank₁ least₁ left₁ right₁ rank₂ least₂ left₂ right₂ _ ih =>
    refine (toList_join ..).trans (.trans (.cons least₁ (.append_left left₁.toList ih)) ?_)
    simp [toList]
  | case4 rank₁ least₁ left₁ right₁ rank₂ least₂ left₂ right₂ _ ih =>
    refine (toList_join ..).trans (.trans (.cons least₂ (.append_left left₂.toList ih)) ?_)
    exact (List.perm_append_comm_assoc ..).cons least₂ |>.trans List.perm_middle.symm

/-- A pushed entry is added to the others. -/
theorem toList_push (le : α → α → Bool) (heap : Heap α) (a : α) :
    (heap.push le a).toList.Perm (a :: heap.toList) := by
  refine (toList_merge ..).trans ?_
  simp [toList]

/-- A popped entry is taken from the others. -/
theorem toList_pop {le : α → α → Bool} {heap rest : Heap α} {least : α}
    (h : heap.pop? le = some (least, rest)) : heap.toList.Perm (least :: rest.toList) := by
  cases heap with
  | empty => cases h
  | node rank first left right =>
    simp only [pop?, Option.some.injEq, Prod.mk.injEq] at h
    obtain ⟨rfl, rfl⟩ := h
    exact (toList_merge ..).symm.cons first

end Heap

end GraphKernels
