import GraphKernels.Distance.Stepping
import GraphKernels.Proofs.Run

/-!
# Buckets

Buckets are read by number, and a bucket that is not stored has no vertices. Looking for the first stored
bucket from some number on gives the least one.
-/

namespace GraphKernels.Buckets

variable {b : Buckets} {bucket k v : Nat}

/-- Two numbers are the same for the order of the buckets exactly when they are equal. -/
theorem compare_eq_iff : compare bucket k = .eq ↔ bucket = k := Nat.compare_eq_eq

/-- Adding puts a vertex behind those of its bucket and leaves the other buckets alone. -/
theorem vertices_add : (b.add bucket v).vertices k =
    if bucket = k then (b.vertices bucket).push v else b.vertices k := by
  simp only [vertices, add, Std.TreeMap.getD_alter, compare_eq_iff]
  split
  · rw [Std.TreeMap.getD_eq_getD_getElem?]
    cases b[bucket]? <;> rfl
  · rfl

/-- The vertices of a bucket are those that it had and the one that is added to it. -/
theorem mem_vertices_add {u : Nat} :
    u ∈ (b.add bucket v).vertices k ↔ u ∈ b.vertices k ∨ bucket = k ∧ u = v := by
  rw [vertices_add]
  split
  · next heq => simp [heq, Array.mem_push]
  · next hne => simp [hne]

/-- Adding stores the bucket. -/
theorem mem_add : k ∈ b.add bucket v ↔ bucket = k ∨ k ∈ b := by
  rw [add, Std.TreeMap.mem_alter]
  simp only [compare_eq_iff]
  split
  · next heq =>
    simp only [heq, true_or, iff_true]
    cases b[k]? <;> rfl
  · next hne => simp only [hne, false_or]

/-- An erased bucket has no vertices, and the others are as before. -/
theorem vertices_erase : vertices (b.erase bucket) k = if bucket = k then #[] else b.vertices k := by
  simp only [vertices, Std.TreeMap.getD_erase, compare_eq_iff]

/-- Erasing a bucket leaves the others stored. -/
theorem mem_erase : k ∈ b.erase bucket ↔ bucket ≠ k ∧ k ∈ b := by
  rw [Std.TreeMap.mem_erase, ne_eq, compare_eq_iff]

/-- A stored bucket is the array of its vertices. -/
theorem getElem?_eq (h : k ∈ b) : b[k]? = some (b.vertices k) :=
  Std.TreeMap.getElem?_eq_some_getD h

/-- A bucket that is not stored has no vertices. -/
theorem vertices_of_notMem (h : k ∉ b) : b.vertices k = #[] := Std.TreeMap.getD_eq_fallback h

/-- Only stored buckets have vertices. -/
theorem mem_of_mem_vertices (h : v ∈ b.vertices k) : k ∈ b := by
  refine Decidable.byContradiction fun hk => ?_
  rw [vertices_of_notMem hk] at h
  simp at h

/-- The first stored bucket from some number on is the least one. -/
theorem firstFrom?_eq_some (h : b.firstFrom? bucket = some k) :
    bucket ≤ k ∧ k ∈ b ∧ ∀ j ∈ b, bucket ≤ j → k ≤ j := by
  rw [firstFrom?] at h
  split at h
  · cases h
  · next least hleast =>
    obtain ⟨hmem, hmin⟩ := Std.TreeMap.minKey?_eq_some_iff_mem_and_forall.mp hleast
    split at h
    · next hle =>
      cases h
      exact ⟨hle, hmem, fun j hj _ => Nat.isLE_compare.mp (hmin j hj)⟩
    · -- Stored buckets below the number are passed over in ascending order.
      obtain ⟨hle, before, after, hkeys, hbefore⟩ := List.find?_eq_some_iff_append.mp h
      have hsorted := Std.TreeMap.ordered_keys (t := b)
      rw [hkeys, List.pairwise_append, List.pairwise_cons] at hsorted
      refine ⟨by simpa using hle, Std.TreeMap.mem_keys.mp (hkeys ▸ by simp), fun j hj hjle => ?_⟩
      have hj := Std.TreeMap.mem_keys.mpr hj
      rw [hkeys, List.mem_append, List.mem_cons] at hj
      rcases hj with hj | rfl | hj
      · exact absurd hjle (by simpa using hbefore j hj)
      · exact Nat.le_refl _
      · exact Nat.le_of_lt (Nat.compare_eq_lt.mp (hsorted.2.1.1 j hj))

/-- If there is no first stored bucket from some number on, there is none at all. -/
theorem firstFrom?_eq_none (h : b.firstFrom? bucket = none) (hk : bucket ≤ k) : k ∉ b := by
  intro hmem
  rw [firstFrom?] at h
  split at h
  · next hleast =>
    rw [Std.TreeMap.minKey?_eq_none_iff, Std.TreeMap.isEmpty_iff_forall_not_mem] at hleast
    exact hleast k hmem
  · split at h
    · cases h
    · exact List.find?_eq_none.mp h k (Std.TreeMap.mem_keys.mpr hmem) (by simpa using hk)

end GraphKernels.Buckets
