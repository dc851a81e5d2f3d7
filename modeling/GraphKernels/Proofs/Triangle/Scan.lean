import GraphKernels.Proofs.Run
import GraphKernels.Triangle.Count

/-!
# Scanning ascending lists

In a list that ascends strictly, taking entries as long as they are below a bound takes all of them, and
a cursor that only moves forwards meets every entry that is looked up in ascending order.
-/

namespace GraphKernels

variable {list entries : List Nat} {u w x : Nat}

/-- Taking entries while they are below a bound takes all that are. -/
theorem takeWhile_eq_filter (h : list.Pairwise (· < ·)) (u : Nat) :
    list.takeWhile (· < u) = list.filter (· < u) := by
  induction list with
  | nil => rfl
  | cons a rest ih =>
    rw [List.pairwise_cons] at h
    by_cases ha : a < u
    · rw [List.takeWhile_cons_of_pos (by simpa using ha), List.filter_cons_of_pos (by simpa using ha),
        ih h.2]
    · rw [List.takeWhile_cons_of_neg (by simpa using ha), List.filter_cons_of_neg (by simpa using ha),
        eq_comm, List.filter_eq_nil_iff]
      intro x hx
      have := h.1 x hx
      simp only [decide_eq_true_eq]
      omega

/-- Moving a cursor up to a bound passes over the entries below it and no others. -/
theorem mem_dropWhile_iff (h : list.Pairwise (· < ·)) :
    x ∈ list.dropWhile (· < w) ↔ x ∈ list ∧ w ≤ x := by
  induction list with
  | nil => simp
  | cons a rest ih =>
    rw [List.pairwise_cons] at h
    by_cases ha : a < w
    · rw [List.dropWhile_cons_of_pos (by simpa using ha), ih h.2, List.mem_cons]
      constructor
      · intro ⟨hx, hle⟩
        exact ⟨Or.inr hx, hle⟩
      · intro ⟨hx, hle⟩
        exact ⟨hx.resolve_left (by omega), hle⟩
    · rw [List.dropWhile_cons_of_neg (by simpa using ha), iff_self_and]
      intro hx
      rcases List.mem_cons.mp hx with rfl | hx
      · omega
      · have := h.1 x hx
        omega

/-- The cursor stands at an entry that is looked up exactly when the list has it. -/
theorem head?_dropWhile_iff (h : list.Pairwise (· < ·)) :
    (list.dropWhile (· < w)).head? = some w ↔ w ∈ list := by
  have hsorted : (list.dropWhile (· < w)).Pairwise (· < ·) := h.sublist (List.dropWhile_sublist _)
  constructor
  · intro hhead
    exact ((mem_dropWhile_iff h).mp (List.mem_of_mem_head? hhead)).1
  · intro hw
    have hmem := (mem_dropWhile_iff (w := w) h).mpr ⟨hw, Nat.le_refl w⟩
    cases hrest : list.dropWhile (· < w) with
    | nil => simp [hrest] at hmem
    | cons a rest =>
      rw [hrest] at hmem hsorted
      have ha : w ≤ a := ((mem_dropWhile_iff h).mp (hrest ▸ List.mem_cons_self)).2
      rcases List.mem_cons.mp hmem with rfl | hmem
      · rfl
      · have := (List.pairwise_cons.mp hsorted).1 w hmem
        omega

/-- The forward scan counts the entries that occur in the list. -/
theorem countCommonForward_eq (hentries : entries.Pairwise (· < ·)) (h : list.Pairwise (· < ·)) :
    countCommonForward entries list = entries.countP (· ∈ list) := by
  induction entries generalizing list with
  | nil => rfl
  | cons w rest ih =>
    rw [List.pairwise_cons] at hentries
    -- Later entries are larger, so the ones that the cursor has passed over are not missed.
    have hlater : rest.countP (· ∈ list.dropWhile (· < w)) = rest.countP (· ∈ list) := by
      apply List.countP_congr
      intro x hx
      have := hentries.1 x hx
      rw [decide_eq_true_eq, decide_eq_true_eq, mem_dropWhile_iff h]
      exact and_iff_left (by omega)
    rw [countCommonForward, ih hentries.2 (h.sublist (List.dropWhile_sublist _)), hlater, List.countP_cons,
      Nat.add_comm]
    simp only [head?_dropWhile_iff h, decide_eq_true_eq]

end GraphKernels
