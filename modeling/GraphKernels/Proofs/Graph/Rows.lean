import GraphKernels.Graph.Rows
import GraphKernels.Proofs.Run

/-!
# Rows in compressed form

What the three arrays of some rows have to satisfy, and what reading a vertex gives once they do: every
read of the row of a vertex is a view of one list of arcs. Rows that are made from lists are compressed
and hold the lists that they are made from.
-/

namespace GraphKernels

/-- Adding up from the front gives the sum. -/
theorem total_eq_sum (terms : List Nat) : total terms = terms.sum := List.sum_eq_foldl.symm

/-- A running sum is the start and the sum of a leading part. -/
theorem runningSums_getElem? (start : Nat) (terms : List Nat) {i : Nat} (hi : i ≤ terms.length) :
    (runningSums start terms)[i]? = some (start + (terms.take i).sum) := by
  induction terms generalizing start i with
  | nil =>
    have hzero : i = 0 := by simpa using hi
    subst hzero
    rfl
  | cons x rest ih =>
    cases i with
    | zero => rfl
    | succ i =>
      rw [runningSums, List.getElem?_cons_succ, ih (start + x) (by simpa using hi), List.take_succ_cons,
        List.sum_cons, Nat.add_assoc]

/-- A list of running sums starts with its start. -/
theorem runningSums_eq_cons (start : Nat) (terms : List Nat) :
    runningSums start terms = start :: (runningSums start terms).tail := by
  cases terms <;> rfl

/-- One more term gives one more sum. -/
theorem runningSums_concat (start x : Nat) (terms : List Nat) :
    runningSums start (terms ++ [x]) = runningSums start terms ++ [start + (terms ++ [x]).sum] := by
  induction terms generalizing start with
  | nil => simp [runningSums]
  | cons y rest ih => simp [runningSums, ih, Nat.add_assoc]

/-- Sums of positive terms ascend strictly. -/
theorem runningSums_pairwise (start : Nat) {terms : List Nat} (h : ∀ x ∈ terms, 0 < x) :
    (runningSums start terms).Pairwise (· < ·) := by
  have hle (start : Nat) (terms : List Nat) : ∀ y ∈ runningSums start terms, start ≤ y := by
    induction terms generalizing start with
    | nil => simp [runningSums]
    | cons x rest ih =>
      intro y hy
      rcases List.mem_cons.mp hy with rfl | hy
      · exact Nat.le_refl _
      · exact Nat.le_trans (Nat.le_add_right start x) (ih (start + x) y hy)
  induction terms generalizing start with
  | nil => exact List.pairwise_singleton _ _
  | cons x rest ih =>
    have hx := h x List.mem_cons_self
    refine List.pairwise_cons.mpr ⟨fun y hy => ?_, ih _ fun z hz => h z (List.mem_cons_of_mem x hz)⟩
    have := hle (start + x) rest y hy
    omega

/-- The stretches between ascending positions, one after the other, are all that comes before the last
position. -/
theorem flatMap_extract_toList {α : Type} (cells : Array α) (bound : Nat → Nat) {n : Nat} (hstart : bound 0 = 0)
    (hascends : ∀ u < n, bound u ≤ bound (u + 1)) :
    (List.range n).flatMap (fun u => (cells.extract (bound u) (bound (u + 1))).toList) =
      (cells.extract 0 (bound n)).toList := by
  induction n with
  | zero => simp [hstart]
  | succ n ih =>
    rw [List.range_succ, List.flatMap_append, ih fun u hu => hascends u (by omega), List.flatMap_singleton,
      ← Array.toList_append, Array.extract_append_extract, Nat.min_eq_left (Nat.zero_le _),
      Nat.max_eq_right (hascends n (Nat.lt_succ_self n))]

namespace Rows

/-- The targets that a vertex lists, none for a vertex that has no row. -/
def rowTargets (r : Rows) (u : Nat) : List Nat := (r.row u).map Arc.target

/-- A vertex lists a target when its row has an arc to it. -/
theorem mem_rowTargets {r : Rows} {u v : Nat} : v ∈ r.rowTargets u ↔ ∃ w, ⟨v, w⟩ ∈ r.row u := by
  rw [rowTargets, List.mem_map]
  constructor
  · intro h
    obtain ⟨a, ha, rfl⟩ := h
    exact ⟨a.weight, ha⟩
  · intro h
    obtain ⟨w, ha⟩ := h
    exact ⟨_, ha, rfl⟩

/-- Rows of `n` vertices in compressed form: the offsets ascend from zero to the number of arcs, there
are as many weights as targets, and every target is a vertex. -/
structure Compressed (r : Rows) (n : Nat) : Prop where
  offsets_size : r.offsets.size = n + 1
  starts : r.offsets.getD 0 0 = 0
  ascends : ∀ u < n, r.offsets.getD u 0 ≤ r.offsets.getD (u + 1) 0
  ends : r.offsets.getD n 0 = r.targets.size
  weights_size : r.weights.size = r.targets.size
  target_lt : ∀ v ∈ r.targets, v < n

namespace Compressed

variable {r : Rows} {n u : Nat}

/-- There is one row for each vertex. -/
theorem count_eq (h : r.Compressed n) : r.count = n := by
  rw [count, h.offsets_size, Nat.add_sub_cancel]

/-- Offsets never descend. -/
theorem offsets_mono (h : r.Compressed n) {v : Nat} (huv : u ≤ v) (hv : v ≤ n) :
    r.offsets.getD u 0 ≤ r.offsets.getD v 0 := by
  induction v, huv using Nat.le_induction with
  | base => exact Nat.le_refl _
  | succ v _ ih => exact Nat.le_trans (ih (by omega)) (h.ascends v (by omega))

/-- No row reaches past the last arc. -/
theorem offset_le_size (h : r.Compressed n) (hu : u ≤ n) : r.offsets.getD u 0 ≤ r.targets.size :=
  h.ends ▸ h.offsets_mono hu (Nat.le_refl n)

/-- Every vertex has a row. -/
theorem span_eq (h : r.Compressed n) (hu : u < n) :
    r.span u = .ok (r.offsets.getD u 0, r.offsets.getD (u + 1) 0) := by
  have hsize := h.offsets_size
  have hstart : u < r.offsets.size := by omega
  have hstop : u + 1 < r.offsets.size := by omega
  simp [span, readAt_of_lt hstart, readAt_of_lt hstop, pure, Except.pure, hstart, hstop]

/-- The targets of a row are the stretch of all targets between its offsets. -/
theorem rowTargets_eq (h : r.Compressed n) (u : Nat) :
    r.rowTargets u =
      (r.targets.extract (r.offsets.getD u 0) (r.offsets.getD (u + 1) 0)).toList := by
  have hzip (targets : List Nat) (weights : List UInt32) :
      (List.zipWith Arc.mk targets weights).map Arc.target = (targets.zip weights).map Prod.fst := by
    rw [List.zip, List.map_zipWith, List.map_zipWith]
  rw [rowTargets, row, hzip, List.map_fst_zip]
  simp [h.weights_size]

/-- The weights of a row are the stretch of all weights between its offsets. -/
theorem rowWeights_eq (h : r.Compressed n) (u : Nat) :
    (r.row u).map Arc.weight =
      (r.weights.extract (r.offsets.getD u 0) (r.offsets.getD (u + 1) 0)).toList := by
  have hzip (targets : List Nat) (weights : List UInt32) :
      (List.zipWith Arc.mk targets weights).map Arc.weight = (targets.zip weights).map Prod.snd := by
    rw [List.zip, List.map_zipWith, List.map_zipWith]
  rw [row, hzip, List.map_snd_zip]
  simp [h.weights_size]

/-- The length of a row is the distance between its offsets. -/
theorem row_length (h : r.Compressed n) (hu : u < n) :
    (r.row u).length = r.offsets.getD (u + 1) 0 - r.offsets.getD u 0 := by
  have hstop := h.offset_le_size (show u + 1 ≤ n from hu)
  rw [← List.length_map (f := Arc.target), ← rowTargets, h.rowTargets_eq, Array.length_toList,
    Array.size_extract, Nat.min_eq_left hstop]

/-- Reading the targets of a vertex gives those of its row. -/
theorem neighbors_eq (h : r.Compressed n) (hu : u < n) :
    r.neighbors u = .ok (r.rowTargets u) := by
  rw [neighbors, h.span_eq hu, h.rowTargets_eq]
  exact readSpan_of_le (h.ascends u hu) (h.offset_le_size hu)

/-- Reading the arcs of a vertex gives its row. -/
theorem arcs_eq (h : r.Compressed n) (hu : u < n) : r.arcs u = .ok (r.row u) := by
  have hstop := h.offset_le_size hu
  have htargets := readSpan_of_le (h.ascends u hu) hstop
  have hweights := readSpan_of_le (h.ascends u hu) (h.weights_size ▸ hstop)
  simp only [arcs, h.span_eq hu, ok_bind, htargets, hweights]
  rfl

/-- The degree of a vertex is the length of its row. -/
theorem degree_eq (h : r.Compressed n) (hu : u < n) : r.degree u = .ok (r.row u).length := by
  rw [degree, h.span_eq hu, h.row_length hu]
  rfl

/-- A target given by its place is the one at that place of the row. -/
theorem neighbor?_row (h : r.Compressed n) (hu : u < n) (i : Nat) :
    r.neighbor? u i = .ok (r.rowTargets u)[i]? := by
  rw [neighbor?_eq, h.neighbors_eq hu]
  rfl

/-- Looking for a target whose tests all answer finds the first one of the row with the answer yes. -/
theorem findNeighbor?_row (h : r.Compressed n) (hu : u < n) {test : Nat → Except Fault Bool}
    {answer : Nat → Bool} (htest : ∀ v ∈ r.rowTargets u, test v = .ok (answer v)) :
    r.findNeighbor? u test = .ok ((r.rowTargets u).find? answer) := by
  rw [findNeighbor?_eq, h.neighbors_eq hu]
  exact findM?_eq_find? htest

/-- The stretches between the offsets, one after the other, are the whole of an array with an entry for
each arc. -/
theorem flatMap_extract {α : Type} (h : r.Compressed n) {cells : Array α}
    (hsize : cells.size = r.targets.size) :
    (List.range n).flatMap (fun u =>
      (cells.extract (r.offsets.getD u 0) (r.offsets.getD (u + 1) 0)).toList) = cells.toList := by
  rw [flatMap_extract_toList cells (r.offsets.getD · 0) h.starts h.ascends, h.ends, ← hsize,
    Array.extract_size]

/-- The targets of all rows, one after the other, are all targets. -/
theorem flatMap_rowTargets (h : r.Compressed n) :
    (List.range n).flatMap r.rowTargets = r.targets.toList := by
  rw [← h.flatMap_extract rfl]
  exact List.flatMap_congr fun u _ => h.rowTargets_eq u

/-- The weights of all rows, one after the other, are all weights. -/
theorem flatMap_rowWeights (h : r.Compressed n) :
    (List.range n).flatMap (fun u => (r.row u).map Arc.weight) = r.weights.toList := by
  rw [← h.flatMap_extract h.weights_size]
  exact List.flatMap_congr fun u _ => h.rowWeights_eq u

/-- Rows in compressed form are determined by what they list for each vertex. -/
theorem ext_row {s : Rows} (h : r.Compressed n) (h' : s.Compressed n)
    (hrow : ∀ u < n, r.row u = s.row u) : r = s := by
  have hoffset (k : Nat) (hk : k ≤ n) : r.offsets.getD k 0 = s.offsets.getD k 0 := by
    induction k with
    | zero => rw [h.starts, h'.starts]
    | succ k ih =>
      have hlength := h.row_length hk
      rw [hrow k hk, h'.row_length hk] at hlength
      have := h.ascends k hk
      have := h'.ascends k hk
      have := ih (Nat.le_of_succ_le hk)
      omega
  have hoffsets : r.offsets = s.offsets := by
    apply eq_of_getElem?_eq h.offsets_size h'.offsets_size
    intro k hk
    have hsize := h.offsets_size
    have hsize' := h'.offsets_size
    rw [getElem?_eq_getD 0 (by omega), getElem?_eq_getD 0 (by omega), hoffset k (by omega)]
  have htargets : r.targets = s.targets := by
    apply Array.toList_inj.mp
    rw [← h.flatMap_rowTargets, ← h'.flatMap_rowTargets]
    exact List.flatMap_congr fun u hu => by rw [rowTargets, rowTargets, hrow u (List.mem_range.mp hu)]
  have hweights : r.weights = s.weights := by
    apply Array.toList_inj.mp
    rw [← h.flatMap_rowWeights, ← h'.flatMap_rowWeights]
    exact List.flatMap_congr fun u hu => by rw [hrow u (List.mem_range.mp hu)]
  cases r
  cases s
  rw [Rows.mk.injEq]
  exact ⟨hoffsets, htargets, hweights⟩

/-- A row lists vertices. -/
theorem rowTargets_lt (h : r.Compressed n) {v : Nat} (hv : v ∈ r.rowTargets u) : v < n := by
  apply h.target_lt
  rw [h.rowTargets_eq, Array.mem_toList_iff, Array.mem_extract_iff_getElem] at hv
  obtain ⟨i, _, rfl⟩ := hv
  exact Array.getElem_mem _

/-- Only vertices have targets. -/
theorem lt_of_mem_rowTargets (h : r.Compressed n) {v : Nat} (hv : v ∈ r.rowTargets u) : u < n := by
  by_contra hu
  have hsize := h.offsets_size
  have hstop : r.offsets.getD (u + 1) 0 = 0 := getD_of_size_le (by omega)
  simp [h.rowTargets_eq, hstop] at hv

/-- An arc of a row ends at a vertex. -/
theorem row_target_lt (h : r.Compressed n) {a : Arc} (ha : a ∈ r.row u) : a.target < n :=
  h.rowTargets_lt (List.mem_map_of_mem ha)

end Compressed

end Rows

end GraphKernels
