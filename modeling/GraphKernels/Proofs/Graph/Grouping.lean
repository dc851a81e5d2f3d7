import GraphKernels.Graph.Grouping
import GraphKernels.Proofs.Graph.EdgeRows

/-!
# Grouped edges are rows of edges

Edges from smaller sources come first, and their number is where the row of a vertex starts. While edges are being
placed, the cursor of a vertex stands behind those of its edges that have been through, and it never leaves the row:
what is placed for one vertex is not overwritten for another. So counting, summing and placing end without a
fault, in the rows that hold the edges of each vertex in the order in which they come.
-/

namespace GraphKernels.Rows

variable {n u k : Nat} {edges seen rest : List Edge} {e : Edge} {counts : Array Nat} {p : Placing}

/-! ### Where rows start -/

/-- The number of edges from sources before a vertex. -/
def startOf (edges : List Edge) (u : Nat) : Nat := ((List.range u).flatMap (arcsFrom · edges)).length

/-- A row ends where the next one starts. -/
theorem startOf_succ (edges : List Edge) (u : Nat) :
    startOf edges (u + 1) = startOf edges u + (arcsFrom u edges).length := by
  rw [startOf, List.range_succ, List.flatMap_append, List.length_append, List.flatMap_singleton, startOf]

/-- Rows start in the order of their vertices. -/
theorem startOf_mono (edges : List Edge) : Monotone (startOf edges) :=
  monotone_nat_of_le_succ fun u => startOf_succ edges u ▸ Nat.le_add_right _ _

/-- There are as many arcs as edges. -/
theorem startOf_eq_length (hlt : ∀ e ∈ edges, e.source < n) : startOf edges n = edges.length := by
  have hperm := sortedBy_perm Edge.source edges
  rw [← flatMap_filter_key hlt] at hperm
  rw [← hperm.length_eq, startOf, List.length_flatMap, List.length_flatMap]
  simp only [arcsFrom, List.length_map]

/-- The arcs of a vertex lie among as many places as there are edges. -/
theorem position_lt (hlt : ∀ e ∈ edges, e.source < n) (hu : u < n) {i : Nat} (hi : i < (arcsFrom u edges).length) :
    startOf edges u + i < edges.length := by
  have hstop : startOf edges (u + 1) ≤ startOf edges n := startOf_mono edges hu
  rw [startOf_succ, startOf_eq_length hlt] at hstop
  omega

/-- The places of different vertices are different. -/
theorem position_ne {v i j : Nat} (hne : u ≠ v) (hi : i < (arcsFrom u edges).length)
    (hj : j < (arcsFrom v edges).length) : startOf edges u + i ≠ startOf edges v + j := by
  have hu := startOf_succ edges u
  have hv := startOf_succ edges v
  rcases Nat.lt_or_gt_of_ne hne with hbefore | hbehind
  · have hle : startOf edges (u + 1) ≤ startOf edges v := startOf_mono edges hbefore
    omega
  · have hle : startOf edges (v + 1) ≤ startOf edges u := startOf_mono edges hbehind
    omega

/-- The offsets of the rows are where they start. -/
theorem offsets_ofEdges (hu : u ≤ n) : (ofEdges n edges false).offsets.getD u 0 = startOf edges u := by
  have hlength : u ≤ ((List.range n).map (arcsFrom · edges)).length := by simpa using hu
  simp only [ofEdges, distribute_edges]
  rw [if_neg Bool.false_ne_true, offsets_ofLists _ hlength, startOf, ← List.map_take, List.take_range,
    Nat.min_eq_left hu, List.flatMap]

/-- One more edge gives its source one more arc, behind all others. -/
theorem arcsFrom_concat (u : Nat) (seen : List Edge) (e : Edge) :
    arcsFrom u (seen ++ [e]) = if e.source = u then arcsFrom u seen ++ [e.arc] else arcsFrom u seen := by
  rw [arcsFrom_append]
  by_cases hsource : e.source = u
  · rw [if_pos hsource, arcsFrom, arcsFrom, List.filter_cons_of_pos (by simpa using hsource)]
    rfl
  · rw [if_neg hsource, arcsFrom, arcsFrom, List.filter_cons_of_neg (by simpa using hsource)]
    exact List.append_nil _

/-! ### Offsets -/

/-- The edges of every source are counted. -/
theorem countEdges_yields (hlt : ∀ e ∈ edges, e.source < n) :
    Yields (edges.foldlM countEdge (Array.replicate (n + 1) 0)) fun counts => counts.size = n + 1 ∧
      counts.getD 0 0 = 0 ∧ ∀ u < n, counts.getD (u + 1) 0 = (arcsFrom u edges).length := by
  apply Yields.foldlM fun (seen : List Edge) (counts : Array Nat) => counts.size = n + 1 ∧
    counts.getD 0 0 = 0 ∧ ∀ u < n, counts.getD (u + 1) 0 = (arcsFrom u seen).length
  · refine ⟨Array.size_replicate, by simp, fun u hu => ?_⟩
    simp [arcsFrom, Array.getD, hu]
  · intro seen e rest counts hedges hcounted
    obtain ⟨hsize, hfirst, hcounts⟩ := hcounted
    have he : e.source < n := hlt e (by simp [hedges])
    have hinside : e.source + 1 < counts.size := by omega
    rw [countEdge, readAt_eq_getD 0 hinside, ok_bind, writeAt_eq_setIfInBounds _ hinside, Yields.ok_iff]
    refine ⟨Array.size_setIfInBounds.trans hsize, ?_, fun u hu => ?_⟩
    · rw [getD_setIfInBounds_of_ne (Nat.succ_ne_zero _).symm, hfirst]
    · rw [arcsFrom_concat]
      by_cases hsource : e.source = u
      · rw [if_pos hsource, hsource, getD_setIfInBounds_self (hsource ▸ hinside), hcounts u hu,
          List.length_append, List.length_singleton]
      · rw [if_neg hsource, getD_setIfInBounds_of_ne (by omega), hcounts u hu]

/-- Summed up to some vertex, the counts are the offsets up to there, and the counts behind it are untouched. -/
theorem addToNext_yields (hsize : counts.size = n + 1) (hfirst : counts.getD 0 0 = 0)
    (hcounts : ∀ u < n, counts.getD (u + 1) 0 = (arcsFrom u edges).length) (hk : k ≤ n) :
    Yields ((List.range k).foldlM addToNext counts) fun sums => sums.size = n + 1 ∧
      (∀ u ≤ k, sums.getD u 0 = startOf edges u) ∧ ∀ u, k < u → sums.getD u 0 = counts.getD u 0 := by
  induction k with
  | zero =>
    refine .ok ⟨hsize, fun u hu => ?_, fun _ _ => rfl⟩
    rw [Nat.eq_zero_of_le_zero hu, hfirst]
    rfl
  | succ k ih =>
    rw [foldlM_range_succ]
    apply (ih (Nat.le_of_succ_le hk)).bind
    intro sums hsummed
    obtain ⟨hsums, hstarts, hrest⟩ := hsummed
    have hinside : k + 1 < sums.size := by omega
    rw [addToNext, readAt_eq_getD 0 hinside, ok_bind, readAt_eq_getD 0 (Nat.lt_of_succ_lt hinside), ok_bind,
      writeAt_eq_setIfInBounds _ hinside, Yields.ok_iff]
    refine ⟨Array.size_setIfInBounds.trans hsums, fun u hu => ?_, fun u hu => ?_⟩
    · by_cases hlast : u = k + 1
      · rw [hlast, getD_setIfInBounds_self hinside, hrest _ (Nat.lt_succ_self k), hcounts k hk,
          hstarts k (Nat.le_refl k), startOf_succ, Nat.add_comm]
      · rw [getD_setIfInBounds_of_ne hlast, hstarts u (by omega)]
    · rw [getD_setIfInBounds_of_ne (by omega), hrest u (by omega)]

/-! ### Placing -/

/-- Behind the earlier edges of its source there is a place for an edge. -/
theorem length_seen_lt (hedges : edges = seen ++ e :: rest) :
    (arcsFrom e.source seen).length < (arcsFrom e.source edges).length := by
  have hrow : arcsFrom e.source edges = arcsFrom e.source (seen ++ [e]) ++ arcsFrom e.source rest := by
    rw [← arcsFrom_append, List.append_assoc, List.singleton_append, hedges]
  rw [hrow, arcsFrom_concat, if_pos rfl, List.length_append, List.length_append, List.length_singleton]
  omega

/-- The arcs of some first edges have been placed: what is stored of them lies in their rows, in the order of the
edges. -/
structure Stores {β : Type} (value : Arc → β) (n : Nat) (edges seen : List Edge) (cells : Array β) : Prop where
  size_eq : cells.size = edges.length
  entry_eq : ∀ u < n, ∀ i a, (arcsFrom u seen)[i]? = some a → cells[startOf edges u + i]? = some (value a)

namespace Stores

variable {β : Type} {value : Arc → β} {cells : Array β}

/-- The next edge is put behind the earlier ones of its source, where no other row has a place. -/
theorem write (h : Stores value n edges seen cells) (hedges : edges = seen ++ e :: rest)
    (hlt : ∀ e ∈ edges, e.source < n) :
    Stores value n edges (seen ++ [e])
      (cells.setIfInBounds (startOf edges e.source + (arcsFrom e.source seen).length) (value e.arc)) := by
  have hslot := length_seen_lt hedges
  refine ⟨Array.size_setIfInBounds.trans h.size_eq, fun u hu i a ha => ?_⟩
  rw [arcsFrom_concat] at ha
  by_cases hsource : e.source = u
  · subst hsource
    rw [if_pos rfl] at ha
    by_cases hlast : i = (arcsFrom e.source seen).length
    · have hinside := h.size_eq.symm ▸ position_lt hlt hu hslot
      rw [hlast, List.getElem?_concat_length] at ha
      rw [hlast, Array.getElem?_setIfInBounds_self_of_lt hinside, ← Option.some.inj ha]
    · have hi := (List.getElem?_eq_some_iff.mp ha).1
      rw [List.length_append, List.length_singleton] at hi
      rw [List.getElem?_append_left (by omega)] at ha
      rw [Array.getElem?_setIfInBounds_ne (by omega)]
      exact h.entry_eq _ hu i a ha
  · rw [if_neg hsource] at ha
    have hi : i < (arcsFrom u edges).length := by
      have hseen := (List.getElem?_eq_some_iff.mp ha).1
      rw [hedges, arcsFrom_append, List.length_append]
      omega
    rw [Array.getElem?_setIfInBounds_ne (position_ne hsource hslot hi)]
    exact h.entry_eq u hu i a ha

/-- Once all edges have been through, the rows lie one after the other. -/
theorem eq_map (h : Stores value n edges edges cells) (hlt : ∀ e ∈ edges, e.source < n) :
    cells = (((List.range n).flatMap (arcsFrom · edges)).map value).toArray := by
  have hstretch (u : Nat) (hu : u < n) :
      (cells.extract (startOf edges u) (startOf edges (u + 1))).toList = (arcsFrom u edges).map value := by
    have hstop : startOf edges (u + 1) ≤ cells.size := by
      rw [h.size_eq, ← startOf_eq_length hlt]
      exact startOf_mono edges hu
    have hsucc := startOf_succ edges u
    apply List.ext_getElem?
    intro i
    rw [Array.getElem?_toList, List.getElem?_map]
    cases ha : (arcsFrom u edges)[i]? with
    | none =>
      have := List.getElem?_eq_none_iff.mp ha
      rw [Option.map_none, Array.getElem?_eq_none]
      rw [Array.size_extract]
      omega
    | some a =>
      have := (List.getElem?_eq_some_iff.mp ha).1
      rw [Option.map_some, ← h.entry_eq u hu i a ha, Array.getElem?_extract, if_pos (by omega)]
  apply Array.toList_inj.mp
  have hall := flatMap_extract_toList cells (startOf edges) (n := n) rfl fun u _ =>
    startOf_mono edges (Nat.le_succ u)
  rw [startOf_eq_length hlt, ← h.size_eq, Array.extract_size] at hall
  rw [← hall, List.map_flatMap]
  exact List.flatMap_congr fun u hu => hstretch u (List.mem_range.mp hu)

end Stores

/-- Some first edges have been placed, and the cursor of every vertex stands behind those that start there. -/
structure Placing.Holds (n : Nat) (edges seen : List Edge) (p : Placing) : Prop where
  cursors_size : p.cursors.size = n + 1
  cursor_eq : ∀ u < n, p.cursors.getD u 0 = startOf edges u + (arcsFrom u seen).length
  targets : Stores Arc.target n edges seen p.targets
  weights : Stores Arc.weight n edges seen p.weights

/-- One more edge is placed. -/
theorem Placing.Holds.place_yields (h : p.Holds n edges seen) (hedges : edges = seen ++ e :: rest)
    (hlt : ∀ e ∈ edges, e.source < n) : Yields (p.place e) (Placing.Holds n edges (seen ++ [e])) := by
  have he : e.source < n := hlt e (by simp [hedges])
  have hcursor : e.source < p.cursors.size := by rw [h.cursors_size]; omega
  have hinside := position_lt hlt he (length_seen_lt hedges)
  rw [place, readAt_eq_getD 0 hcursor, ok_bind, h.cursor_eq _ he,
    writeAt_eq_setIfInBounds _ (h.targets.size_eq.symm ▸ hinside), ok_bind,
    writeAt_eq_setIfInBounds _ (h.weights.size_eq.symm ▸ hinside), ok_bind,
    writeAt_eq_setIfInBounds _ hcursor, ok_bind, Yields.pure_iff]
  exact {
    cursors_size := Array.size_setIfInBounds.trans h.cursors_size
    cursor_eq := fun u hu => by
      rw [arcsFrom_concat]
      by_cases hsource : e.source = u
      · subst hsource
        rw [if_pos rfl, getD_setIfInBounds_self hcursor, List.length_append, List.length_singleton, Nat.add_assoc]
      · rw [if_neg hsource, getD_setIfInBounds_of_ne (Ne.symm hsource), h.cursor_eq u hu]
    targets := h.targets.write hedges hlt
    weights := h.weights.write hedges hlt }

/-- Before any edge is placed, every cursor stands where its row starts. -/
theorem Placing.holds_start {offsets : Array Nat} (hsize : offsets.size = n + 1)
    (hstarts : ∀ u ≤ n, offsets.getD u 0 = startOf edges u) :
    Placing.Holds n edges []
      { cursors := offsets
        targets := Array.replicate edges.length 0
        weights := Array.replicate edges.length 0 } where
  cursors_size := hsize
  cursor_eq u hu := hstarts u (Nat.le_of_lt hu)
  targets := ⟨Array.size_replicate, fun _ _ _ _ ha => by simp [arcsFrom] at ha⟩
  weights := ⟨Array.size_replicate, fun _ _ _ _ ha => by simp [arcsFrom] at ha⟩

/-! ### Rows -/

/-- Grouping edges from vertices ends in their rows. -/
theorem group_eq (hlt : ∀ e ∈ edges, e.source < n) : group n edges = .ok (ofEdges n edges false) := by
  obtain ⟨counts, hcounts, hcountsSize, hfirst, hrest⟩ := countEdges_yields hlt
  obtain ⟨offsets, hoffsets, hsize, hstarts, -⟩ := addToNext_yields hcountsSize hfirst hrest (Nat.le_refl n)
  obtain ⟨placed, hplaced, hholds⟩ := Yields.foldlM (Placing.Holds n edges) (Placing.holds_start hsize hstarts)
    fun seen e rest p hedges hp => hp.place_yields hedges hlt
  have hgrouped : ofEdges n edges false = ofLists ((List.range n).map (arcsFrom · edges)) := by
    simp only [ofEdges, distribute_edges]
    rfl
  have hsame : offsets = (ofEdges n edges false).offsets := by
    have hsize' : (ofEdges n edges false).offsets.size = n + 1 := by simp [hgrouped, ofLists]
    apply eq_of_getElem?_eq hsize hsize'
    intro u hu
    rw [getElem?_eq_getD 0 (by omega), getElem?_eq_getD 0 (by omega), hstarts u (by omega),
      offsets_ofEdges (by omega)]
  rw [group, hcounts, ok_bind, hoffsets, ok_bind, hplaced, ok_bind, hsame, hholds.targets.eq_map hlt,
    hholds.weights.eq_map hlt, hgrouped]
  rfl

/-- Squishing reads every row and squishes it. -/
theorem squish_eq (htargets : ∀ e ∈ edges, e.target < n) :
    (ofEdges n edges false).squish = .ok (ofEdges n edges true) := by
  have hrows : (ofEdges n edges false).Compressed n := compressed_ofEdges false htargets
  have harcs : (List.range n).mapM (ofEdges n edges false).arcs =
      .ok ((List.range n).map (arcsFrom · edges)) :=
    mapM_eq_map fun u hu => by
      rw [hrows.arcs_eq (List.mem_range.mp hu), row_grouped edges (List.mem_range.mp hu)]
  rw [squish, hrows.count_eq, harcs, ok_bind]
  simp only [ofEdges, distribute_edges]
  rfl

/-- Assembling edges between vertices ends in their rows, squished or as they come. -/
theorem assemble_eq (hlt : ∀ e ∈ edges, e.source < n ∧ e.target < n) (squished : Bool) :
    assemble n edges squished = .ok (ofEdges n edges squished) := by
  rw [assemble, group_eq fun e he => (hlt e he).1, ok_bind]
  cases squished with
  | false => rfl
  | true => exact squish_eq fun e he => (hlt e he).2

/-- Turning compressed rows around ends in the transposed rows. -/
theorem Compressed.turn_eq {r : Rows} (h : r.Compressed n) : r.turn = .ok r.transpose := by
  have hflipped : (List.range n).mapM r.flippedArcs =
      .ok ((List.range n).map fun u => (r.row u).map fun a => (a.edgeFrom u).flip) :=
    mapM_eq_map fun u hu => by
      rw [flippedArcs, h.arcs_eq (List.mem_range.mp hu)]
      rfl
  have hedges : ((List.range n).map fun u => (r.row u).map fun a => (a.edgeFrom u).flip).flatten =
      r.edges.map Edge.flip := by
    rw [edges, h.count_eq, List.map_flatMap, List.flatMap_def]
    simp only [List.map_map]
    rfl
  rw [turn, h.count_eq, hflipped, ok_bind, hedges, assemble_eq h.flipped_lt, Rows.transpose, h.count_eq]

end GraphKernels.Rows
