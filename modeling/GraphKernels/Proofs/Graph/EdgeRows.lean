import GraphKernels.Proofs.Graph.Rows
import GraphKernels.Proofs.StableSort

/-!
# Rows of edges

Rows that are made from a list of edges are compressed, and the row of a vertex holds the edges that
start there, in order. Squishing keeps the lightest arc to each target other than the vertex itself, and
leaves the targets in strictly ascending order. Transposing flips every arc.
-/

namespace GraphKernels

attribute [ext] Arc

/-- Different edges are flipped differently. -/
theorem Edge.flip_injective : Function.Injective Edge.flip :=
  Function.LeftInverse.injective Edge.flip_flip

namespace Rows

/-- An offset counts the arcs of all earlier rows. -/
theorem offsets_ofLists (rows : List (List Arc)) {i : Nat} (hi : i ≤ rows.length) :
    (ofLists rows).offsets.getD i 0 = (rows.take i).flatten.length := by
  rw [ofLists, Array.getD_eq_getD_getElem?, List.getElem?_toArray,
    runningSums_getElem? 0 _ (by simpa using hi), ← List.map_take, List.length_flatten]
  simp

/-- The row of a vertex, in rows that are listed vertex by vertex. -/
theorem row_ofLists (rows : List (List Arc)) {u : Nat} (hu : u < rows.length) :
    (ofLists rows).row u = rows[u] := by
  have hlead : (rows.take (u + 1)).flatten = (rows.take u).flatten ++ rows[u] := by
    rw [← List.take_append_getElem hu, List.flatten_append, List.flatten_singleton]
  have hsplit : rows.flatten =
      (rows.take u).flatten ++ (rows[u] ++ (rows.drop (u + 1)).flatten) := by
    rw [← List.append_assoc, ← hlead, ← List.flatten_append, List.take_append_drop]
  have hstop : (rows.take (u + 1)).flatten.length = (rows.take u).flatten.length + rows[u].length := by
    rw [hlead, List.length_append]
  have hstretch : (rows.flatten.drop (rows.take u).flatten.length).take rows[u].length = rows[u] := by
    rw [hsplit, List.drop_left, List.take_left]
  rw [row, offsets_ofLists rows (Nat.le_of_lt hu), offsets_ofLists rows hu, hstop]
  simp only [ofLists, Array.toList_extract, List.extract_eq_take_drop, Nat.add_sub_cancel_left,
    ← List.map_drop, ← List.map_take, hstretch, List.zipWith_map, List.zipWith_self]
  exact List.map_id _

/-- Rows that are listed vertex by vertex are compressed. -/
theorem compressed_ofLists (rows : List (List Arc))
    (htargets : ∀ row ∈ rows, ∀ a ∈ row, a.target < rows.length) :
    (ofLists rows).Compressed rows.length where
  offsets_size := by simp [ofLists]
  starts := by cases rows <;> rfl
  ascends u hu := by
    rw [offsets_ofLists rows (Nat.le_of_lt hu), offsets_ofLists rows hu, List.take_add_one,
      List.flatten_append, List.length_append]
    exact Nat.le_add_right _ _
  ends := by
    rw [offsets_ofLists rows (Nat.le_refl _), List.take_length, ofLists, List.size_toArray, List.length_map]
  weights_size := by simp [ofLists, Function.comp_def]
  target_lt v hv := by
    simp only [ofLists, List.mem_toArray, List.mem_map, List.mem_flatten] at hv
    obtain ⟨a, ⟨row, hrow, ha⟩, rfl⟩ := hv
    exact htargets row hrow a ha

end Rows

/-- The arcs that some edges give a vertex, in order. -/
def arcsFrom (u : Nat) (edges : List Edge) : List Arc := (edges.filter (·.source == u)).map Edge.arc

/-- The arcs of a vertex are the edges that start there. -/
theorem mem_arcsFrom {u : Nat} {edges : List Edge} {a : Arc} :
    a ∈ arcsFrom u edges ↔ a.edgeFrom u ∈ edges := by
  simp only [arcsFrom, List.mem_map, List.mem_filter, beq_iff_eq]
  constructor
  · intro h
    obtain ⟨e, ⟨he, rfl⟩, rfl⟩ := h
    exact he
  · intro h
    exact ⟨a.edgeFrom u, ⟨h, rfl⟩, rfl⟩

/-- The arcs of some edges are those of one part and then those of the other. -/
theorem arcsFrom_append (u : Nat) (front back : List Edge) :
    arcsFrom u (front ++ back) = arcsFrom u front ++ arcsFrom u back := by
  rw [arcsFrom, List.filter_append, List.map_append, arcsFrom, arcsFrom]

/-- An arc occurs as often as the edge that gives it. -/
theorem count_arcsFrom (u : Nat) (edges : List Edge) (a : Arc) :
    (arcsFrom u edges).count a = edges.count (a.edgeFrom u) := by
  induction edges with
  | nil => rfl
  | cons e rest ih =>
    have hedge : e.source = u ∧ e.arc = a ↔ e = a.edgeFrom u := by
      constructor
      · intro h
        obtain ⟨rfl, rfl⟩ := h
        rfl
      · intro h
        subst h
        exact ⟨rfl, rfl⟩
    rw [List.count_cons, ← ih, arcsFrom, arcsFrom, List.filter_cons]
    by_cases hsource : e.source = u
    · simp [hsource, List.count_cons, ← hedge]
    · simp [hsource, ← hedge]

/-! ### Squished rows -/

namespace Arc

/-- The order of a sorted row, by target and then by weight. -/
theorem precedes_iff {a b : Arc} :
    a.precedes b = true ↔ a.target < b.target ∨ a.target = b.target ∧ a.weight ≤ b.weight := by
  simp [precedes]

/-- The order of a sorted row is transitive. -/
theorem precedes_trans (a b c : Arc) (hab : a.precedes b = true) (hbc : b.precedes c = true) :
    a.precedes c = true := by
  rw [precedes_iff] at *
  rcases hab with hab | ⟨hab, hwab⟩
  · left; omega
  · rcases hbc with hbc | ⟨hbc, hwbc⟩
    · left; omega
    · exact Or.inr ⟨hab.trans hbc, UInt32.le_trans hwab hwbc⟩

/-- Any two arcs can be put in the order of a sorted row. -/
theorem precedes_total (a b : Arc) : (a.precedes b || b.precedes a) = true := by
  rw [Bool.or_eq_true, precedes_iff, precedes_iff]
  have hweight := UInt32.le_total a.weight b.weight
  rcases Nat.lt_trichotomy a.target b.target with h | h | h
  · exact Or.inl (Or.inl h)
  · exact hweight.imp (fun hw => Or.inr ⟨h, hw⟩) (fun hw => Or.inr ⟨h.symm, hw⟩)
  · exact Or.inr (Or.inl h)

end Arc

/-- Of two leading arcs with one target only the first is kept. -/
theorem firstOfEachTarget_cons_cons (a b : Arc) (rest : List Arc) :
    firstOfEachTarget (a :: b :: rest) =
      if a.target = b.target then firstOfEachTarget (a :: rest)
      else a :: firstOfEachTarget (b :: rest) := by
  have hloop (c : Arc) (row kept : List Arc) :
      List.eraseRepsBy.loop (fun x y : Arc => x.target == y.target) c row kept =
        kept.reverse ++ List.eraseRepsBy.loop (fun x y : Arc => x.target == y.target) c row [] := by
    induction row generalizing c kept with
    | nil => simp [List.eraseRepsBy.loop]
    | cons d row ih =>
      rw [List.eraseRepsBy.loop, List.eraseRepsBy.loop]
      split
      · exact ih c kept
      · rw [ih d (c :: kept), ih d [c]]
        simp
  simp only [firstOfEachTarget, List.eraseRepsBy]
  rw [List.eraseRepsBy.loop]
  by_cases htarget : a.target = b.target
  · simp [htarget]
  · rw [hloop b rest [a]]
    simp [beq_false_of_ne htarget, htarget]

/-- Nothing is kept that was not there. -/
theorem firstOfEachTarget_subset (row : List Arc) : firstOfEachTarget row ⊆ row := by
  cases row with
  | nil => simp [firstOfEachTarget, List.eraseRepsBy]
  | cons a rest =>
    induction rest generalizing a with
    | nil => simp [firstOfEachTarget, List.eraseRepsBy, List.eraseRepsBy.loop]
    | cons b rest ih =>
      rw [firstOfEachTarget_cons_cons]
      split
      · exact List.Subset.trans (ih a) (List.cons_subset_cons a (List.subset_cons_self b rest))
      · exact List.cons_subset_cons a (ih b)

/-- What is kept of a sorted row ascends strictly. -/
theorem firstOfEachTarget_pairwise {row : List Arc}
    (hrow : row.Pairwise fun a b => a.precedes b = true) :
    (firstOfEachTarget row).Pairwise fun a b => a.target < b.target := by
  cases row with
  | nil => simp [firstOfEachTarget, List.eraseRepsBy]
  | cons a rest =>
    induction rest generalizing a with
    | nil => simp [firstOfEachTarget, List.eraseRepsBy, List.eraseRepsBy.loop]
    | cons b rest ih =>
      obtain ⟨hfirst, hrest⟩ := List.pairwise_cons.mp hrow
      rw [firstOfEachTarget_cons_cons]
      split
      · exact ih a (List.pairwise_cons.mpr
          ⟨fun c hc => hfirst c (List.mem_cons_of_mem b hc), (List.pairwise_cons.mp hrest).2⟩)
      · next htarget =>
        refine List.pairwise_cons.mpr ⟨fun c hc => ?_, ih b hrest⟩
        have hab : a.target < b.target :=
          (Arc.precedes_iff.mp (hfirst b (by simp))).resolve_right fun h => htarget h.1
        have hbc : b.target ≤ c.target := by
          rcases List.mem_cons.mp (firstOfEachTarget_subset (b :: rest) hc) with rfl | hmem
          · exact Nat.le_refl _
          · have := Arc.precedes_iff.mp ((List.pairwise_cons.mp hrest).1 c hmem)
            omega
        exact Nat.lt_of_lt_of_le hab hbc

/-- For every arc of a sorted row one to the same target is kept that is no heavier. -/
theorem exists_mem_firstOfEachTarget {row : List Arc}
    (hrow : row.Pairwise fun a b => a.precedes b = true) {a : Arc} (ha : a ∈ row) :
    ∃ b ∈ firstOfEachTarget row, b.target = a.target ∧ b.weight ≤ a.weight := by
  cases row with
  | nil => simp at ha
  | cons first rest =>
    induction rest generalizing first a with
    | nil => exact ⟨a, by simpa [firstOfEachTarget, List.eraseRepsBy, List.eraseRepsBy.loop] using ha,
        rfl, UInt32.le_refl _⟩
    | cons second rest ih =>
      obtain ⟨hfirst, hrest⟩ := List.pairwise_cons.mp hrow
      rw [firstOfEachTarget_cons_cons]
      split
      · next htarget =>
        have hshort : (first :: rest).Pairwise fun a b => a.precedes b = true :=
          List.pairwise_cons.mpr
            ⟨fun c hc => hfirst c (List.mem_cons_of_mem second hc), (List.pairwise_cons.mp hrest).2⟩
        rcases List.mem_cons.mp ha with rfl | ha
        · exact ih a hshort (by simp)
        · rcases List.mem_cons.mp ha with rfl | ha
          · obtain ⟨b, hb, hbtarget, hbweight⟩ := ih first hshort (List.mem_cons_self (a := first))
            have hweight : first.weight ≤ a.weight := by
              rcases Arc.precedes_iff.mp (hfirst a (by simp)) with h | h
              · omega
              · exact h.2
            exact ⟨b, hb, hbtarget.trans htarget, UInt32.le_trans hbweight hweight⟩
          · exact ih first hshort (List.mem_cons_of_mem first ha)
      · rcases List.mem_cons.mp ha with rfl | ha
        · exact ⟨a, by simp, rfl, UInt32.le_refl _⟩
        · obtain ⟨b, hb, hle⟩ := ih second hrest ha
          exact ⟨b, List.mem_cons_of_mem first hb, hle⟩

/-- The arcs that squishing looks at, in the order in which it looks at them. -/
theorem sorted_mergeSort (row : List Arc) :
    (row.mergeSort Arc.precedes).Pairwise fun a b => a.precedes b = true :=
  List.pairwise_mergeSort Arc.precedes_trans Arc.precedes_total row

/-- The targets of a squished row ascend strictly. -/
theorem squishRow_pairwise (u : Nat) (row : List Arc) :
    (squishRow u row).Pairwise fun a b => a.target < b.target :=
  firstOfEachTarget_pairwise (sorted_mergeSort _)

/-- An arc of a strictly ascending row is determined by its target. -/
theorem eq_of_target_eq {row : List Arc} (hrow : row.Pairwise fun a b => a.target < b.target)
    {a b : Arc} (ha : a ∈ row) (hb : b ∈ row) (htarget : a.target = b.target) : a = b := by
  have : Std.Symm fun a b : Arc => a.target ≠ b.target := ⟨fun _ _ => Ne.symm⟩
  by_contra hne
  exact (hrow.imp Nat.ne_of_lt).forall ha hb hne htarget

/-- For every arc to another vertex a squished row has one that is no heavier. -/
theorem exists_mem_squishRow {u : Nat} {row : List Arc} {a : Arc} (ha : a ∈ row)
    (hloop : a.target ≠ u) : ∃ b ∈ squishRow u row, b.target = a.target ∧ b.weight ≤ a.weight :=
  exists_mem_firstOfEachTarget (sorted_mergeSort _) (by simp [ha, hloop])

/-- A squished row keeps arcs to other vertices only. -/
theorem mem_of_mem_squishRow {u : Nat} {row : List Arc} {a : Arc} (ha : a ∈ squishRow u row) :
    a ∈ row ∧ a.target ≠ u := by
  have hmem := firstOfEachTarget_subset _ ha
  simpa using hmem

/-- A squished row keeps, of the arcs to each other vertex, the lightest one. -/
theorem mem_squishRow {u : Nat} {row : List Arc} {a : Arc} :
    a ∈ squishRow u row ↔
      (a ∈ row ∧ a.target ≠ u) ∧ ∀ b ∈ row, b.target = a.target → a.weight ≤ b.weight := by
  constructor
  · intro ha
    refine ⟨mem_of_mem_squishRow ha, fun b hb htarget => ?_⟩
    have hloop : b.target ≠ u := htarget ▸ (mem_of_mem_squishRow ha).2
    obtain ⟨c, hc, hctarget, hcweight⟩ := exists_mem_squishRow hb hloop
    have hsame : a = c := eq_of_target_eq (squishRow_pairwise u row) ha hc (hctarget.trans htarget).symm
    exact hsame ▸ hcweight
  · intro h
    obtain ⟨⟨ha, hloop⟩, hleast⟩ := h
    obtain ⟨b, hb, hbtarget, hbweight⟩ := exists_mem_squishRow ha hloop
    have hweight := hleast b (mem_of_mem_squishRow hb).1 hbtarget
    have hsame : a = b := Arc.ext hbtarget.symm (UInt32.le_antisymm hweight hbweight)
    exact hsame ▸ hb

/-- Squishing a row only looks at which arcs there are. -/
theorem squishRow_congr {u : Nat} {row others : List Arc} (h : ∀ a, a ∈ row ↔ a ∈ others) :
    squishRow u row = squishRow u others := by
  have : Std.Antisymm fun a b : Arc => a.target < b.target :=
    ⟨fun _ _ hlt hgt => absurd hgt (Nat.lt_asymm hlt)⟩
  have : Std.Irrefl fun a b : Arc => a.target < b.target := ⟨fun a => Nat.lt_irrefl a.target⟩
  apply (squishRow_pairwise u row).eq_of_mem_iff (squishRow_pairwise u others)
  intro a
  simp only [mem_squishRow, h]

namespace Rows

/-- The rows that distributing edges over their sources gives. -/
theorem distribute_edges (n : Nat) (edges : List Edge) :
    (distribute n Edge.source edges).toList.map (fun bin => bin.toList.map Edge.arc) =
      (List.range n).map (arcsFrom · edges) := by
  apply List.ext_getElem
  · simp [distribute_size]
  · intro u hu hu'
    have hn : u < n := by simpa using hu'
    have hbin := distribute_getD n Edge.source edges u hn
    simp only [Array.getD_eq_getD_getElem?, Array.getElem?_eq_getElem
      (show u < (distribute n Edge.source edges).size by rwa [distribute_size]), Option.getD_some] at hbin
    simp [arcsFrom, hbin]

/-- The row of a vertex holds the edges that start there, squished or as they come. -/
theorem row_ofEdges {n u : Nat} (edges : List Edge) (squish : Bool) (hu : u < n) :
    (ofEdges n edges squish).row u =
      if squish then squishRow u (arcsFrom u edges) else arcsFrom u edges := by
  simp only [ofEdges, distribute_edges]
  cases squish with
  | true => rw [if_pos rfl, row_ofLists _ (by simpa using hu)]; simp
  | false => rw [if_neg (by simp), row_ofLists _ (by simpa using hu)]; simp

/-- As they come, the edges that start at a vertex are its row. -/
theorem row_grouped {n u : Nat} (edges : List Edge) (hu : u < n) :
    (ofEdges n edges false).row u = arcsFrom u edges := row_ofEdges edges false hu

/-- Squished, the edges that start at a vertex make its row. -/
theorem row_squished {n u : Nat} (edges : List Edge) (hu : u < n) :
    (ofEdges n edges true).row u = squishRow u (arcsFrom u edges) := row_ofEdges edges true hu

/-- The rows of some edges between vertices are compressed. -/
theorem compressed_ofEdges {n : Nat} {edges : List Edge} (squish : Bool)
    (htargets : ∀ e ∈ edges, e.target < n) : (ofEdges n edges squish).Compressed n := by
  have harcs (u : Nat) (a : Arc) (ha : a ∈ arcsFrom u edges) : a.target < n :=
    htargets _ (mem_arcsFrom.mp ha)
  have hrows (rows : List (List Arc)) (hlength : rows.length = n)
      (hrows : ∀ row ∈ rows, ∀ a ∈ row, a.target < n) : (ofLists rows).Compressed n := by
    subst hlength
    exact compressed_ofLists rows hrows
  simp only [ofEdges, distribute_edges]
  cases squish with
  | true =>
    rw [if_pos rfl]
    apply hrows
    · simp
    · intro row hrow a ha
      obtain ⟨u, hu, rfl⟩ := List.mem_mapIdx.mp hrow
      rw [List.getElem_map] at ha
      exact harcs _ a (mem_of_mem_squishRow ha).1
  | false =>
    rw [if_neg (by simp)]
    apply hrows
    · simp
    · intro row hrow a ha
      obtain ⟨u, _, rfl⟩ := List.mem_map.mp hrow
      exact harcs u a ha

/-- The arcs that the edges of some rows give a vertex are its row. -/
theorem Compressed.arcsFrom_edges {r : Rows} {n u : Nat} (h : r.Compressed n) (hu : u < n) :
    arcsFrom u r.edges = r.row u := by
  have hbin (v : Nat) (e : Edge) (he : e ∈ (r.row v).map (·.edgeFrom v)) : e.source = v := by
    obtain ⟨a, _, rfl⟩ := List.mem_map.mp he
    rfl
  rw [arcsFrom, edges, h.count_eq, filter_key_flatMap hbin hu, List.map_map]
  exact List.map_id _

/-- An edge is listed as often as its arc is in the row of its source. -/
theorem Compressed.count_edges {r : Rows} {n u : Nat} (h : r.Compressed n) (hu : u < n) (a : Arc) :
    r.edges.count (a.edgeFrom u) = (r.row u).count a := by
  rw [← count_arcsFrom, h.arcsFrom_edges hu]

/-- The edges of some rows are their arcs. -/
theorem Compressed.mem_edges {r : Rows} {n : Nat} (h : r.Compressed n) {e : Edge} :
    e ∈ r.edges ↔ e.source < n ∧ e.arc ∈ r.row e.source := by
  simp only [edges, h.count_eq, List.mem_flatMap, List.mem_range, List.mem_map]
  constructor
  · intro h
    obtain ⟨u, hu, a, ha, rfl⟩ := h
    exact ⟨hu, ha⟩
  · intro h
    obtain ⟨hsource, harc⟩ := h
    exact ⟨e.source, hsource, e.arc, harc, rfl⟩

/-- The flipped edges of some rows join vertices. -/
theorem Compressed.flipped_lt {r : Rows} {n : Nat} (h : r.Compressed n) :
    ∀ e ∈ r.edges.map Edge.flip, e.source < n ∧ e.target < n := by
  intro e he
  obtain ⟨flipped, hflipped, rfl⟩ := List.mem_map.mp he
  obtain ⟨hsource, harc⟩ := h.mem_edges.mp hflipped
  exact ⟨h.row_target_lt harc, hsource⟩

/-- The transposed rows are compressed. -/
theorem Compressed.transpose {r : Rows} {n : Nat} (h : r.Compressed n) :
    r.transpose.Compressed n := by
  rw [Rows.transpose, h.count_eq]
  exact compressed_ofEdges false fun e he => (h.flipped_lt e he).2

/-- Grouping the edges of some rows again gives the same rows. -/
theorem Compressed.ofEdges_edges {r : Rows} {n : Nat} (h : r.Compressed n) :
    ofEdges n r.edges false = r := by
  have hgrouped : (ofEdges n r.edges false).Compressed n :=
    compressed_ofEdges false fun e he => h.row_target_lt (h.mem_edges.mp he).2
  apply hgrouped.ext_row h
  intro u hu
  rw [row_grouped r.edges hu, h.arcsFrom_edges hu]

/-- Grouping edges between vertices sorts them by their sources. -/
theorem edges_ofEdges {n : Nat} {edges : List Edge} (hlt : ∀ e ∈ edges, e.source < n ∧ e.target < n) :
    (ofEdges n edges false).edges = sortedBy Edge.source edges := by
  have hgrouped : (ofEdges n edges false).Compressed n :=
    compressed_ofEdges false fun e he => (hlt e he).2
  rw [← flatMap_filter_key fun e he => (hlt e he).1, Rows.edges, hgrouped.count_eq]
  apply List.flatMap_congr
  intro u hu
  rw [row_grouped edges (List.mem_range.mp hu), arcsFrom, List.map_map]
  conv_rhs => rw [← List.map_id (edges.filter _)]
  apply List.map_congr_left
  intro e he
  obtain rfl : e.source = u := beq_iff_eq.mp (List.mem_filter.mp he).2
  rfl

/-- Grouping edges between vertices keeps each of them, as often as it was there. -/
theorem edges_ofEdges_perm {n : Nat} {edges : List Edge}
    (hlt : ∀ e ∈ edges, e.source < n ∧ e.target < n) : (ofEdges n edges false).edges.Perm edges := by
  rw [edges_ofEdges hlt]
  exact sortedBy_perm Edge.source edges

/-- The edges of the transposed rows are those of the rows, flipped. -/
theorem Compressed.edges_transpose_perm {r : Rows} {n : Nat} (h : r.Compressed n) :
    r.transpose.edges.Perm (r.edges.map Edge.flip) := by
  rw [Rows.transpose, h.count_eq]
  exact edges_ofEdges_perm h.flipped_lt

/-- When every row ascends strictly, so does every transposed one. -/
theorem Compressed.row_transpose_pairwise {r : Rows} {n v : Nat} (h : r.Compressed n) (hv : v < n)
    (hrows : ∀ u < n, (r.row u).Pairwise fun a b => a.target < b.target) :
    (r.transpose.row v).Pairwise fun a b => a.target < b.target := by
  rw [Rows.transpose, h.count_eq, row_grouped _ hv, arcsFrom, List.pairwise_map, List.pairwise_filter,
    List.pairwise_map, edges, h.count_eq, List.pairwise_flatMap]
  -- A row has one arc to the vertex at most, and the rows come by ascending source.
  constructor
  · intro u hu
    rw [List.pairwise_map]
    apply (hrows u (List.mem_range.mp hu)).imp
    intro a b hlt ha hb
    have heq : a.target = b.target := (beq_iff_eq.mp ha).trans (beq_iff_eq.mp hb).symm
    exact absurd heq (Nat.ne_of_lt hlt)
  · apply List.pairwise_lt_range.imp
    intro u u' hlt e he e' he' _ _
    obtain ⟨a, _, rfl⟩ := List.mem_map.mp he
    obtain ⟨a', _, rfl⟩ := List.mem_map.mp he'
    exact hlt

/-- The transposed rows hold every arc flipped, as often as it was there. -/
theorem Compressed.count_transpose {r : Rows} {n u v : Nat} (h : r.Compressed n) (hu : u < n)
    (hv : v < n) (w : UInt32) : (r.transpose.row v).count ⟨u, w⟩ = (r.row u).count ⟨v, w⟩ := by
  rw [Rows.transpose, h.count_eq, row_grouped _ hv, count_arcsFrom, ← h.count_edges hu]
  exact List.count_map_of_injective r.edges Edge.flip Edge.flip_injective ⟨u, v, w⟩

end Rows

end GraphKernels
