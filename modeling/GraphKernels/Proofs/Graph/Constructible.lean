import GraphKernels.Graph.Table
import GraphKernels.Proofs.Graph.DegreeOrder

/-!
# The graphs there are

A graph is empty, or built from a list of edges, or read from stored tables, or another graph relabelled.
All of them are packed: their rows are compressed, their vertices fit 32 bits, and the reverse rows are
the transpose of the forward rows, or nothing at all. Graphs that are read from tables need not be
mirrored: the tables of an undirected graph may list an arc in one direction only.
-/

namespace GraphKernels

/-- A header gives a vertex count that fits 32 bits. -/
theorem Table.header_le {table : Table} {n : Nat} {directed : Bool}
    (h : table.header = .ok (n, directed)) : n ≤ maxVertices := by
  simp only [header] at h
  split at h
  · cases h
  · obtain ⟨counts, _, h⟩ := bind_eq_ok_iff.mp h
    obtain ⟨flags, _, h⟩ := bind_eq_ok_iff.mp h
    split at h
    · cases h
    · next hmax =>
      cases h
      omega

namespace Graph

/-- The graph can be made. -/
inductive Constructible : Graph → Prop
  | empty : Constructible .empty
  | build {o : BuildOptions} {edges : List Edge} {g : Graph} (h : build o edges = .ok g) :
      Constructible g
  | tables {edgeFile headerFile : TableFile} {g : Graph} (h : ofTables edgeFile headerFile = .ok g) :
      Constructible g
  | relabelled {g next : Graph} (hg : Constructible g) (h : g.renameByDegree = .ok next) :
      Constructible next

/-- A graph on 32-bit vertices that is made of compressed rows. -/
structure Packed (g : Graph) : Prop where
  numVertices_le : g.numVertices ≤ maxVertices
  forward : g.forward.Compressed g.numVertices
  eq_ofRows : g = ofRows g.numVertices g.directed g.forward

/-- Compressed rows of 32-bit vertices make a packed graph. -/
theorem packed_ofRows {n : Nat} {forward : Rows} (directed : Bool) (hn : n ≤ maxVertices)
    (h : forward.Compressed n) : (ofRows n directed forward).Packed where
  numVertices_le := hn
  forward := h
  eq_ofRows := by cases directed <;> rfl

namespace Packed

variable {g : Graph}

/-- A packed graph is well formed. -/
theorem wellFormed (h : g.Packed) : g.WellFormed := by
  rw [h.eq_ofRows]
  exact wellFormed_ofRows g.directed h.forward

/-- The reverse rows of a directed graph are the transpose of its forward rows. -/
theorem reverseRows_eq (h : g.Packed) (hdirected : g.directed = true) :
    g.reverseRows = g.forward.transpose := by
  have hreverse : g.reverse = if g.directed then some g.forward.transpose else none :=
    congrArg Graph.reverse h.eq_ofRows
  rw [reverseRows, hreverse, hdirected, if_pos rfl, Option.getD_some]

end Packed

/-- An undirected graph has no reverse rows. -/
theorem reverseRows_eq_empty {g : Graph} (h : g.directed = false) : g.reverseRows = .empty := by
  rw [directed, Option.isSome_eq_false_iff, Option.isNone_iff_eq_none] at h
  rw [reverseRows, h, Option.getD_none]

/-- The rows of no vertices are compressed. -/
theorem compressed_empty : Rows.empty.Compressed 0 where
  offsets_size := rfl
  starts := rfl
  ascends u hu := absurd hu (Nat.not_lt_zero u)
  ends := rfl
  weights_size := rfl
  target_lt v hv := by simp [Rows.empty] at hv

/-- The graph without vertices is packed. -/
theorem packed_empty : Packed .empty := packed_ofRows true (Nat.zero_le _) compressed_empty

/-- A built graph is packed. -/
theorem packed_build {o : BuildOptions} {edges : List Edge} {g : Graph} (h : build o edges = .ok g) :
    g.Packed := by
  obtain ⟨n, hn, rfl⟩ := build_spec h
  exact packed_ofRows _ (BuildOptions.vertexCount_spec hn).1 (compressed_arcList hn)

/-- The test for an arc out of bounds. -/
theorem outside_iff {n : Nat} {e : Edge} :
    (decide (n ≤ e.source) || decide (n ≤ e.target)) = true ↔ ¬ (e.source < n ∧ e.target < n) := by
  rw [Bool.or_eq_true, decide_eq_true_eq, decide_eq_true_eq]
  omega

/-- No arc is out of bounds when all of them join vertices. -/
theorem find_outside_eq_none_iff {n : Nat} {listed : List Edge} :
    listed.find? (fun e => n ≤ e.source || n ≤ e.target) = none ↔
      ∀ e ∈ listed, e.source < n ∧ e.target < n := by
  simp only [List.find?_eq_none, outside_iff, not_not]

/-- A graph that is read from tables has the vertex count and the direction of the header, and the listed
edges, which join its vertices. -/
theorem ofTables_spec {edgeFile headerFile : TableFile} {g : Graph}
    (h : ofTables edgeFile headerFile = .ok g) :
    ∃ n directed listed, (headerFile.read .header >>= Table.header) = .ok (n, directed) ∧
      (edgeFile.read .edges >>= Table.edgeRows) = .ok listed ∧
      (∀ e ∈ listed, e.source < n ∧ e.target < n) ∧ g = ofRows n directed (.ofEdges n listed false) := by
  obtain ⟨header, hheader, h⟩ := bind_eq_ok_iff.mp h
  obtain ⟨⟨n, directed⟩, hcount, h⟩ := bind_eq_ok_iff.mp h
  obtain ⟨columns, hcolumns, h⟩ := bind_eq_ok_iff.mp h
  obtain ⟨listed, hlisted, h⟩ := bind_eq_ok_iff.mp h
  refine ⟨n, directed, listed, bind_eq_ok_iff.mpr ⟨header, hheader, hcount⟩,
    bind_eq_ok_iff.mpr ⟨columns, hcolumns, hlisted⟩, ?_⟩
  cases hfound : listed.find? fun e => n ≤ e.source || n ≤ e.target with
  | some e =>
    rw [hfound] at h
    cases h
  | none =>
    rw [hfound] at h
    cases h
    exact ⟨find_outside_eq_none_iff.mp hfound, rfl⟩

/-- A graph that is read from tables is packed. -/
theorem packed_ofTables {edgeFile headerFile : TableFile} {g : Graph}
    (h : ofTables edgeFile headerFile = .ok g) : g.Packed := by
  obtain ⟨n, directed, listed, hheader, _, hlt, rfl⟩ := ofTables_spec h
  obtain ⟨header, _, hcount⟩ := bind_eq_ok_iff.mp hheader
  exact packed_ofRows directed (Table.header_le hcount)
    (Rows.compressed_ofEdges false fun e he => (hlt e he).2)

/-- A relabelled graph is packed if the other one is, and only undirected graphs are relabelled. -/
theorem packed_renameByDegree {g next : Graph} (hg : g.Packed) (h : g.renameByDegree = .ok next) :
    next.Packed := by
  cases hdirected : g.directed with
  | true =>
    rw [renameByDegree, hdirected] at h
    cases h
  | false =>
    obtain ⟨order, horder, hrenamed⟩ := renameByDegree_eq hg.wellFormed hdirected
    cases hrenamed.symm.trans h
    exact packed_ofRows false hg.numVertices_le (wellFormed_renamed hg.wellFormed horder).forward

/-- All graphs are packed. -/
theorem Constructible.packed {g : Graph} (h : g.Constructible) : g.Packed := by
  induction h with
  | empty => exact packed_empty
  | build h => exact packed_build h
  | tables h => exact packed_ofTables h
  | relabelled _ h ih => exact packed_renameByDegree ih h

/-- All graphs are well formed. -/
theorem Constructible.wellFormed {g : Graph} (h : g.Constructible) : g.WellFormed := h.packed.wellFormed

/-- Every graph, however it was made, has at most 32-bit many vertices and compressed rows. A directed one
has reverse rows of the same shape that hold exactly the arcs flipped, and an undirected one has none. -/
theorem constructible_shape {g : Graph} (h : g.Constructible) :
    g.numVertices ≤ maxVertices ∧ g.forward.Compressed g.numVertices ∧
      (g.directed = true → g.reverseRows.Compressed g.numVertices ∧
        g.reverseRows.edges.Perm (g.edges.map Edge.flip)) ∧
      (g.directed = false → g.reverseRows = .empty) := by
  have hpacked := h.packed
  refine ⟨hpacked.numVertices_le, hpacked.forward, fun hdirected => ?_, reverseRows_eq_empty⟩
  rw [hpacked.reverseRows_eq hdirected]
  exact ⟨hpacked.forward.transpose, hpacked.forward.edges_transpose_perm⟩

/-- A directed graph with parallel arcs, a loop and a vertex without arcs. -/
theorem constructible_shape_parallel :
    ∃ g, build { numVertices := some 4 } [⟨2, 0, 5⟩, ⟨0, 1, 7⟩, ⟨0, 1, 3⟩, ⟨2, 2, 1⟩] = .ok g ∧
      g.Constructible ∧ g.numVertices ≤ maxVertices ∧ g.forward.Compressed g.numVertices ∧
      (g.directed = true → g.reverseRows.Compressed g.numVertices ∧
        g.reverseRows.edges.Perm (g.edges.map Edge.flip)) ∧
      (g.directed = false → g.reverseRows = .empty) := by
  refine ⟨_, rfl, ?_⟩
  have hbuild : build { numVertices := some 4 } [⟨2, 0, 5⟩, ⟨0, 1, 7⟩, ⟨0, 1, 3⟩, ⟨2, 2, 1⟩] = .ok _ := rfl
  exact ⟨.build hbuild, constructible_shape (.build hbuild)⟩

end Graph

end GraphKernels
