import GraphKernels.Proofs.Graph.Constructible
import GraphKernels.Proofs.Graph.TableRows

/-!
# Stored tables give the graph back

The tables of a graph list its arcs in row order, and grouping arcs that are already in row order moves
none of them. So reading what was written gives the same forward rows, and with them the same reverse
rows, since these are the transpose in every graph. What is not checked is that the tables of an
undirected graph list each arc in both directions: its arcs go both ways exactly when the listed ones do.
-/

namespace GraphKernels

/-- Vertex ids fit the words of a table. -/
theorem toNat_ofNat_word {u : Nat} (hu : u ≤ maxVertices) : (UInt32.ofNat u).toNat = u :=
  UInt32.toNat_ofNat_of_lt' (Nat.lt_of_le_of_lt hu (by decide))

namespace Graph

variable {g : Graph} {edgeTable headerTable : Table} {listed : List Edge} {count : UInt64} {directed : Bool}

/-- The header of a graph holds its vertex count and its direction. -/
theorem holdsHeaders_headerTable (g : Graph) :
    g.headerTable.HoldsHeaders [(UInt64.ofNat g.numVertices, g.directed)] := ⟨rfl, rfl⟩

/-- The edge table of a graph holds its arcs. -/
theorem holdsEdges_edgeTable (h : ∀ e ∈ g.edges, e.source ≤ maxVertices ∧ e.target ≤ maxVertices) :
    g.edgeTable.HoldsEdges g.edges := by
  refine ⟨⟨_, rfl, ?_⟩, ⟨_, rfl, ?_⟩, rfl⟩
  · rw [List.map_map]
    exact List.map_congr_left fun e he => toNat_ofNat_word (h e he).1
  · rw [List.map_map]
    exact List.map_congr_left fun e he => toNat_ofNat_word (h e he).2

/-- Reading tables with a vertex count that fits 32 bits comes down to looking for an arc out of bounds. -/
theorem ofTables_eq (hedges : edgeTable.HoldsEdges listed)
    (hheader : headerTable.HoldsHeaders [(count, directed)]) (hcount : count.toNat ≤ maxVertices) :
    ofTables (.table edgeTable) (.table headerTable) =
      match listed.find? fun e => count.toNat ≤ e.source || count.toNat ≤ e.target with
      | some e => .error (.arcOutOfBounds e.source e.target count.toNat)
      | none => .ok (ofRows count.toNat directed (.ofEdges count.toNat listed false)) := by
  simp only [ofTables, TableFile.read, ok_bind, hheader.header_eq, if_neg (Nat.not_lt.mpr hcount),
    hedges.edgeRows_eq]
  rfl

/-- Tables whose arcs join vertices are the graph of these arcs. -/
theorem ofTables_eq_ok (hedges : edgeTable.HoldsEdges listed)
    (hheader : headerTable.HoldsHeaders [(count, directed)]) (hcount : count.toNat ≤ maxVertices)
    (hlt : ∀ e ∈ listed, e.source < count.toNat ∧ e.target < count.toNat) :
    ofTables (.table edgeTable) (.table headerTable) =
      .ok (ofRows count.toNat directed (.ofEdges count.toNat listed false)) := by
  rw [ofTables_eq hedges hheader hcount, find_outside_eq_none_iff.mpr hlt]

/-- Reading the tables of a graph gives the graph back. -/
theorem ofTables_tables (hg : g.Packed) :
    ofTables (.table g.edgeTable) (.table g.headerTable) = .ok g := by
  have hlt (e : Edge) (he : e ∈ g.edges) := edge_lt hg.wellFormed he
  have hn := hg.numVertices_le
  have hcount : (UInt64.ofNat g.numVertices).toNat = g.numVertices :=
    UInt64.toNat_ofNat_of_lt' (Nat.lt_of_le_of_lt hn (by decide))
  have hholds := holdsEdges_edgeTable fun e he =>
    ⟨Nat.le_trans (Nat.le_of_lt (hlt e he).1) hn, Nat.le_trans (Nat.le_of_lt (hlt e he).2) hn⟩
  rw [ofTables_eq_ok hholds (holdsHeaders_headerTable g) (hcount.symm ▸ hn) (hcount.symm ▸ hlt), hcount,
    edges, hg.forward.ofEdges_edges]
  exact congrArg Except.ok hg.eq_ofRows.symm

/-- Writing any graph to tables and reading these gives the same graph in every field, the order of each
row of reverse arcs included, and reports its vertices and arcs. -/
theorem readTraced_written (hg : g.Constructible) :
    readTraced (.table g.writeTraced.value.1) (.table g.writeTraced.value.2) =
      .ok ⟨g, [.tablesRead g.numVertices g.numArcs]⟩ := by
  rw [readTraced, writeTraced, ofTables_tables hg.packed]
  rfl

/-- A directed graph with parallel arcs that do not ascend, a loop and two vertices without arcs. -/
theorem readTraced_written_parallel :
    ∃ g, build { numVertices := some 5 } [⟨2, 2, 5⟩, ⟨0, 2, 7⟩, ⟨0, 1, 3⟩, ⟨0, 2, 3⟩] = .ok g ∧
      g.Constructible ∧
      readTraced (.table g.writeTraced.value.1) (.table g.writeTraced.value.2) =
        .ok ⟨g, [.tablesRead 5 4]⟩ := by
  refine ⟨_, rfl, ?_⟩
  have hbuild : build { numVertices := some 5 } [⟨2, 2, 5⟩, ⟨0, 2, 7⟩, ⟨0, 1, 3⟩, ⟨0, 2, 3⟩] = .ok _ := rfl
  exact ⟨.build hbuild, readTraced_written (.build hbuild)⟩

/-! ### Undirected tables -/

/-- Where every arc is stored as often as its reverse, the out-neighbors of a vertex are the sources of the
arcs that end there. -/
theorem targets_perm_sources (hwell : g.WellFormed)
    (hsymm : ∀ e, g.edges.count e.flip = g.edges.count e) {v : Nat} (hv : v < g.numVertices) :
    (g.targets v).Perm ((g.edges.filter (·.target == v)).map Edge.source) := by
  have hflip : (g.edges.map Edge.flip).Perm g.edges := by
    rw [List.perm_iff_count]
    intro e
    rw [← hsymm, ← List.count_map_of_injective g.edges Edge.flip Edge.flip_injective e.flip, Edge.flip_flip]
  have hrow : g.targets v = (g.edges.filter (·.source == v)).map Edge.target := by
    rw [targets, Rows.rowTargets, ← hwell.forward.arcsFrom_edges hv, arcsFrom, List.map_map]
    rfl
  have hflipped : ((g.edges.map Edge.flip).filter (·.target == v)).map Edge.source = g.targets v := by
    rw [hrow, List.filter_map, List.map_map]
    rfl
  rw [← hflipped]
  exact (hflip.filter _).map _

/-- In an undirected graph that is read from tables, every arc is stored as often as its reverse exactly
when the edge table lists it as often. The in-neighbors of a vertex, which are its out-neighbors, are then
the sources of the arcs that end there. -/
theorem bothWays_iff_listed {edgeFile headerFile : TableFile}
    (h : ofTables edgeFile headerFile = .ok g) (hundirected : g.directed = false) :
    ∃ listed, (edgeFile.read .edges >>= Table.edgeRows) = .ok listed ∧
      ((∀ e, g.edges.count e.flip = g.edges.count e) ↔ ∀ e, listed.count e.flip = listed.count e) ∧
      ((∀ e, g.edges.count e.flip = g.edges.count e) → ∀ v < g.numVertices, ∃ sources,
        g.inNeighbors v = .ok sources ∧
          sources.Perm ((g.edges.filter (·.target == v)).map Edge.source)) := by
  obtain ⟨n, directed, listed, _, hlisted, hlt, hg⟩ := ofTables_spec h
  have hperm : g.edges.Perm listed := by
    rw [hg]
    exact Rows.edges_ofEdges_perm hlt
  have hwell := (packed_ofTables h).wellFormed
  refine ⟨listed, hlisted, ?_, fun hsymm v hv => ?_⟩
  · simp only [hperm.count_eq]
  · refine ⟨g.sources v, hwell.inNeighbors_eq hv, ?_⟩
    rw [sources, incoming_eq_forward hundirected]
    exact targets_perm_sources hwell hsymm hv

/-- Tables that list both directions of one edge, out of order and with a parallel edge. -/
theorem bothWays_iff_listed_parallel :
    ∃ g, ofTables
        (.table [⟨"source", .words #[1, 0, 1, 0]⟩, ⟨"target", .words #[0, 1, 0, 1]⟩,
          ⟨"weight", .words #[5, 2, 2, 5]⟩])
        (.table [⟨"num_nodes", .longWords #[2]⟩, ⟨"directed", .flags #[false]⟩]) = .ok g ∧
      g.directed = false ∧ ∃ listed : List Edge, listed = [⟨1, 0, 5⟩, ⟨0, 1, 2⟩, ⟨1, 0, 2⟩, ⟨0, 1, 5⟩] ∧
      ((∀ e, g.edges.count e.flip = g.edges.count e) ↔ ∀ e, listed.count e.flip = listed.count e) ∧
      ((∀ e, g.edges.count e.flip = g.edges.count e) → ∀ v < g.numVertices, ∃ sources,
        g.inNeighbors v = .ok sources ∧
          sources.Perm ((g.edges.filter (·.target == v)).map Edge.source)) := by
  refine ⟨_, rfl, rfl, ?_⟩
  have hread : ofTables
      (.table [⟨"source", .words #[1, 0, 1, 0]⟩, ⟨"target", .words #[0, 1, 0, 1]⟩,
        ⟨"weight", .words #[5, 2, 2, 5]⟩])
      (.table [⟨"num_nodes", .longWords #[2]⟩, ⟨"directed", .flags #[false]⟩]) = .ok _ := rfl
  obtain ⟨listed, hlisted, hiff⟩ := bothWays_iff_listed hread rfl
  exact ⟨listed, (Except.ok.inj hlisted).symm, hiff⟩

/-- The tables of an undirected graph are accepted when they list an arc in one direction only. The arc is
then stored in that direction, and its target has no in-neighbors. -/
theorem one_way_accepted :
    ∃ g, ofTables
        (.table [⟨"source", .words #[0]⟩, ⟨"target", .words #[1]⟩, ⟨"weight", .words #[5]⟩])
        (.table [⟨"num_nodes", .longWords #[2]⟩, ⟨"directed", .flags #[false]⟩]) = .ok g ∧
      g.directed = false ∧ g.edges.count ⟨0, 1, 5⟩ = 1 ∧ g.edges.count ⟨1, 0, 5⟩ = 0 ∧
      g.outNeighbors 0 = .ok [1] ∧ g.inNeighbors 1 = .ok [] :=
  ⟨_, rfl, rfl, by decide, by decide, rfl, rfl⟩

end Graph

end GraphKernels
