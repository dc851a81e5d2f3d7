import GraphKernels.Proofs.Graph.Tables

/-!
# What is read from tables

A pair of tables is a graph exactly when the header has one row, with a vertex count that fits 32 bits and covers
all endpoints; otherwise the first arc that ends outside the graph is named. Every vertex lists its rows in table
order. Storing what was read sorts the rows by source, and reading them again changes nothing.
-/

namespace GraphKernels.Graph

variable {edgeTable headerTable : Table} {listed : List Edge} {headers : List (UInt64 × Bool)} {g : Graph}

/-- A header that is not one row with a vertex count that fits 32 bits is refused, whatever arcs are listed. -/
theorem header_or_refused (hheaders : headerTable.HoldsHeaders headers) (edgeFile : TableFile) :
    (∃ count directed, headers = [(count, directed)] ∧ count.toNat ≤ maxVertices) ∨
      ofTables edgeFile (.table headerTable) = .error (.headerRows (min batchRows headers.length)) ∨
        ∃ n, ofTables edgeFile (.table headerTable) = .error (.tooManyVertices n) := by
  by_cases hlength : headers.length = 1
  · obtain ⟨⟨count, directed⟩, rfl⟩ := List.length_eq_one_iff.mp hlength
    by_cases hcount : count.toNat ≤ maxVertices
    · exact Or.inl ⟨count, directed, rfl, hcount⟩
    · refine Or.inr (Or.inr ⟨count.toNat, ?_⟩)
      simp only [ofTables, TableFile.read, ok_bind, hheaders.header_eq, if_pos (Nat.not_le.mp hcount)]
      rfl
  · refine Or.inr (Or.inl ?_)
    simp only [ofTables, TableFile.read, ok_bind, hheaders.header_eq_error hlength]
    rfl

/-- Accepted tables have one header row, with a vertex count that fits 32 bits and covers all endpoints. -/
theorem header_of_ofTables (hedges : edgeTable.HoldsEdges listed) (hheaders : headerTable.HoldsHeaders headers)
    (h : ofTables (.table edgeTable) (.table headerTable) = .ok g) :
    ∃ count directed, headers = [(count, directed)] ∧ count.toNat ≤ maxVertices ∧
      (∀ e ∈ listed, e.source < count.toNat ∧ e.target < count.toNat) ∧
      g = ofRows count.toNat directed (.ofEdges count.toNat listed false) := by
  rcases header_or_refused hheaders (.table edgeTable) with ⟨count, directed, rfl, hcount⟩ | herror | ⟨n, herror⟩
  · rw [ofTables_eq hedges hheaders hcount] at h
    split at h
    · cases h
    · next hnone =>
      exact ⟨count, directed, rfl, hcount, find_outside_eq_none_iff.mp hnone, (Except.ok.inj h).symm⟩
  · cases h.symm.trans herror
  · cases h.symm.trans herror

/-- An arc is named when it is the first one that ends outside the graph. -/
theorem ofTables_eq_arcOutOfBounds_iff (hedges : edgeTable.HoldsEdges listed)
    (hheaders : headerTable.HoldsHeaders headers) (source target n : Nat) :
    ofTables (.table edgeTable) (.table headerTable) = .error (.arcOutOfBounds source target n) ↔
      ∃ count directed weight front back, headers = [(count, directed)] ∧ count.toNat ≤ maxVertices ∧
        count.toNat = n ∧ listed = front ++ ⟨source, target, weight⟩ :: back ∧
        (∀ e ∈ front, e.source < n ∧ e.target < n) ∧ ¬ (source < n ∧ target < n) := by
  have hfirst (n : Nat) (e : Edge) : listed.find? (fun e => n ≤ e.source || n ≤ e.target) = some e ↔
      ¬ (e.source < n ∧ e.target < n) ∧ ∃ front back, listed = front ++ e :: back ∧
        ∀ f ∈ front, f.source < n ∧ f.target < n := by
    simp only [List.find?_eq_some_iff_append, outside_iff, Bool.not_eq_true', ← Bool.not_eq_true, not_not]
  constructor
  · intro herror
    rcases header_or_refused hheaders (.table edgeTable) with ⟨count, directed, rfl, hcount⟩ | hother | ⟨_, hother⟩
    · rw [ofTables_eq hedges hheaders hcount] at herror
      split at herror
      · next e hfound =>
        cases herror
        obtain ⟨houtside, front, back, hlisted, hfront⟩ := (hfirst _ _).mp hfound
        exact ⟨count, directed, e.weight, front, back, rfl, hcount, rfl, hlisted, hfront, houtside⟩
      · cases herror
    · cases herror.symm.trans hother
    · cases herror.symm.trans hother
  · intro ⟨count, directed, weight, front, back, hone, hcount, hn, hlisted, hfront, houtside⟩
    subst hone hn
    rw [ofTables_eq hedges hheaders hcount,
      (hfirst count.toNat ⟨source, target, weight⟩).mpr ⟨houtside, front, back, hlisted, hfront⟩]

-- The third row is named, and not the fourth, which ends outside as well.
example : ofTables
    (.table [⟨"from", .words #[0, 1, 2, 9]⟩, ⟨"to", .words #[1, 0, 3, 9]⟩, ⟨"length", .words #[5, 7, 1, 3]⟩])
    (.table [⟨"num_nodes", .longWords #[3]⟩, ⟨"directed", .flags #[false]⟩]) =
      .error (.arcOutOfBounds 2 3 3) := by
  rfl

/-- A list of edges between given vertices builds a directed graph on these vertices. -/
theorem build_counted {n : Nat} (hn : n ≤ maxVertices) (hlt : ∀ e ∈ listed, e.source < n ∧ e.target < n) :
    build { numVertices := some n } listed = .ok (ofRows n true (.ofEdges n listed false)) := by
  have hcount : BuildOptions.vertexCount { numVertices := some n } listed = .ok n :=
    BuildOptions.vertexCount_eq_ok_iff.mpr ⟨rfl, endpointBound_le_iff.mpr hlt, hn⟩
  rw [build, hcount]
  rfl

/-- A graph of the rows of two tables: it has the vertex count and the direction of the header, and its vertices
list their rows in table order. A directed one is built from the rows. Its own tables have the same header and the
rows sorted by source, those of one source in table order, and are the tables of the same graph. -/
structure KeepsRows (g : Graph) (listed : List Edge) (headers : List (UInt64 × Bool)) : Prop where
  header : headers = [(UInt64.ofNat g.numVertices, g.directed)]
  outArcs : ∀ u < g.numVertices, g.outArcs u = .ok ((listed.filter (·.source == u)).map Edge.arc)
  build_eq : g.directed = true → build { numVertices := some g.numVertices } listed = .ok g
  edgeTable : g.edgeTable.HoldsEdges (sortedBy Edge.source listed)
  headerTable : g.headerTable.HoldsHeaders headers
  readAgain : ofTables (.table g.edgeTable) (.table g.headerTable) = .ok g

/-- What is made of the rows of tables. -/
theorem keepsRows_ofTables (hedges : edgeTable.HoldsEdges listed) (hheaders : headerTable.HoldsHeaders headers)
    (h : ofTables (.table edgeTable) (.table headerTable) = .ok g) : g.KeepsRows listed headers := by
  have hpacked := packed_ofTables h
  have hwell := hpacked.wellFormed
  obtain ⟨count, directed, rfl, hcount, hlt, hg⟩ := header_of_ofTables hedges hheaders h
  have hlisted : g.edges = sortedBy Edge.source listed := by
    rw [hg]
    exact Rows.edges_ofEdges hlt
  have hone : [(count, directed)] = [(UInt64.ofNat g.numVertices, g.directed)] := by
    rw [hg, directed_ofRows, ofRows, UInt64.ofNat_toNat]
  have hword {u : Nat} (hu : u < g.numVertices) : u ≤ maxVertices :=
    Nat.le_trans (Nat.le_of_lt hu) hpacked.numVertices_le
  exact {
    header := hone
    outArcs := by
      intro u hu
      rw [hwell.outArcs_eq hu]
      subst hg
      exact congrArg Except.ok (Rows.row_grouped listed hu)
    build_eq := by
      intro hdirect
      subst hg
      rw [directed_ofRows] at hdirect
      subst hdirect
      exact build_counted hcount hlt
    edgeTable := hlisted ▸ holdsEdges_edgeTable fun e he =>
      ⟨hword (edge_lt hwell he).1, hword (edge_lt hwell he).2⟩
    headerTable := hone ▸ holdsHeaders_headerTable g
    readAgain := ofTables_tables hpacked }

/-- A pair of tables is accepted exactly when the header has one row, with a vertex count that fits 32 bits and
covers all endpoints, and an arc is named exactly when it is the first one that ends outside the graph. The rows
are those of all batches that a reader sees, one after the other, and an accepted graph keeps them. -/
theorem ofTables_keepsRows (hedges : edgeTable.HoldsEdges listed) (hheaders : headerTable.HoldsHeaders headers) :
    (do return (← edgeTable.batches.mapM Table.edgeRows).flatten) =
      (.ok listed : Except TableError (List Edge)) ∧
    ((∃ g, ofTables (.table edgeTable) (.table headerTable) = .ok g) ↔
      ∃ count directed, headers = [(count, directed)] ∧ count.toNat ≤ maxVertices ∧
        ∀ e ∈ listed, e.source < count.toNat ∧ e.target < count.toNat) ∧
    (∀ source target n,
      ofTables (.table edgeTable) (.table headerTable) = .error (.arcOutOfBounds source target n) ↔
        ∃ count directed weight front back, headers = [(count, directed)] ∧ count.toNat ≤ maxVertices ∧
          count.toNat = n ∧ listed = front ++ ⟨source, target, weight⟩ :: back ∧
          (∀ e ∈ front, e.source < n ∧ e.target < n) ∧ ¬ (source < n ∧ target < n)) ∧
    ∀ g, ofTables (.table edgeTable) (.table headerTable) = .ok g → g.KeepsRows listed headers := by
  refine ⟨hedges.batches, ?_, ofTables_eq_arcOutOfBounds_iff hedges hheaders,
    fun g hg => keepsRows_ofTables hedges hheaders hg⟩
  constructor
  · intro ⟨g, hg⟩
    obtain ⟨count, directed, hone, hcount, hlt, _⟩ := header_of_ofTables hedges hheaders hg
    exact ⟨count, directed, hone, hcount, hlt⟩
  · intro ⟨count, directed, hone, hcount, hlt⟩
    subst hone
    exact ⟨_, ofTables_eq_ok hedges hheaders hcount hlt⟩

/-- Directed tables with rows out of order, parallel arcs, a loop and vertices without arcs. -/
theorem ofTables_keepsRows_unordered :
    ∃ g, ofTables
        (.table [⟨"from", .words #[2, 0, 2, 0]⟩, ⟨"to", .words #[1, 1, 2, 1]⟩, ⟨"length", .words #[5, 7, 1, 3]⟩])
        (.table [⟨"num_nodes", .longWords #[5]⟩, ⟨"directed", .flags #[true]⟩]) = .ok g ∧
      g.KeepsRows [⟨2, 1, 5⟩, ⟨0, 1, 7⟩, ⟨2, 2, 1⟩, ⟨0, 1, 3⟩] [(5, true)] ∧
      g.edgeTable = [⟨"source", .words #[0, 0, 2, 2]⟩, ⟨"target", .words #[1, 1, 1, 2]⟩,
        ⟨"weight", .words #[7, 3, 5, 1]⟩] := by
  have hedges : Table.HoldsEdges
      [⟨"from", .words #[2, 0, 2, 0]⟩, ⟨"to", .words #[1, 1, 2, 1]⟩, ⟨"length", .words #[5, 7, 1, 3]⟩]
      [⟨2, 1, 5⟩, ⟨0, 1, 7⟩, ⟨2, 2, 1⟩, ⟨0, 1, 3⟩] := ⟨⟨_, rfl, rfl⟩, ⟨_, rfl, rfl⟩, rfl⟩
  have hheaders : Table.HoldsHeaders [⟨"num_nodes", .longWords #[5]⟩, ⟨"directed", .flags #[true]⟩]
      [(5, true)] := ⟨rfl, rfl⟩
  obtain ⟨_, _, _, hkeeps⟩ := ofTables_keepsRows hedges hheaders
  exact ⟨_, rfl, hkeeps _ rfl, by cbv⟩

end GraphKernels.Graph
