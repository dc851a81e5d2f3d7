import GraphKernels.Graph.Table
import GraphKernels.Proofs.Graph.Rows

/-!
# The rows that tables hold

A table of columns of the right types holds a list of rows, one column for each part of a row, whatever the
names of its columns are and whatever columns follow. Reading an edge table gives its rows, in one piece or
batch by batch, and reading a header table gives its one row.
-/

namespace GraphKernels

namespace Table

variable {table : Table} {listed : List Edge} {headers : List (UInt64 × Bool)}

/-- The first three columns are words that give the sources, the targets and the weights of some edges. -/
structure HoldsEdges (table : Table) (listed : List Edge) : Prop where
  sources : ∃ words, table[0]?.map Column.values = some (.words words) ∧
    words.toList.map UInt32.toNat = listed.map Edge.source
  targets : ∃ words, table[1]?.map Column.values = some (.words words) ∧
    words.toList.map UInt32.toNat = listed.map Edge.target
  weights : table[2]?.map Column.values = some (.words (listed.map Edge.weight).toArray)

/-- The first two columns are long words and flags that give some vertex counts and directions. -/
structure HoldsHeaders (table : Table) (headers : List (UInt64 × Bool)) : Prop where
  counts : table[0]?.map Column.values = some (.longWords (headers.map Prod.fst).toArray)
  flags : table[1]?.map Column.values = some (.flags (headers.map Prod.snd).toArray)

/-- A column of the type that is looked for is read. -/
theorem column_eq {α : Type} {i : Nat} {values : ColumnValues} {cells : Array α} (name : String)
    {view : ColumnValues → Option (Array α)} (h : table[i]?.map Column.values = some values)
    (hview : view values = some cells) : table.column i name view = .ok cells := by
  obtain ⟨found, hfound, rfl⟩ := Option.map_eq_some_iff.mp h
  simp only [column, hfound, hview]

/-- The number of rows is that of the values of the first column. -/
theorem rowCount_eq {values : ColumnValues} (h : table[0]?.map Column.values = some values) :
    table.rowCount = values.count := by
  cases table with
  | nil => simp at h
  | cons column rest =>
    cases h
    rfl

/-- An edge table has as many rows as edges. -/
theorem HoldsEdges.rowCount_eq (h : table.HoldsEdges listed) : table.rowCount = listed.length := by
  obtain ⟨words, hwords, hsources⟩ := h.sources
  rw [Table.rowCount_eq hwords, ColumnValues.count, ← List.length_map (f := Edge.source), ← hsources,
    List.length_map, Array.length_toList]

/-- Reading an edge table gives the edges. -/
theorem HoldsEdges.edgeRows_eq (h : table.HoldsEdges listed) : table.edgeRows = .ok listed := by
  have hcount := h.rowCount_eq
  obtain ⟨sources, hsource, hsources⟩ := h.sources
  obtain ⟨targets, htarget, htargets⟩ := h.targets
  have hcells : List.zipWith (fun source cell => Edge.mk source.toNat cell.1.toNat cell.2) sources.toList
      (targets.toList.zip (listed.map Edge.weight)) = listed := by
    have hmapped : List.zipWith (fun source cell => Edge.mk source.toNat cell.1.toNat cell.2) sources.toList
        (targets.toList.zip (listed.map Edge.weight)) =
          List.zipWith (fun source cell => Edge.mk source cell.1 cell.2) (sources.toList.map UInt32.toNat)
            ((targets.toList.map UInt32.toNat).zip (listed.map Edge.weight)) := by
      rw [List.zip_map_left, List.zipWith_map]
      rfl
    rw [hmapped, hsources, htargets, List.zip_map', List.zipWith_map, List.zipWith_self]
    exact List.map_id _
  rw [edgeRows, hcount, column_eq "source" hsource rfl, column_eq "target" htarget rfl,
    column_eq "weight" h.weights rfl]
  split
  · next hempty => rw [List.length_eq_zero_iff.mp hempty]; rfl
  · exact congrArg Except.ok hcells

/-- A header table with one row gives the vertex count and the direction, if the count fits 32 bits. -/
theorem HoldsHeaders.header_eq {count : UInt64} {directed : Bool}
    (h : table.HoldsHeaders [(count, directed)]) :
    table.header = if maxVertices < count.toNat then .error (.tooManyVertices count.toNat)
      else .ok (count.toNat, directed) := by
  have hrows : table.rowCount = 1 := rowCount_eq h.counts
  rw [header, hrows, column_eq "num_nodes" h.counts rfl, column_eq "directed" h.flags rfl]
  rfl

/-- A header table with no row or more than one is refused. -/
theorem HoldsHeaders.header_eq_error (h : table.HoldsHeaders headers) (hlength : headers.length ≠ 1) :
    table.header = .error (.headerRows (min batchRows headers.length)) := by
  have hrows : table.rowCount = headers.length := by
    rw [rowCount_eq h.counts, ColumnValues.count, List.size_toArray, List.length_map]
  have hbatch : min batchRows headers.length ≠ 1 := by
    rw [batchRows]
    omega
  rw [header, hrows]
  simp only [hbatch, ne_eq, not_false_eq_true, if_true]
  rfl

/-! ### Batches -/

end Table

/-- The values from one position up to another. -/
def ColumnValues.extract (start stop : Nat) : ColumnValues → ColumnValues
  | .words values => .words (values.extract start stop)
  | .longWords values => .longWords (values.extract start stop)
  | .integers values => .integers (values.extract start stop)
  | .flags values => .flags (values.extract start stop)

namespace Table

variable {table : Table} {listed : List Edge}

/-- The rows from one position up to another, as a table. -/
def extract (table : Table) (start stop : Nat) : Table :=
  table.map fun column => ⟨column.name, column.values.extract start stop⟩

/-- What a reader sees of a table: all rows in order, in tables of at most so many rows as it sees at once. -/
def batches (table : Table) : List Table :=
  (List.range ((table.rowCount + batchRows - 1) / batchRows)).map fun i =>
    table.extract (batchRows * i) (batchRows * (i + 1))

/-- A column of some of the rows has the values of these rows. -/
theorem extract_values {i start stop : Nat} {values : ColumnValues}
    (h : table[i]?.map Column.values = some values) :
    (table.extract start stop)[i]?.map Column.values = some (values.extract start stop) := by
  obtain ⟨found, hfound, rfl⟩ := Option.map_eq_some_iff.mp h
  rw [extract, List.getElem?_map, hfound]
  rfl

/-- Some of the rows of an edge table hold the edges at these positions. -/
theorem HoldsEdges.extract (h : table.HoldsEdges listed) (start stop : Nat) :
    (table.extract start stop).HoldsEdges (listed.extract start stop) := by
  obtain ⟨sources, hsource, hsources⟩ := h.sources
  obtain ⟨targets, htarget, htargets⟩ := h.targets
  refine ⟨⟨_, extract_values hsource, ?_⟩, ⟨_, extract_values htarget, ?_⟩, ?_⟩
  · simp only [Array.toList_extract, List.extract_eq_take_drop, List.map_take, List.map_drop, hsources]
  · simp only [Array.toList_extract, List.extract_eq_take_drop, List.map_take, List.map_drop, htargets]
  · rw [extract_values h.weights, ColumnValues.extract]
    simp only [List.extract_toArray, List.extract_eq_take_drop, List.map_take, List.map_drop]

/-- The edges of all batches, one after the other, are the edges of the table. -/
theorem HoldsEdges.batches (h : table.HoldsEdges listed) :
    (do return (← table.batches.mapM edgeRows).flatten) = (.ok listed : Except TableError (List Edge)) := by
  have hreads : table.batches.mapM edgeRows =
      .ok ((List.range ((listed.length + batchRows - 1) / batchRows)).map fun i =>
        (listed.toArray.extract (batchRows * i) (batchRows * (i + 1))).toList) := by
    rw [Table.batches, h.rowCount_eq, List.mapM_map]
    apply mapM_eq_map
    intro i _
    rw [Array.toList_extract]
    exact (h.extract _ _).edgeRows_eq
  have hends : listed.length ≤ batchRows * ((listed.length + batchRows - 1) / batchRows) := by
    rw [batchRows]
    omega
  rw [hreads, ok_bind, ← List.flatMap_def,
    flatMap_extract_toList listed.toArray (batchRows * ·) rfl fun i _ => Nat.mul_le_mul_left _ (Nat.le_succ i),
    Array.toList_extract, List.extract_eq_take_drop, List.drop_zero, Nat.sub_zero, List.take_of_length_le hends]
  rfl

end Table

end GraphKernels
