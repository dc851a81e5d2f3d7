import GraphKernels.Graph.Build

/-!
# Graphs as stored tables

A graph is stored as two tables of typed columns: the edge table lists every stored arc in row order
by source, target and weight, and the header table has one row that gives the vertex count and says
whether arcs have a direction. Reading takes columns by position and builds the rows again from the
listed arcs, so reverse rows are not stored and vertices without arcs are not lost.
-/

namespace GraphKernels

/-- The typed values of a column. -/
inductive ColumnValues
  | words (values : Array UInt32)
  | longWords (values : Array UInt64)
  | integers (values : Array Int32)
  | flags (values : Array Bool)
deriving DecidableEq, Repr

namespace ColumnValues

/-- The number of values. -/
def count : ColumnValues → Nat
  | words values => values.size
  | longWords values => values.size
  | integers values => values.size
  | flags values => values.size

/-- The values of a column of 32-bit words. -/
def words? : ColumnValues → Option (Array UInt32)
  | words values => some values
  | _ => none

/-- The values of a column of 64-bit words. -/
def longWords? : ColumnValues → Option (Array UInt64)
  | longWords values => some values
  | _ => none

/-- The values of a column of truth values. -/
def flags? : ColumnValues → Option (Array Bool)
  | flags values => some values
  | _ => none

end ColumnValues

/-- A named column. -/
structure Column where
  name : String
  values : ColumnValues
deriving DecidableEq, Repr

/-- Columns of one length. -/
abbrev Table := List Column

/-- The number of rows. -/
def Table.rowCount : Table → Nat
  | [] => 0
  | column :: _ => column.values.count

/-- The two tables of a graph. -/
inductive TablePart
  | header
  | edges
deriving DecidableEq, Repr

/-- What is found where a table is looked for. -/
inductive TableFile
  | missing
  | foreign
  | table (columns : Table)
deriving DecidableEq, Repr

/-- The largest number of rows that a reader sees at once. -/
def batchRows : Nat := 1024

/-- Why a pair of tables is no graph. -/
inductive TableError
  /-- There is no such file. -/
  | missingFile (part : TablePart)
  /-- The file holds no table. -/
  | foreignFile
  /-- The header needs one row, and its first batch has this many. -/
  | headerRows (count : Nat)
  /-- The table has fewer columns than are read. -/
  | missingColumn
  /-- The values of a column have another type. -/
  | columnType (column : String)
  /-- Vertex ids and their count fit 32 bits. -/
  | tooManyVertices (numVertices : Nat)
  /-- An arc ends outside the graph. -/
  | arcOutOfBounds (source target numVertices : Nat)
deriving DecidableEq, Repr

/-- The wording of a table error. -/
def TableError.message : TableError → String
  | .missingFile .header => "Failed to open <base>_meta.parquet"
  | .missingFile .edges => "Failed to open <base>_edges.parquet"
  | .foreignFile => "not a table"
  | .headerRows 0 => "Meta file holds no rows"
  | .headerRows count => s!"Meta file must hold exactly one row, found {count}"
  | .missingColumn => "Parquet reader task failed"
  | .columnType column => s!"Invalid {column} column type"
  | .tooManyVertices numVertices => s!"{numVertices} vertices exceed the u32 id space"
  | .arcOutOfBounds source target numVertices =>
    s!"arc {source} -> {target} out of bounds for {numVertices} vertices"

namespace Table

/-- The values of the column at a position, which must have the type that `view` selects. -/
def column {α : Type} (table : Table) (i : Nat) (name : String)
    (view : ColumnValues → Option (Array α)) : Except TableError (Array α) :=
  match table[i]? with
  | none => .error .missingColumn
  | some column =>
    match view column.values with
    | none => .error (.columnType name)
    | some values => .ok values

/-- The vertex count and the direction that a header table gives. -/
def header (table : Table) : Except TableError (Nat × Bool) := do
  let rows := min batchRows table.rowCount
  if rows ≠ 1 then .error (.headerRows rows)
  let counts ← table.column 0 "num_nodes" ColumnValues.longWords?
  let flags ← table.column 1 "directed" ColumnValues.flags?
  let n := (counts.getD 0 0).toNat
  if maxVertices < n then .error (.tooManyVertices n)
  else return (n, flags.getD 0 false)

/-- The rows of an edge table; the columns of a table without rows are not looked at. -/
def edgeRows (table : Table) : Except TableError (List Edge) := do
  if table.rowCount = 0 then return []
  let sources ← table.column 0 "source" ColumnValues.words?
  let targets ← table.column 1 "target" ColumnValues.words?
  let weights ← table.column 2 "weight" ColumnValues.words?
  return List.zipWith (fun source (target, weight) => ⟨source.toNat, target.toNat, weight⟩)
    sources.toList (targets.toList.zip weights.toList)

end Table

/-- The table that a file holds. -/
def TableFile.read (file : TableFile) (part : TablePart) : Except TableError Table :=
  match file with
  | .missing => .error (.missingFile part)
  | .foreign => .error .foreignFile
  | .table columns => .ok columns

namespace Graph

/-- The table of all stored arcs. -/
def edgeTable (g : Graph) : Table :=
  let edges := g.edges
  [⟨"source", .words (edges.map (UInt32.ofNat ·.source)).toArray⟩,
    ⟨"target", .words (edges.map (UInt32.ofNat ·.target)).toArray⟩,
    ⟨"weight", .words (edges.map Edge.weight).toArray⟩]

/-- The table of the vertex count and the direction. -/
def headerTable (g : Graph) : Table :=
  [⟨"num_nodes", .longWords #[UInt64.ofNat g.numVertices]⟩, ⟨"directed", .flags #[g.directed]⟩]

/-- The graph that an edge table and a header table store. -/
def ofTables (edgeFile headerFile : TableFile) : Except TableError Graph := do
  let (n, directed) ← (← headerFile.read .header).header
  let edges ← (← edgeFile.read .edges).edgeRows
  match edges.find? fun e => n ≤ e.source || n ≤ e.target with
  | some e => .error (.arcOutOfBounds e.source e.target n)
  | none => return ofRows n directed (.ofEdges n edges false)

/-- Read a graph from its tables and report it. -/
def readTraced (edgeFile headerFile : TableFile) : Except TableError (Traced Graph) := do
  let g ← ofTables edgeFile headerFile
  return ⟨g, [.tablesRead g.numVertices g.numArcs]⟩

/-- The edge table and the header table of a graph, with the report of storing them. -/
def writeTraced (g : Graph) : Traced (Table × Table) :=
  ⟨(g.edgeTable, g.headerTable), [.tablesWritten g.numArcs]⟩

end Graph

end GraphKernels
