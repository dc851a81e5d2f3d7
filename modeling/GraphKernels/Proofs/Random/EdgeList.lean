import GraphKernels.Proofs.Graph.Build
import GraphKernels.Proofs.Random.Draw
import GraphKernels.Random.EdgeList

/-!
# Random edges make graphs

However the words of the stream fall, a generator gives as many edges as it is asked for, between vertices whose
ids have no more binary places than the scale, and with weights from 1 to 255. For recursive-matrix edges that is
an invariant of the places drawn so far, and renaming them never leaves the table of names, which is a reordering
of the vertices. A graph can be built of such edges in every way.

A list of edges is an array, so there is a largest one: past it a generator gives no edges, though their number may
still fit a 64-bit word.
-/

namespace GraphKernels.Random

variable {scale degree place count n : Nat} {seed : UInt64}

/-- The edge joins two of the first `n` vertices and has a weight from 1 to 255. -/
structure Fits (n : Nat) (e : Edge) : Prop where
  source_lt : e.source < n
  target_lt : e.target < n
  weight_pos : 1 ≤ e.weight.toNat
  weight_le : e.weight.toNat ≤ 255

/-- Scales up to the largest one have vertices. -/
theorem verticesOfScale_eq (hscale : scale ≤ 31) : verticesOfScale scale = .ok (2 ^ scale) :=
  if_neg (Nat.not_lt.mpr hscale)

/-! ### Single edges -/

/-- Weights are positive and fit a byte. -/
theorem always_edgeWeight : Always edgeWeight fun weight => 1 ≤ weight.toNat ∧ weight.toNat ≤ 255 := by
  have hpos : 0 < maxEdgeWeight := by decide
  rw [edgeWeight]
  refine (always_below hpos).bind fun drawn hdrawn => ?_
  have hdrawn : drawn < 255 := hdrawn
  apply Always.pure
  rw [UInt32.toNat_ofNat_of_lt' (by omega : drawn + 1 < 2 ^ 32)]
  omega

/-- Any two vertices can be drawn, and nothing but vertices. -/
theorem always_uniformEdge (hn : 0 < n) : Always (uniformEdge n) (Fits n) := by
  rw [uniformEdge]
  refine (always_below hn).bind fun source hsource => ?_
  refine (always_below hn).bind fun target htarget => ?_
  refine always_edgeWeight.bind fun weight hweight => ?_
  exact .pure ⟨hsource, htarget, hweight.1, hweight.2⟩

/-- The next binary place is above all earlier ones. -/
theorem add_bit_lt {bits : Nat} (h : bits < 2 ^ place) (set : Bool) :
    bits + (if set then Nat.pow 2 place else 0) < 2 ^ (place + 1) := by
  rw [Nat.pow_eq, Nat.pow_succ]
  split <;> omega

/-- The endpoints have as many binary places as have been drawn. -/
theorem always_quadrants {source target : Nat} (hsource : source < 2 ^ place) (htarget : target < 2 ^ place) :
    Always (quadrants source target place count) fun ends =>
      ends.1 < 2 ^ (place + count) ∧ ends.2 < 2 ^ (place + count) := by
  induction count generalizing source target place with
  | zero => exact .pure ⟨hsource, htarget⟩
  | succ count ih =>
    have hquadrant : Always quadrant fun _ => True := fun _ => trivial
    rw [quadrants]
    refine hquadrant.bind fun bits _ => ?_
    have hnext := ih (add_bit_lt hsource bits.1) (add_bit_lt htarget bits.2)
    rwa [Nat.add_right_comm] at hnext

/-- Places up to the scale give vertices of the scale. -/
theorem always_quadrantEdge (scale : Nat) : Always (quadrantEdge scale) (Fits (2 ^ scale)) := by
  have hstart : 0 < 2 ^ 0 := Nat.one_pos
  rw [quadrantEdge]
  refine (always_quadrants hstart hstart).bind fun ends hends => ?_
  rw [Nat.zero_add] at hends
  refine always_edgeWeight.bind fun weight hweight => ?_
  exact .pure ⟨hends.1, hends.2, hweight.1, hweight.2⟩

/-! ### Lists of edges -/

/-- Uniform edges are as many as asked for, and fit the scale. -/
theorem uniformEdges_yields (hscale : scale ≤ 31) :
    Yields (uniformEdges scale degree seed) fun edges =>
      edges.length = degree * 2 ^ scale ∧ ∀ e ∈ edges, Fits (2 ^ scale) e := by
  have hdrawn := always_drawMany (always_uniformEdge (Nat.pow_pos (n := scale) Nat.two_pos))
    (degree * 2 ^ scale) (.ofSeed seed)
  rw [uniformEdges, verticesOfScale_eq hscale, ok_bind]
  exact .ok ⟨hdrawn.1, fun e he => hdrawn.2 e (Array.mem_toList_iff.mp he)⟩

/-- In a reordering of the vertices every vertex has a vertex for its name. -/
theorem getD_lt_of_perm_range {names : Array Nat} (hnames : names.Perm (Array.range n)) {u : Nat} (hu : u < n) :
    names.getD u 0 < n := by
  have hsize : u < names.size := by rwa [hnames.size_eq, Array.size_range]
  rw [Array.getD_eq_getD_getElem?, Array.getElem?_eq_getElem hsize, Option.getD_some]
  exact Array.mem_range.mp (hnames.mem_iff.mp (Array.getElem_mem hsize))

/-- An edge with the names of its ends. -/
def renameEdge (names : Array Nat) (e : Edge) : Edge := ⟨names.getD e.source 0, names.getD e.target 0, e.weight⟩

/-- All ends of edges that join vertices have names, and the renamed edges join vertices again. -/
theorem rename_yields {names : Array Nat} (hnames : names.Perm (Array.range n)) {edges : List Edge}
    (hedges : ∀ e ∈ edges, Fits n e) :
    Yields (edges.mapM fun e => do
        return ⟨← (readAt names e.source).mapError Failure.fault,
          ← (readAt names e.target).mapError Failure.fault, e.weight⟩)
      fun renamed => renamed.length = edges.length ∧ ∀ e ∈ renamed, Fits n e := by
  have hread {u : Nat} (hu : u < n) : readAt names u = .ok (names.getD u 0) := by
    apply readAt_eq_getD
    rwa [hnames.size_eq, Array.size_range]
  refine ⟨edges.map (renameEdge names), mapM_eq_map fun e he => ?_, List.length_map _, fun e he => ?_⟩
  · rw [hread (hedges e he).source_lt, hread (hedges e he).target_lt]
    rfl
  · obtain ⟨drawn, hdrawn, rfl⟩ := List.mem_map.mp he
    have hfits := hedges drawn hdrawn
    exact { hfits with
      source_lt := getD_lt_of_perm_range hnames hfits.source_lt
      target_lt := getD_lt_of_perm_range hnames hfits.target_lt }

/-- Recursive-matrix edges are as many as asked for, fit the scale, and have no ends without names. -/
theorem kroneckerEdges_yields (hscale : scale ≤ 31) :
    Yields (kroneckerEdges scale degree seed) fun edges =>
      edges.length = degree * 2 ^ scale ∧ ∀ e ∈ edges, Fits (2 ^ scale) e := by
  rw [kroneckerEdges, verticesOfScale_eq hscale, Except.mapError, ok_bind]
  by_cases hdegree : degree = 0
  · rw [if_pos hdegree]
    exact .ok ⟨by simp [hdegree], nofun⟩
  · rw [if_neg hdegree]
    have hnames := always_shuffle (Array.range (2 ^ scale)) (.ofSeed seed)
    generalize (shuffle (Array.range (2 ^ scale))).run (.ofSeed seed) = shuffled at *
    obtain ⟨names, stream⟩ := shuffled
    obtain ⟨hsize, hdrawn⟩ := always_drawMany (always_quadrantEdge scale) (degree * 2 ^ scale) stream
    apply (rename_yields hnames fun e he => hdrawn e (Array.mem_toList_iff.mp he)).mono
    intro edges hedges
    rw [hedges.1, Array.length_toList, hsize]
    exact ⟨rfl, hedges.2⟩

namespace EdgePattern

/-- The edges of either pattern are as many as asked for, and fit the scale. -/
theorem edges_yields (pattern : EdgePattern) (hscale : scale ≤ 31) :
    Yields (pattern.edges scale degree seed) fun edges =>
      edges.length = degree * 2 ^ scale ∧ ∀ e ∈ edges, Fits (2 ^ scale) e := by
  cases pattern with
  | uniform => exact (uniformEdges_yields hscale).mapError
  | recursiveMatrix => exact kroneckerEdges_yields hscale

/-- So are the edges of a list that an array can hold. -/
theorem edges?_yields (pattern : EdgePattern) (seed : UInt64) (hscale : scale ≤ 31)
    (hroom : degree * 2 ^ scale * 12 < 2 ^ 63) :
    Yields (pattern.edges? scale degree seed) fun edges =>
      edges.length = degree * 2 ^ scale ∧ ∀ e ∈ edges, Fits (2 ^ scale) e := by
  have hfits : ¬ maxArrayBytes < degree * 2 ^ scale * edgeBytes := by
    rw [maxArrayBytes, edgeBytes]
    omega
  rw [edges?, verticesOfScale_eq hscale, Except.mapError, ok_bind, requireRoom, if_neg hfits]
  exact pattern.edges_yields hscale

/-- A longer list of edges is none. -/
theorem edges?_eq_tooLarge (pattern : EdgePattern) (hscale : scale ≤ 31)
    (hlong : 2 ^ 63 ≤ degree * 2 ^ scale * 12) :
    pattern.edges? scale degree seed = .error (.fault .tooLarge) := by
  have hpast : maxArrayBytes < degree * 2 ^ scale * edgeBytes := by
    rw [maxArrayBytes, edgeBytes]
    omega
  rw [edges?, verticesOfScale_eq hscale, Except.mapError, ok_bind, requireRoom, if_pos hpast]
  rfl

/-- Up to the largest scale, and as long as an array can hold them, a pattern has as many edges as it is asked for.
They join vertices of the scale, with weights from 1 to 255, and make a graph, directed or not and squished or not,
with as many vertices as the scale has, or with no more than that where the count is inferred. -/
theorem edges?_buildable (pattern : EdgePattern) (scale degree : Nat) (seed : UInt64) (hscale : scale ≤ 31)
    (hroom : degree * 2 ^ scale * 12 < 2 ^ 63) :
    ∃ edges, pattern.edges? scale degree seed = .ok edges ∧ edges.length = degree * 2 ^ scale ∧
      (∀ e ∈ edges, Fits (2 ^ scale) e) ∧ ∀ directed squish,
        (∃ g, Graph.build ⟨directed, squish, some (2 ^ scale)⟩ edges = .ok g ∧
          g.directed = directed ∧ g.numVertices = 2 ^ scale) ∧
        ∃ g, Graph.build ⟨directed, squish, none⟩ edges = .ok g ∧
          g.directed = directed ∧ g.numVertices ≤ 2 ^ scale := by
  obtain ⟨edges, hedges, hlength, hfits⟩ := pattern.edges?_yields seed hscale hroom
  have hbound : endpointBound edges ≤ 2 ^ scale :=
    endpointBound_le_iff.mpr fun e he => ⟨(hfits e he).source_lt, (hfits e he).target_lt⟩
  have hmax : 2 ^ scale ≤ maxVertices := by
    have hpow : 2 ^ scale ≤ 2 ^ 31 := Nat.pow_le_pow_right Nat.two_pos hscale
    rw [maxVertices]
    omega
  refine ⟨edges, hedges, hlength, hfits, fun directed squish => ⟨?_, ?_⟩⟩
  · exact Graph.build_yields (BuildOptions.vertexCount_eq_ok_iff.mpr ⟨rfl, hbound, hmax⟩)
  · have hcount : BuildOptions.vertexCount ⟨directed, squish, none⟩ edges = .ok (endpointBound edges) :=
      BuildOptions.vertexCount_eq_ok_iff.mpr ⟨rfl, Nat.le_refl _, hbound.trans hmax⟩
    apply (Graph.build_yields hcount).mono
    intro g hg
    obtain ⟨hdirected, hn⟩ := hg
    exact ⟨hdirected, hn.symm ▸ hbound⟩

/-- Recursive-matrix edges at the largest scale, whose vertices use all 31 places. -/
theorem edges?_buildable_largest :
    ∃ edges, recursiveMatrix.edges? 31 16 7 = .ok edges ∧ edges.length = 16 * 2 ^ 31 ∧
      ∃ g, Graph.build ⟨false, true, some (2 ^ 31)⟩ edges = .ok g ∧ g.numVertices = 2 ^ 31 := by
  obtain ⟨edges, hedges, hlength, -, hbuild⟩ :=
    edges?_buildable recursiveMatrix 31 16 7 (by decide) (by decide)
  obtain ⟨⟨g, hg, -, hn⟩, -⟩ := hbuild false true
  exact ⟨edges, hedges, hlength, g, hg, hn⟩

/-- As many edges as fit a 64-bit word are more than fit an array. -/
theorem beyond_any_list_refused :
    ¬ ∀ (pattern : EdgePattern) (scale degree : Nat) (seed : UInt64), scale ≤ 31 → degree * 2 ^ scale < 2 ^ 64 →
      ∃ edges, pattern.edges? scale degree seed = .ok edges ∧ edges.length = degree * 2 ^ scale := by
  intro h
  obtain ⟨edges, hedges, -⟩ := h recursiveMatrix 0 768614336404564651 1 (by decide) (by decide)
  rw [edges?_eq_tooLarge recursiveMatrix (by decide) (by decide)] at hedges
  cases hedges

end EdgePattern

end GraphKernels.Random
