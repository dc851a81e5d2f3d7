import GraphKernels.Centrality.Sources
import GraphKernels.Proofs.Graph.Build
import GraphKernels.Proofs.Random.Draw

/-!
# Drawing sources

A graph with an arc has a source to offer, so drawing one never fails, and what is drawn are vertices. Draws have a
bound, and as long as they keep below it they give what they would give without one.
-/

namespace GraphKernels

variable {g : Graph}

/-- A graph with an arc has a vertex with a target. -/
theorem Graph.exists_source (hwell : g.WellFormed) (harcs : g.numArcs ≠ 0) :
    ∃ v < g.numVertices, (g.targets v).length ≠ 0 := by
  by_contra hnone
  apply harcs
  have hempty : (List.range g.numVertices).flatMap g.forward.rowTargets = [] := by
    rw [List.flatMap_eq_nil_iff]
    intro v hv
    by_contra hne
    exact hnone ⟨v, List.mem_range.mp hv, fun hlength => hne (List.length_eq_zero_iff.mp hlength)⟩
  rw [numArcs, ← Array.length_toList, ← hwell.forward.flatMap_rowTargets, hempty, List.length_nil]

/-- The smallest source of a graph with an arc is found. -/
theorem Graph.smallestSource?_yields (hwell : g.WellFormed) (harcs : g.numArcs ≠ 0) :
    ∃ source < g.numVertices, g.smallestSource? = .ok (some source) := by
  have hfind : g.smallestSource? = .ok (g.vertices.find? fun v => decide ((g.targets v).length ≠ 0)) := by
    apply findM?_eq_find?
    intro v hv
    rw [hwell.outDegree_eq (List.mem_range.mp hv)]
    rfl
  cases hfound : g.vertices.find? fun v => decide ((g.targets v).length ≠ 0) with
  | some source =>
    exact ⟨source, List.mem_range.mp (List.mem_of_find?_eq_some hfound), hfound ▸ hfind⟩
  | none =>
    obtain ⟨v, hv, hlength⟩ := exists_source hwell harcs
    exact absurd (List.find?_eq_none.mp hfound v (List.mem_range.mpr hv)) (by simp [hlength])

/-- A drawn vertex is taken when it has an out-arc, and otherwise another one is drawn. -/
theorem drawSource_succ (hwell : g.WellFormed) (harcs : g.numArcs ≠ 0) (fuel : Nat) (stream : Random.Stream) :
    drawSource g (fuel + 1) stream =
      if (g.targets ((Random.below g.numVertices).run stream).1).length ≠ 0 then
        .ok ((Random.below g.numVertices).run stream)
      else drawSource g fuel ((Random.below g.numVertices).run stream).2 := by
  obtain ⟨v, hv, _⟩ := Graph.exists_source hwell harcs
  have hcandidate := Random.below_lt (Nat.zero_lt_of_lt hv) stream
  rw [drawSource]
  generalize (Random.below g.numVertices).run stream = drawn at *
  change (do if (← g.outDegree drawn.1) ≠ 0 then return drawn else drawSource g fuel drawn.2) = _
  rw [hwell.outDegree_eq hcandidate, ok_bind]
  rfl

/-- Drawing a source of a graph with an arc gives a vertex, whatever the words of the stream are. -/
theorem drawSource_yields (hwell : g.WellFormed) (harcs : g.numArcs ≠ 0) (fuel : Nat)
    (stream : Random.Stream) :
    Yields (drawSource g fuel stream) fun drawn => drawn.1 < g.numVertices := by
  induction fuel generalizing stream with
  | zero =>
    obtain ⟨source, hsource, hfound⟩ := Graph.smallestSource?_yields hwell harcs
    rw [drawSource, hfound, ok_bind]
    exact .ok hsource
  | succ fuel ih =>
    obtain ⟨v, hv, _⟩ := Graph.exists_source hwell harcs
    rw [drawSource_succ hwell harcs]
    split
    · exact .ok (Random.below_lt (Nat.zero_lt_of_lt hv) stream)
    · exact ih _

/-- A source is drawn without a bound on the number of vertices that are rejected because they have no out-arc. Each
vertex is drawn without a bound too, but rejects no more words than a draw has patience for. -/
def DrawsSource (g : Graph) (rejected : Nat) (stream : Random.Stream) (drawn : Nat × Random.Stream) : Prop :=
  Random.Repeated
    (fun s vertex => ∃ words ≤ Random.drawPatience,
      Random.DrawnBelow 32 (UInt32.toNat <$> Random.nextWord) g.numVertices words s vertex)
    (fun v => (g.targets v).length ≠ 0) rejected stream drawn

/-- Drawing with fuel gives what drawing without a bound gives, unless that rejects as many vertices as there is
fuel. -/
theorem drawSource_eq (hwell : g.WellFormed) (harcs : g.numArcs ≠ 0) {rejected fuel : Nat} {stream : Random.Stream}
    {drawn : Nat × Random.Stream} (h : DrawsSource g rejected stream drawn) (hfuel : rejected < fuel) :
    drawSource g fuel stream = .ok drawn := by
  have hvertex {s : Random.Stream} {vertex : Nat × Random.Stream}
      (hdraw : ∃ words ≤ Random.drawPatience,
        Random.DrawnBelow 32 (UInt32.toNat <$> Random.nextWord) g.numVertices words s vertex) :
      (Random.below g.numVertices).run s = vertex := by
    obtain ⟨words, hwords, hbelow⟩ := hdraw
    exact Random.drawBelow_eq hbelow hwords
  rw [DrawsSource] at h
  induction h generalizing fuel with
  | stop hdraw haccepted =>
    obtain ⟨fuel, rfl⟩ := Nat.exists_eq_add_of_lt hfuel
    rw [drawSource_succ hwell harcs, hvertex hdraw, if_pos haccepted]
  | @again k s first last hdraw hrejected _ ih =>
    obtain ⟨fuel, rfl⟩ := Nat.exists_eq_succ_of_ne_zero (Nat.ne_zero_of_lt hfuel)
    rw [drawSource_succ hwell harcs, hvertex hdraw, if_neg hrejected]
    exact ih (Nat.lt_of_succ_lt_succ hfuel)

/-- Picking several sources of a graph with an arc adds vertices to those picked before. -/
theorem pickSources_yields (hwell : g.WellFormed) (harcs : g.numArcs ≠ 0) (count : Nat)
    (stream : Random.Stream) {picked : List (Option Nat)}
    (hpicked : ∀ v, some v ∈ picked → v < g.numVertices) :
    Yields (pickSources g none count stream picked) fun picks =>
      ∀ v, some v ∈ picks → v < g.numVertices := by
  induction count generalizing stream picked with
  | zero => exact .ok fun v hv => hpicked v (List.mem_reverse.mp hv)
  | succ count ih =>
    have hnext : Yields (nextSource? g none stream) fun drawn =>
        ∀ v, drawn.1 = some v → v < g.numVertices := by
      rw [nextSource?, if_neg harcs]
      apply (drawSource_yields hwell harcs g.drawBound stream).bind
      intro drawn hsource
      exact .ok fun v hv => Option.some.inj hv ▸ hsource
    rw [pickSources]
    apply hnext.bind
    intro drawn hsource
    apply ih
    intro v hv
    rcases List.mem_cons.mp hv with hv | hv
    · exact hsource v hv.symm
    · exact hpicked v hv

/-- A sample of sources is a list of vertices. -/
theorem Graph.sampleSources_yields (hwell : g.WellFormed) (count : Nat) (seed : UInt64) :
    Yields (g.sampleSources count seed) fun sources => ∀ v ∈ sources, v < g.numVertices := by
  rw [sampleSources]
  by_cases harcs : g.numArcs = 0
  · rw [if_pos harcs]
    exact .ok fun v hv => by simp at hv
  · rw [if_neg harcs]
    apply (pickSources_yields hwell harcs count (.ofSeed seed) fun v hv => by simp at hv).bind
    intro picks hpicked
    exact .ok fun v hv => hpicked v (by simpa using hv)

end GraphKernels
