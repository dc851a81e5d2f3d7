import GraphKernels.Proofs.Hops.Tree

/-!
# The arc counts of a search

A search turns bottom-up when its frontier has more out-arcs than a share of the open arcs. It keeps both
numbers without looking at the graph again: top-down steps take the counted arcs off the open ones and read
the out-degrees of the next frontier off its marks, and after bottom-up steps the frontier is taken to have
one out-arc. As long as every vertex that is visited has an out-arc, the frontier has at least as many
out-arcs as it is taken to have, and the open arcs cover those of the unvisited vertices and of the
frontier. So there are never fewer than no open arcs, and a search whose frontier may have all of them never
turns.
-/

namespace GraphKernels

/-- The number of out-arcs of the unvisited vertices. -/
def Graph.unvisitedArcs (g : Graph) (marks : Array Int) : Nat := ∑ v ∈ unvisited marks, (g.targets v).length

/-- The number of out-arcs of some vertices. -/
def Graph.arcsOf (g : Graph) (items : List Nat) : Nat := (items.map fun v => (g.targets v).length).sum

/-- The mark of every unvisited vertex is that of its out-degree. -/
def MarksDegrees (g : Graph) (marks : Array Int) : Prop :=
  ∀ v ∈ unvisited marks, marks.getD v 0 = unvisitedMark (g.targets v).length

variable {g : Graph} {source d v : Nat} {p : SearchParameters} {marks : Array Int} {items window : List Nat}

/-- The marks of vertices with out-arcs add up to the number of these arcs, below zero. -/
theorem MarksDegrees.neg_sum_marks (h : MarksDegrees g marks)
    (hitems : ∀ v ∈ items, v ∈ unvisited marks ∧ ∃ w, g.HasArc v w) :
    -(items.map (marks.getD · 0)).sum = (g.arcsOf items : Int) := by
  have hmark (v : Nat) (hv : v ∈ items) : -marks.getD v 0 = ((g.targets v).length : Int) := by
    obtain ⟨hunvisited, w, harc⟩ := hitems v hv
    rw [h v hunvisited, unvisitedMark, if_neg (List.length_pos_of_mem harc).ne', neg_neg]
  calc -(items.map (marks.getD · 0)).sum = (items.map fun v => -marks.getD v 0).sum := by
        rw [List.sum_neg, List.map_map]
        rfl
    _ = (items.map fun v => ((g.targets v).length : Int)).sum := by rw [List.map_congr_left hmark]
    _ = (g.arcsOf items : Int) := by
        rw [Graph.arcsOf, Nat.cast_list_sum, List.map_map]
        rfl

/-- Some vertices with out-arcs have an out-arc together. -/
theorem Graph.arcsOf_pos (hne : items ≠ []) (hitems : ∀ v ∈ items, ∃ w, g.HasArc v w) :
    0 < g.arcsOf items := by
  obtain ⟨v, hv⟩ := List.exists_mem_of_ne_nil items hne
  obtain ⟨w, harc⟩ := hitems v hv
  have hmem : (g.targets v).length ∈ items.map fun v => (g.targets v).length :=
    List.mem_map.mpr ⟨v, hv, rfl⟩
  exact (List.length_pos_of_mem harc).trans_le (List.le_sum_of_mem hmem)

/-- A search reaches a level, and its marks are out-degrees where they are not parents. -/
def ReachedMarked (g : Graph) (source d : Nat) (marks : Array Int) (members : Nat → Prop) : Prop :=
  ReachedLevel g source d marks members ∧ MarksDegrees g marks

/-- Filling marks leaves those of the vertices that stay unvisited alone. -/
theorem levelInvariant_reachedMarked (hwell : g.WellFormed) (hmirrored : g.Mirrored)
    (hsource : source < g.numVertices) : LevelInvariant g (ReachedMarked g source) := by
  apply (levelInvariant_reachedLevel hwell hmirrored hsource).and
  intro d before after members awake arcs _ hmarks _ hfills v hv
  rw [hfills.kept v (hfills.notMem_of_neg (mem_unvisited.mp hv))]
  exact hmarks v (hfills.narrows.subset hv)

/-- In a mirrored undirected graph every vertex that can be reached from another one has an out-arc. -/
theorem Graph.Reachable.exists_hasArc (hwell : g.WellFormed) (hmirrored : g.Mirrored)
    (hundirected : g.directed = false) (hne : v ≠ source) (hv : g.Reachable source v) :
    ∃ w, g.HasArc v w := by
  rcases Relation.ReflTransGen.cases_tail hv with heq | ⟨u, _, harc⟩
  · exact absurd heq hne
  · exact ⟨u, hmirrored.hasArc_symm hwell hundirected harc⟩

namespace Search

variable {s next last : Search}

/-- The open arcs cover the out-arcs of the unvisited vertices and of the window, and a window that is not
empty has the arcs that it is taken to have. If it may have all open arcs, all steps have been top-down. -/
structure Balanced (g : Graph) (p : SearchParameters) (window : List Nat) (s : Search) : Prop where
  covered : (g.unvisitedArcs s.parents : Int) + g.arcsOf window ≤ s.openArcs
  scoutCount_nonneg : 0 ≤ s.scoutCount
  scoutCount_le : window ≠ [] → s.scoutCount ≤ g.arcsOf window
  pushed : p.alpha = 1 → ∀ e ∈ s.events, ∃ frontier scoutCount, e = .levelPushed frontier scoutCount

/-- A step keeps the balance. Both kinds of steps leave the out-arcs of the next window among those of the
vertices that were unvisited before. -/
theorem Balanced.advance (h : s.Balanced g p window) (hrests : s.Rests g (ReachedMarked g source) d window)
    (hwindow : window ≠ []) (hwell : g.WellFormed) (hmirrored : g.Mirrored)
    (hsource : source < g.numVertices) (halpha : 1 ≤ p.alpha) (hbeta : 1 ≤ p.beta)
    (hout : ∀ v, v ≠ source → g.Reachable source v → ∃ w, g.HasArc v w) :
    Yields (s.advance g p) fun next => ∃ d' items, next.Rests g (ReachedMarked g source) d' items ∧
      next.Balanced g p items := by
  apply (advance_yields hrests hwell (levelInvariant_reachedMarked hwell hmirrored hsource) halpha hbeta
    hwindow).mono
  intro next hnext
  obtain ⟨d', items, hrests', hnarrows, hcounts⟩ := hnext
  have hvisited := hrests.holds.1.1.source_notMem
  have harcs (v : Nat) (hv : v ∈ items) : ∃ w, g.HasArc v w := by
    apply hout v
    · rintro rfl
      exact hvisited (hnarrows.mem v hv).1
    · exact Graph.reachable_iff_exists_atDepth.mpr ⟨d', (hrests'.holds.1.2 v).mp hv⟩
  have hsum : g.unvisitedArcs next.parents + g.arcsOf items ≤ g.unvisitedArcs s.parents :=
    hnarrows.sum_le hrests'.nodup fun v => (g.targets v).length
  have hcovered := h.covered
  have hscout := h.scoutCount_le hwindow
  refine ⟨d', items, hrests', ?_⟩
  rw [Counts] at hcounts
  by_cases hturn : s.openArcs.tdiv p.alpha < s.scoutCount
  · rw [if_pos hturn] at hcounts
    obtain ⟨hopen, hcount⟩ := hcounts
    exact {
      covered := by omega
      scoutCount_nonneg := by omega
      scoutCount_le := fun hne => by
        have := Graph.arcsOf_pos hne harcs
        omega
      pushed := fun hone => by
        rw [hone, Nat.cast_one, Int.tdiv_one] at hturn
        omega }
  · rw [if_neg hturn] at hcounts
    obtain ⟨hopen, hcount, hevents⟩ := hcounts
    rw [hrests.holds.2.neg_sum_marks fun v hv => ⟨(hnarrows.mem v hv).1, harcs v hv⟩] at hcount
    exact {
      covered := by omega
      scoutCount_nonneg := by omega
      scoutCount_le := fun _ => hcount.le
      pushed := fun hone e he => by
        rw [hevents, Array.mem_push] at he
        rcases he with he | rfl
        · exact h.pushed hone e he
        · exact ⟨_, _, rfl⟩ }

/-- The arcs of the source and of the unvisited vertices are not more than all arcs. -/
theorem unvisitedArcs_add_le (hwell : g.WellFormed) (hsource : source < g.numVertices)
    (hsize : marks.size = g.numVertices) (hvisited : source ∉ unvisited marks) :
    g.unvisitedArcs marks + g.arcsOf [source] ≤ g.numArcs := by
  have hsubset : insert source (unvisited marks) ⊆ Finset.range g.numVertices := by
    rw [Finset.insert_subset_iff, ← hsize]
    exact ⟨Finset.mem_range.mpr (hsize ▸ hsource), Finset.filter_subset _ _⟩
  have hall : ∑ v ∈ Finset.range g.numVertices, (g.targets v).length = g.numArcs := by
    rw [← hwell.sum_length_targets]
    rfl
  calc g.unvisitedArcs marks + g.arcsOf [source] =
        ∑ v ∈ insert source (unvisited marks), (g.targets v).length := by
        rw [Finset.sum_insert hvisited, Nat.add_comm, Graph.arcsOf, List.map_singleton, List.sum_singleton]
        rfl
    _ ≤ g.numArcs := hall ▸ Finset.sum_le_sum_of_subset hsubset

/-- A search starts in balance. -/
theorem start_balanced (hwell : g.WellFormed) (hsource : source < g.numVertices) (p : SearchParameters) :
    Yields (start g source) fun s => s.Rests g (ReachedMarked g source) 0 [source] ∧
      s.Balanced g p [source] := by
  have hstart : Yields (start g source) fun s => s.Rests g (ReachedMarked g source) 0 [source] ∧
      (unvisited s.parents).card < g.numVertices ∧ s.openArcs = g.numArcs ∧
      s.scoutCount = (g.targets source).length ∧ s.events = #[] := by
    apply start_rests hwell hsource
    intro marks hsize hself hother
    refine ⟨reachedLevel_ofSource hsize hself hother, fun v hv => ?_⟩
    rw [unvisited, Finset.mem_filter, Finset.mem_range, hsize] at hv
    apply hother v _ hv.1
    rintro rfl
    omega
  apply hstart.mono
  intro s hs
  obtain ⟨hrests, _, hopen, hscout, hevents⟩ := hs
  have hreached := hrests.holds.1.1
  have hcovered := unvisitedArcs_add_le hwell hsource hreached.size_eq hreached.source_notMem
  have hsingle : g.arcsOf [source] = (g.targets source).length := by
    rw [Graph.arcsOf, List.map_singleton, List.sum_singleton]
  refine ⟨hrests, ?_⟩
  exact {
    covered := by omega
    scoutCount_nonneg := by omega
    scoutCount_le := fun _ => by omega
    pushed := fun _ e he => by simp [hevents] at he }

/-- The states in which a search tests whether its frontier is empty. -/
inductive Passes (g : Graph) (source : Nat) (p : SearchParameters) : Search → Prop
  | start {s : Search} (hstart : start g source = .ok s) : Passes g source p s
  | advance {s next : Search} (h : Passes g source p s) (hmore : s.queue.isEmpty = false)
      (hadvance : s.advance g p = .ok next) : Passes g source p next

/-- A run that starts in such a state ends in one, with an empty frontier. -/
theorem Passes.run {fuel : Nat} (h : Passes g source p s) (hrun : run g p fuel s = .ok last) :
    Passes g source p last ∧ last.queue.isEmpty = true := by
  induction fuel generalizing s with
  | zero =>
    rw [Search.run] at hrun
    split at hrun
    · next hempty =>
      cases hrun
      exact ⟨h, hempty⟩
    · cases hrun
  | succ fuel ih =>
    rw [Search.run] at hrun
    split at hrun
    · next hempty =>
      cases hrun
      exact ⟨h, hempty⟩
    · next hmore =>
      obtain ⟨next, hadvance, hrun⟩ := bind_eq_ok_iff.mp hrun
      exact ih (h.advance (by simpa using hmore) hadvance) hrun

/-- Only a search from a vertex starts. -/
theorem Passes.source_lt (h : Passes g source p s) (hwell : g.WellFormed) : source < g.numVertices := by
  induction h with
  | start hstart =>
    obtain ⟨_, _, hstart⟩ := bind_eq_ok_iff.mp hstart
    rw [unvisitedMarks_eq hwell, ok_bind] at hstart
    obtain ⟨parents, hwrite, _⟩ := bind_eq_ok_iff.mp hstart
    simpa [Graph.vertices] using lt_size_of_writeAt hwrite
  | advance _ _ _ ih => exact ih

/-- Every state of a search is in balance if all vertices that can be reached have out-arcs. -/
theorem Passes.balanced (h : Passes g source p s) (hwell : g.WellFormed) (hmirrored : g.Mirrored)
    (halpha : 1 ≤ p.alpha) (hbeta : 1 ≤ p.beta)
    (hout : ∀ v, v ≠ source → g.Reachable source v → ∃ w, g.HasArc v w) :
    ∃ d window, s.Rests g (ReachedMarked g source) d window ∧ s.Balanced g p window := by
  have hsource := h.source_lt hwell
  induction h with
  | start hstart =>
    exact ⟨0, [source], (start_balanced hwell hsource p).of_eq hstart⟩
  | advance _ hmore hadvance ih =>
    obtain ⟨d, window, hrests, hbalanced⟩ := ih
    have hwindow : window ≠ [] := by
      intro hempty
      rw [hrests.shows.isEmpty_iff.mpr hempty] at hmore
      cases hmore
    exact (hbalanced.advance hrests hwindow hwell hmirrored hsource halpha hbeta hout).of_eq hadvance

end Search

/-- A search that ends, ends in one of its states, with an empty frontier. -/
theorem Search.Passes.searchFrom {s : Search} (hs : g.searchFrom source p = .ok s) :
    Search.Passes g source p s ∧ s.queue.isEmpty = true := by
  rw [Graph.searchFrom] at hs
  obtain ⟨first, hfirst, hrun⟩ := bind_eq_ok_iff.mp hs
  exact (Search.Passes.start hfirst).run hrun

/-- In every state of a search of a built graph the open arcs cover the out-arcs of the unvisited vertices
and of the window, and the window has the out-arcs that it is taken to have, provided that all vertices
other than the source that can be reached have out-arcs, as they have in an undirected graph. The search ends
in such a state, and with a first threshold of one it never takes a bottom-up step. -/
theorem search_openArcs_cover {o : BuildOptions} {edges : List Edge} (hbuild : Graph.build o edges = .ok g)
    (halpha : 1 ≤ p.alpha) (hbeta : 1 ≤ p.beta)
    (hout : g.directed = false ∨ ∀ v, v ≠ source → g.Reachable source v → ∃ w, g.HasArc v w) :
    (∀ s, Search.Passes g source p s → ∃ window, s.queue.window = .ok window ∧
      (g.unvisitedArcs s.parents : Int) + g.arcsOf window ≤ s.openArcs ∧ 0 ≤ s.openArcs ∧
      (window ≠ [] → 0 ≤ s.scoutCount ∧ s.scoutCount ≤ g.arcsOf window)) ∧
    (source < g.numVertices → ∃ last events, g.searchFrom source p = .ok last ∧
      Search.Passes g source p last ∧ last.queue.isEmpty = true ∧
      g.hopTree source p = .ok ⟨last.tree, events⟩ ∧
      (p.alpha = 1 → ∀ awake, Event.levelPulled awake ∉ events)) := by
  have hwell := Graph.wellFormed_build hbuild
  have hmirrored := Graph.mirrored_build hbuild
  have harcs : ∀ v, v ≠ source → g.Reachable source v → ∃ w, g.HasArc v w := by
    rcases hout with hundirected | harcs
    · exact fun v hne hv => hv.exists_hasArc hwell hmirrored hundirected hne
    · exact harcs
  refine ⟨fun s hs => ?_, fun hsource => ?_⟩
  · obtain ⟨d, window, hrests, hbalanced⟩ := hs.balanced hwell hmirrored halpha hbeta harcs
    have hcovered := hbalanced.covered
    exact ⟨window, hrests.shows.window_eq, hcovered, by omega,
      fun hne => ⟨hbalanced.scoutCount_nonneg, hbalanced.scoutCount_le hne⟩⟩
  · obtain ⟨last, hlast, _⟩ := Graph.searchFrom_yields hwell hsource halpha hbeta
    obtain ⟨hpasses, hempty⟩ := Search.Passes.searchFrom hlast
    obtain ⟨d, window, _, hbalanced⟩ := hpasses.balanced hwell hmirrored halpha hbeta harcs
    refine ⟨last, _, hlast, hpasses, hempty, Graph.hopTree_eq hsource halpha hbeta hlast, ?_⟩
    intro hone awake hpulled
    -- The summary behind the events is not a step.
    rcases List.mem_append.mp hpulled with hstep | hsummary
    · obtain ⟨_, _, heq⟩ := hbalanced.pushed hone _ (Array.mem_toList_iff.mp hstep)
      cases heq
    · cases List.mem_singleton.mp hsummary

/-- An undirected star with a loop at one of its leaves, searched with a first threshold of one. -/
theorem search_openArcs_cover_star :
    ∃ g, Graph.build { directed := false } [⟨0, 1, 1⟩, ⟨0, 2, 1⟩, ⟨3, 0, 1⟩, ⟨3, 3, 2⟩] = .ok g ∧
      (∀ s, Search.Passes g 0 ⟨1, 18⟩ s → ∃ window, s.queue.window = .ok window ∧
        (g.unvisitedArcs s.parents : Int) + g.arcsOf window ≤ s.openArcs ∧ 0 ≤ s.openArcs ∧
        (window ≠ [] → 0 ≤ s.scoutCount ∧ s.scoutCount ≤ g.arcsOf window)) ∧
      ∃ last events, g.searchFrom 0 ⟨1, 18⟩ = .ok last ∧ Search.Passes g 0 ⟨1, 18⟩ last ∧
        last.queue.isEmpty = true ∧ g.hopTree 0 ⟨1, 18⟩ = .ok ⟨last.tree, events⟩ ∧
        ∀ awake, Event.levelPulled awake ∉ events := by
  refine ⟨_, rfl, ?_⟩
  have hbuild : Graph.build { directed := false }
      [⟨0, 1, 1⟩, ⟨0, 2, 1⟩, ⟨3, 0, 1⟩, ⟨3, 3, 2⟩] = .ok _ := rfl
  refine And.imp_right (fun hends => ?_)
    (search_openArcs_cover hbuild (by decide) (by decide) (.inl rfl))
  obtain ⟨last, events, hlast, hpasses, hempty, hanswer, hpushes⟩ := hends (by decide)
  exact ⟨last, events, hlast, hpasses, hempty, hanswer, hpushes rfl⟩

end GraphKernels
