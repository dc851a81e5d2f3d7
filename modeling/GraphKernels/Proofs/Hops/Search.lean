import GraphKernels.Proofs.Graph.Level
import GraphKernels.Proofs.Hops.Level

/-!
# Direction-optimizing search finds shortest paths

What a search has found between two levels is a condition on its depth, its marks and its frontier that a
step in either direction hands on to the next level. That the search ends, and that its queue has room
for all vertices that are still to come, needs no more of the graph than compressed rows: as long as the
frontier is not empty every step leaves fewer vertices unvisited. In a mirrored graph the condition can be
that exactly the vertices down to some depth are visited, and that the frontier is that depth.
-/

namespace GraphKernels

variable {g : Graph} {source d v : Nat}

/-- The marks visit exactly the vertices down to some depth, and every visited vertex but the source has
a parent one level up. -/
structure Reached (g : Graph) (source d : Nat) (marks : Array Int) : Prop where
  size_eq : marks.size = g.numVertices
  visited_iff : ∀ v < g.numVertices, 0 ≤ marks.getD v 0 ↔ ∃ k ≤ d, g.AtDepth source k v
  source_eq : marks.getD source 0 = source
  parent : ∀ v < g.numVertices, v ≠ source → 0 ≤ marks.getD v 0 →
    ∃ p k : Nat, marks.getD v 0 = p ∧ g.HasArc p v ∧ g.AtDepth source k p ∧ g.AtDepth source (k + 1) v

/-- Marks that visit only the source reach depth zero. -/
theorem Reached.ofSource {marks : Array Int} (hsize : marks.size = g.numVertices)
    (hself : marks.getD source 0 = source)
    (hother : ∀ v, v ≠ source → v < g.numVertices → marks.getD v 0 < 0) :
    Reached g source 0 marks where
  size_eq := hsize
  visited_iff v hv := by
    by_cases hne : v = source
    · subst hne
      exact ⟨fun _ => ⟨0, Nat.le_refl 0, Graph.AtDepth.zero_iff.mpr rfl⟩, fun _ => by omega⟩
    · have := hother v hne hv
      refine ⟨fun hvisited => by omega, fun ⟨k, hk, hdepth⟩ => ?_⟩
      rw [Nat.le_zero.mp hk, Graph.AtDepth.zero_iff] at hdepth
      exact absurd hdepth hne
  source_eq := hself
  parent v hv hne hvisited := by
    have := hother v hne hv
    omega

/-- The source is visited. -/
theorem Reached.source_notMem {marks : Array Int} (h : Reached g source d marks) :
    source ∉ unvisited marks := by
  rw [mem_unvisited, h.source_eq]
  omega

/-- Filling marks along the arcs that leave a level visits exactly the next level. -/
theorem Reached.mem_awake_iff {before after : Array Int} {awake : List Nat}
    (h : Reached g source d before) (hwell : g.WellFormed)
    (hfills : Fills (fun u v => g.AtDepth source d u ∧ g.HasArc u v) before after awake) (v : Nat) :
    v ∈ awake ↔ g.AtDepth source (d + 1) v := by
  rw [hfills.mem_iff, mem_unvisited]
  constructor
  · intro ⟨hmark, u, hu, harc⟩
    obtain ⟨k, hk, hdepth⟩ := hu.exists_le harc
    have hlate : ¬ k ≤ d := by
      intro hle
      have := (h.visited_iff v (hwell.lt_of_hasArc' harc)).mpr ⟨k, hle, hdepth⟩
      omega
    rwa [show d + 1 = k by omega]
  · intro hv
    obtain ⟨u, hu, harc⟩ := hv.exists_parent
    refine ⟨?_, u, hu, harc⟩
    by_contra hmark
    obtain ⟨k, hk, hdepth⟩ := (h.visited_iff v (hwell.lt_of_hasArc' harc)).mp (by omega)
    have := hdepth.unique hv
    omega

/-- Filling marks along the arcs that leave a level reaches one level further. -/
theorem Reached.fill {before after : Array Int} {awake : List Nat} (h : Reached g source d before)
    (hwell : g.WellFormed)
    (hfills : Fills (fun u v => g.AtDepth source d u ∧ g.HasArc u v) before after awake) :
    Reached g source (d + 1) after where
  size_eq := hfills.size_eq.trans h.size_eq
  visited_iff v hv := by
    by_cases hawake : v ∈ awake
    · obtain ⟨u, _, hparent⟩ := hfills.claimed v hawake
      have hdepth := (h.mem_awake_iff hwell hfills v).mp hawake
      exact ⟨fun _ => ⟨d + 1, Nat.le_refl _, hdepth⟩, fun _ => by omega⟩
    · rw [hfills.kept v hawake, h.visited_iff v hv]
      constructor
      · intro ⟨k, hk, hdepth⟩
        exact ⟨k, by omega, hdepth⟩
      · intro ⟨k, hk, hdepth⟩
        have hne : k ≠ d + 1 := by
          intro heq
          exact hawake ((h.mem_awake_iff hwell hfills v).mpr (heq ▸ hdepth))
        exact ⟨k, by omega, hdepth⟩
  source_eq := by
    have hasleep : source ∉ awake := by
      intro hawake
      have hzero : g.AtDepth source 0 source := Graph.AtDepth.zero_iff.mpr rfl
      have := ((h.mem_awake_iff hwell hfills source).mp hawake).unique hzero
      omega
    rw [hfills.kept source hasleep, h.source_eq]
  parent v hv hne hmark := by
    by_cases hawake : v ∈ awake
    · obtain ⟨u, ⟨hu, harc⟩, hparent⟩ := hfills.claimed v hawake
      exact ⟨u, d, hparent, harc, hu, (h.mem_awake_iff hwell hfills v).mp hawake⟩
    · rw [hfills.kept v hawake] at hmark ⊢
      exact h.parent v hv hne hmark

/-- There are at most as many unvisited vertices as vertices. -/
theorem card_unvisited_le (marks : Array Int) : (unvisited marks).card ≤ marks.size :=
  (Finset.card_filter_le _ _).trans_eq (Finset.card_range _)

/-- There are fewer unvisited vertices than vertices once one is visited. -/
theorem card_unvisited_lt {marks : Array Int} (hv : v < marks.size) (hvisited : 0 ≤ marks.getD v 0) :
    (unvisited marks).card < marks.size := by
  have hsubset : unvisited marks ⊂ Finset.range marks.size :=
    Finset.filter_ssubset.mpr ⟨v, Finset.mem_range.mpr hv, by omega⟩
  simpa using Finset.card_lt_card hsubset

/-- A condition on the depth, the marks and the frontier of a search that says enough about them to take a
step in either direction, and that holds again after a step from a frontier with vertices. -/
structure LevelInvariant (g : Graph) (inv : Nat → Array Int → (Nat → Prop) → Prop) : Prop where
  size_eq : ∀ {d marks members}, inv d marks members → marks.size = g.numVertices
  lt_numVertices : ∀ {d marks members v}, inv d marks members → members v → v < g.numVertices
  push : ∀ {d before after members awake}, inv d before members → (∃ u, members u) →
    Fills (fun u v => members u ∧ g.HasArc u v) before after awake → inv (d + 1) after (· ∈ awake)
  pull : ∀ {d before after members awake}, inv d before members → (∃ u, members u) →
    Fills (fun u v => members u ∧ u ∈ g.sources v) before after awake → inv (d + 1) after (· ∈ awake)

/-- What every filling of marks keeps can be added to a condition. -/
theorem LevelInvariant.and {inv extra : Nat → Array Int → (Nat → Prop) → Prop} (h : LevelInvariant g inv)
    (hkeep : ∀ {d before after members awake arcs}, inv d before members → extra d before members →
      (∃ u, members u) → Fills arcs before after awake → extra (d + 1) after (· ∈ awake)) :
    LevelInvariant g fun d marks members => inv d marks members ∧ extra d marks members where
  size_eq hmarks := h.size_eq hmarks.1
  lt_numVertices hmarks := h.lt_numVertices hmarks.1
  push hmarks hfrontier hfills :=
    ⟨h.push hmarks.1 hfrontier hfills, hkeep hmarks.1 hmarks.2 hfrontier hfills⟩
  pull hmarks hfrontier hfills :=
    ⟨h.pull hmarks.1 hfrontier hfills, hkeep hmarks.1 hmarks.2 hfrontier hfills⟩

/-- The marks reach some depth, and the frontier is that depth. -/
def ReachedLevel (g : Graph) (source d : Nat) (marks : Array Int) (members : Nat → Prop) : Prop :=
  Reached g source d marks ∧ ∀ v, members v ↔ g.AtDepth source d v

/-- In a mirrored graph a step in either direction reaches the next level. -/
theorem levelInvariant_reachedLevel (hwell : g.WellFormed) (hmirrored : g.Mirrored)
    (hsource : source < g.numVertices) : LevelInvariant g (ReachedLevel g source) where
  size_eq h := h.1.size_eq
  lt_numVertices h hv := ((h.2 _).mp hv).lt_numVertices hwell hsource
  push := by
    intro d before after members awake ⟨hreached, hmembers⟩ _ hfills
    have hdepth := hfills.congr fun u v => and_congr_left' (hmembers u)
    exact ⟨hreached.fill hwell hdepth, hreached.mem_awake_iff hwell hdepth⟩
  pull := by
    intro d before after members awake ⟨hreached, hmembers⟩ _ hfills
    have hdepth := hfills.congr fun u v => and_congr (hmembers u) (hmirrored.mem_sources_iff hwell)
    exact ⟨hreached.fill hwell hdepth, hreached.mem_awake_iff hwell hdepth⟩

/-- The marks and the frontier are those of the graph, whatever they say about it. -/
def OfGraph (g : Graph) (_ : Nat) (marks : Array Int) (members : Nat → Prop) : Prop :=
  marks.size = g.numVertices ∧ ∀ v, members v → v < g.numVertices

/-- A step in either direction stays in the graph, mirrored or not. -/
theorem levelInvariant_ofGraph (hwell : g.WellFormed) : LevelInvariant g (OfGraph g) where
  size_eq h := h.1
  lt_numVertices h hv := h.2 _ hv
  push := by
    intro d before after members awake ⟨hsize, _⟩ _ hfills
    refine ⟨hfills.size_eq.trans hsize, fun v hv => ?_⟩
    obtain ⟨u, ⟨_, harc⟩, _⟩ := hfills.claimed v hv
    exact hwell.lt_of_hasArc' harc
  pull := by
    intro d before after members awake ⟨hsize, _⟩ _ hfills
    refine ⟨hfills.size_eq.trans hsize, fun v hv => ?_⟩
    obtain ⟨u, ⟨_, hsource⟩, _⟩ := hfills.claimed v hv
    exact hwell.lt_of_mem_sources hsource

namespace Search

variable {inv : Nat → Array Int → (Nat → Prop) → Prop} {s : Search} {frontier items : List Nat}
  {queue : WindowQueue}

/-- A search rests between two levels: what it has found satisfies a condition, its queue shows the
frontier and has room for all unvisited vertices, and its bitmaps have room for all vertices. -/
structure Rests (g : Graph) (inv : Nat → Array Int → (Nat → Prop) → Prop) (d : Nat)
    (frontier : List Nat) (s : Search) : Prop where
  holds : inv d s.parents (· ∈ frontier)
  nodup : frontier.Nodup
  shows : s.queue.Shows frontier
  room : s.queue.tail + (unvisited s.parents).card ≤ s.queue.capacity
  front_room : g.numVertices ≤ s.front.room
  spare_room : g.numVertices ≤ s.spare.room
  levels_eq : s.levels = d

/-- A search between two bottom-up steps: its bitmap holds the frontier, and its queue waits
unchanged. -/
structure Pulls (g : Graph) (inv : Nat → Array Int → (Nat → Prop) → Prop) (d : Nat)
    (queue : WindowQueue) (frontier : List Nat) (s : Search) : Prop where
  holds : inv d s.parents (· ∈ frontier)
  nodup : frontier.Nodup
  front : s.front.Holds g.numVertices (· ∈ frontier)
  spare_room : g.numVertices ≤ s.spare.room
  queue_eq : s.queue = queue
  levels_eq : s.levels = d

/-! ### Runs of bottom-up steps -/

/-- The search after a bottom-up step. -/
def pulled (s : Search) (step : Awakening) : Search :=
  { s with
    parents := step.parents
    front := step.next
    spare := s.front
    levels := s.levels + 1
    events := s.events.push (.levelPulled step.awake) }

/-- A run of bottom-up steps is one step, and more unless it pays to turn back. -/
theorem bottomUp_succ (g : Graph) (beta fuel awake : Nat) (s : Search) :
    bottomUp g beta (fuel + 1) awake s = (do
      let step ← pullLevel g s.parents s.front s.spare
      if step.awake < awake ∧ step.awake ≤ (← quotient g.numVertices beta) then
        return s.pulled step
      else bottomUp g beta fuel step.awake (s.pulled step)) := rfl

/-- One bottom-up step takes a search one level further. -/
theorem pull_yields (h : s.Pulls g inv d queue frontier) (hwell : g.WellFormed)
    (hinv : LevelInvariant g inv) (hfrontier : frontier ≠ []) :
    Yields (pullLevel g s.parents s.front s.spare) fun step => ∃ awake,
      (s.pulled step).Pulls g inv (d + 1) queue awake ∧ awake.length = step.awake ∧
        Narrows s.parents step.parents awake := by
  apply (pullLevel_yields hwell (hinv.size_eq h.holds) h.front h.spare_room).mono
  intro step hstep
  obtain ⟨awake, hfills, hnext, hcount⟩ := hstep
  refine ⟨awake, ?_, hcount.symm, hfills.narrows⟩
  exact {
    holds := hinv.pull h.holds (List.exists_mem_of_ne_nil frontier hfrontier) hfills
    nodup := hfills.nodup
    front := hnext
    spare_room := h.front.room_le
    queue_eq := h.queue_eq
    levels_eq := by rw [pulled, h.levels_eq] }

/-- A run of bottom-up steps that starts with a frontier ends at some level. It can only go on while it
visits vertices, so the number of unvisited ones bounds it. -/
theorem bottomUp_yields {beta fuel awake : Nat} (h : s.Pulls g inv d queue frontier)
    (hwell : g.WellFormed) (hinv : LevelInvariant g inv) (hbeta : 1 ≤ beta)
    (hlength : frontier.length = awake) (hfrontier : frontier ≠ [])
    (hfuel : (unvisited s.parents).card < fuel) :
    Yields (bottomUp g beta fuel awake s) fun last => ∃ d' items, last.Pulls g inv d' queue items ∧
      Narrows s.parents last.parents items ∧ last.openArcs = s.openArcs := by
  induction fuel generalizing d awake s frontier with
  | zero => omega
  | succ fuel ih =>
    rw [bottomUp_succ]
    apply (pull_yields h hwell hinv hfrontier).bind
    intro step hstep
    obtain ⟨items, hpulls, hlength', hnarrows⟩ := hstep
    rw [quotient_of_pos hbeta, ok_bind]
    by_cases hturn : step.awake < awake ∧ step.awake ≤ g.numVertices / beta
    · rw [if_pos hturn]
      exact .ok ⟨d + 1, items, hpulls, hnarrows, rfl⟩
    · -- The search turns back at the latest when the frontier is empty.
      rw [if_neg hturn]
      have hitems : items ≠ [] := by
        rintro rfl
        have hawake := List.length_pos_iff.mpr hfrontier
        rw [List.length_nil] at hlength'
        exact hturn ⟨by omega, by rw [← hlength']; exact Nat.zero_le _⟩
      have hcard := hnarrows.card_le hpulls.nodup
      have hpos := List.length_pos_iff.mpr hitems
      have hless : (unvisited (s.pulled step).parents).card < fuel := by
        change (unvisited step.parents).card < fuel
        omega
      apply (ih hpulls hlength' hitems hless).mono
      intro last hlast
      obtain ⟨d', items', hpulls', hnarrows', hkept⟩ := hlast
      exact ⟨d', items', hpulls', hnarrows.trans hnarrows', hkept⟩

/-! ### The whole search -/

/-- A top-down step takes a search one level further and adds up the marks of the next frontier. -/
theorem push_yields (h : s.Rests g inv d frontier) (hwell : g.WellFormed)
    (hinv : LevelInvariant g inv) (hfrontier : frontier ≠ []) :
    Yields (pushLevel g s.parents s.queue) fun (parents, queue, scoutCount) => ∃ items,
      Narrows s.parents parents items ∧ scoutCount = -(items.map (s.parents.getD · 0)).sum ∧
      ∀ openArcs events, (Search.mk parents queue s.front s.spare openArcs scoutCount (s.levels + 1)
        events).Rests g inv (d + 1) items := by
  have hlt (u : Nat) (hu : u ∈ frontier) := hinv.lt_numVertices h.holds hu
  apply (pushLevel_yields hwell (hinv.size_eq h.holds) h.shows hlt h.room).mono
  intro (parents, queue, scoutCount) hstep
  obtain ⟨awake, hfills, hshows, htail, hcapacity, hscout⟩ := hstep
  have hcard := hfills.narrows.card_le hfills.nodup
  refine ⟨awake, hfills.narrows, hscout, fun openArcs events => ?_⟩
  exact {
    holds := hinv.push h.holds (List.exists_mem_of_ne_nil frontier hfrontier) hfills
    nodup := hfills.nodup
    shows := hshows
    room := by
      have := h.room
      change queue.tail + (unvisited parents).card ≤ queue.capacity
      omega
    front_room := h.front_room
    spare_room := h.spare_room
    levels_eq := by rw [h.levels_eq] }

/-- Turning back makes the frontier that the bitmap holds the window of the queue. -/
theorem turnBack_yields (h : s.Pulls g inv d queue items) (hinv : LevelInvariant g inv)
    (hshows : queue.Shows frontier)
    (hroom : queue.tail + ((unvisited s.parents).card + items.length) ≤ queue.capacity) :
    Yields (windowOfBitmap g.numVertices s.front s.queue) fun next => ∃ others,
      (∀ v, v ∈ others ↔ v ∈ items) ∧ ∀ scoutCount events, Rests g inv d others
        { s with queue := next, scoutCount, events } := by
  -- The bitmap lists the frontier in ascending order, which may differ from the order of the visits.
  let bits := (List.range g.numVertices).filter s.front.contains
  have hnodup : bits.Nodup := List.nodup_range.filter _
  have hmem (v : Nat) : v ∈ bits ↔ v ∈ items := by
    rw [List.mem_filter, List.mem_range, h.front.contains_iff, and_iff_right_iff_imp]
    exact hinv.lt_numVertices h.holds
  have hlength : bits.length = items.length :=
    ((List.perm_ext_iff_of_nodup hnodup h.nodup).mpr hmem).length_eq
  have hmembers : (· ∈ bits) = (· ∈ items) := funext fun v => propext (hmem v)
  have hfits : queue.tail + bits.length ≤ queue.capacity := by omega
  rw [h.queue_eq]
  apply (windowOfBitmap_yields h.front hshows hfits).mono
  intro next hnext
  obtain ⟨hnext, (htail : next.tail = queue.tail + bits.length), hcapacity⟩ := hnext
  refine ⟨bits, hmem, fun scoutCount events => ?_⟩
  exact {
    holds := hmembers ▸ h.holds
    nodup := hnodup
    shows := hnext
    room := by
      change next.tail + (unvisited s.parents).card ≤ next.capacity
      omega
    front_room := h.front.room_le
    spare_room := h.spare_room
    levels_eq := h.levels_eq }

/-- What a step does to the counts of arcs. Turning bottom-up and back again counts nothing, and the next
frontier gets one out-arc for form's sake. A top-down step takes the out-arcs of the frontier off the open
ones and counts those of the next frontier by their marks. -/
def Counts (p : SearchParameters) (s : Search) (items : List Nat) (next : Search) : Prop :=
  if s.openArcs.tdiv p.alpha < s.scoutCount then
    next.openArcs = s.openArcs ∧ next.scoutCount = 1
  else
    next.openArcs = s.openArcs - s.scoutCount ∧
      next.scoutCount = -(items.map (s.parents.getD · 0)).sum ∧
      next.events = s.events.push (.levelPushed items.length next.scoutCount)

/-- Turning bottom-up and back again takes a search some levels further, and so does a top-down step. -/
theorem advance_yields {p : SearchParameters} (h : s.Rests g inv d frontier) (hwell : g.WellFormed)
    (hinv : LevelInvariant g inv) (halpha : 1 ≤ p.alpha) (hbeta : 1 ≤ p.beta)
    (hfrontier : frontier ≠ []) :
    Yields (s.advance g p) fun next => ∃ d' items, next.Rests g inv d' items ∧
      Narrows s.parents next.parents items ∧ Counts p s items next := by
  have hshare : openShare s.openArcs p.alpha = .ok (s.openArcs.tdiv p.alpha) := by
    rw [openShare, if_neg (by omega)]
  have hlt (u : Nat) (hu : u ∈ frontier) := hinv.lt_numVertices h.holds hu
  rw [advance, hshare, ok_bind]
  by_cases hturn : s.openArcs.tdiv p.alpha < s.scoutCount
  · rw [if_pos hturn]
    apply (bitmapOfWindow_yields h.shows hlt h.front_room).bind
    intro front hfront
    have hpulls : Pulls g inv d s.queue.slide frontier { s with
        front
        queue := s.queue.slide
        events := s.events.push (.turnedBottomUp s.queue.length) } := {
      holds := h.holds
      nodup := h.nodup
      front := hfront
      spare_room := h.spare_room
      queue_eq := rfl
      levels_eq := h.levels_eq }
    have hcard := card_unvisited_le s.parents
    rw [hinv.size_eq h.holds] at hcard
    apply (bottomUp_yields hpulls hwell hinv hbeta h.shows.length_eq.symm hfrontier
      (Nat.lt_succ_of_le hcard)).bind
    intro last hlast
    obtain ⟨d', items, hpulls', hnarrows, hkept⟩ := hlast
    have hroom : s.queue.slide.tail + ((unvisited last.parents).card + items.length) ≤
        s.queue.slide.capacity := (Nat.add_le_add_left (hnarrows.card_le hpulls'.nodup) _).trans h.room
    apply (turnBack_yields hpulls' hinv h.shows.slide hroom).bind
    intro queue hqueue
    obtain ⟨others, hmem, hrests⟩ := hqueue
    refine .ok ⟨d', others, hrests 1 (last.events.push (.turnedTopDown queue.length)), ?_, ?_⟩
    · exact ⟨hnarrows.subset, fun v hv => hnarrows.mem v ((hmem v).mp hv)⟩
    · rw [Counts, if_pos hturn]
      exact ⟨hkept, rfl⟩
  · rw [if_neg hturn]
    apply (push_yields h hwell hinv hfrontier).bind
    intro (parents, queue, scoutCount) hstep
    obtain ⟨items, hnarrows, hscout, hstep⟩ := hstep
    have hrests := hstep (s.openArcs - s.scoutCount) (s.events.push (.levelPushed queue.length scoutCount))
    have hlength : queue.length = items.length := hrests.shows.length_eq
    refine .ok ⟨d + 1, items, hrests, hnarrows, ?_⟩
    rw [Counts, if_neg hturn]
    exact ⟨rfl, hscout, by rw [hlength]⟩

/-- A search ends when its frontier is empty. A frontier with vertices leaves fewer of them unvisited,
which bounds the number of steps. -/
theorem run_rests {p : SearchParameters} {fuel : Nat} (h : s.Rests g inv d frontier)
    (hwell : g.WellFormed) (hinv : LevelInvariant g inv) (halpha : 1 ≤ p.alpha) (hbeta : 1 ≤ p.beta)
    (hfuel : frontier ≠ [] → (unvisited s.parents).card < fuel) :
    Yields (run g p fuel s) fun last => ∃ d', last.Rests g inv d' [] := by
  induction fuel generalizing d frontier s with
  | zero =>
    have hfrontier : frontier = [] := by
      by_contra hne
      exact absurd (hfuel hne) (Nat.not_lt_zero _)
    subst hfrontier
    rw [run, if_pos (h.shows.isEmpty_iff.mpr rfl)]
    exact .ok ⟨d, h⟩
  | succ fuel ih =>
    by_cases hfrontier : frontier = []
    · subst hfrontier
      rw [run, if_pos (h.shows.isEmpty_iff.mpr rfl)]
      exact .ok ⟨d, h⟩
    · rw [run, if_neg fun hempty => hfrontier (h.shows.isEmpty_iff.mp hempty)]
      apply (advance_yields h hwell hinv halpha hbeta hfrontier).bind
      intro next hnext
      obtain ⟨d', items, hrests, hnarrows, _⟩ := hnext
      apply ih hrests
      intro hitems
      have := hnarrows.card_le hrests.nodup
      have := List.length_pos_iff.mpr hitems
      have := hfuel hfrontier
      omega

/-- The marks before a search are negative. -/
theorem unvisitedMark_neg (degree : Nat) : unvisitedMark degree < 0 := by
  rw [unvisitedMark]
  split <;> omega

/-- Marks that visit only the source reach the level of the source. -/
theorem reachedLevel_ofSource {marks : Array Int} (hsize : marks.size = g.numVertices)
    (hself : marks.getD source 0 = source)
    (hother : ∀ v, v ≠ source → v < g.numVertices → marks.getD v 0 = unvisitedMark (g.targets v).length) :
    ReachedLevel g source 0 marks (· ∈ [source]) :=
  ⟨.ofSource hsize hself fun v hne hv => hother v hne hv ▸ unvisitedMark_neg _,
    fun _ => List.mem_singleton.trans Graph.AtDepth.zero_iff.symm⟩

/-- Before a search every vertex has the mark of its out-degree. -/
theorem unvisitedMarks_eq (hwell : g.WellFormed) :
    unvisitedMarks g = .ok (g.vertices.map fun u => unvisitedMark (g.targets u).length).toArray := by
  rw [unvisitedMarks, hwell.outDegrees_eq, ok_bind, List.map_map]
  rfl

/-- A search starts at its source, with any condition that holds there. All arcs are open, and the arcs of
the frontier are those of the source. -/
theorem start_rests (hwell : g.WellFormed) (hsource : source < g.numVertices)
    (hstart : ∀ marks : Array Int, marks.size = g.numVertices → marks.getD source 0 = source →
      (∀ v, v ≠ source → v < g.numVertices → marks.getD v 0 = unvisitedMark (g.targets v).length) →
      inv 0 marks (· ∈ [source])) :
    Yields (start g source) fun s => s.Rests g inv 0 [source] ∧
      (unvisited s.parents).card < g.numVertices ∧ s.openArcs = g.numArcs ∧
      s.scoutCount = (g.targets source).length ∧ s.events = #[] := by
  have hroom : (WindowQueue.withCapacity g.numVertices).tail <
      (WindowQueue.withCapacity g.numVertices).capacity := by
    simp only [WindowQueue.withCapacity, WindowQueue.capacity, Array.size_replicate]
    omega
  rw [start]
  apply (WindowQueue.push_yields hroom).mapError.bind
  intro queue hqueue
  rw [unvisitedMarks_eq hwell, ok_bind]
  generalize hmarks : (g.vertices.map fun u => unvisitedMark (g.targets u).length).toArray = marks
  have hcount : marks.size = g.numVertices := by simp [← hmarks, Graph.vertices]
  have hsize : source < marks.size := by omega
  rw [writeAt_eq_setIfInBounds _ hsize, ok_bind, hwell.outDegree_eq hsource, ok_bind, Yields.pure_iff]
  have hself : (marks.setIfInBounds source (source : Int)).getD source 0 = source :=
    getD_setIfInBounds_self hsize
  have hother (v : Nat) (hne : v ≠ source) (hv : v < g.numVertices) :
      (marks.setIfInBounds source (source : Int)).getD v 0 = unvisitedMark (g.targets v).length := by
    rw [getD_setIfInBounds_of_ne hne, ← hmarks, Array.getD_eq_getD_getElem?]
    simp [Graph.vertices, hv]
  have hkept : (marks.setIfInBounds source (source : Int)).size = g.numVertices := by
    rw [Array.size_setIfInBounds, hcount]
  have hcard : (unvisited (marks.setIfInBounds source (source : Int))).card < g.numVertices := by
    have hvisited : 0 ≤ (marks.setIfInBounds source (source : Int)).getD source 0 := by omega
    have hlt := card_unvisited_lt (hkept.symm ▸ hsource) hvisited
    rwa [hkept] at hlt
  refine ⟨?_, hcard, rfl, rfl, rfl⟩
  exact {
    holds := hstart _ hkept hself hother
    nodup := List.nodup_singleton _
    shows := hqueue.slide_shows rfl
    room := by
      have htail := hqueue.tail_eq
      have hcapacity := hqueue.capacity_eq
      simp only [WindowQueue.withCapacity, WindowQueue.capacity, Array.size_replicate,
        List.length_singleton] at htail hcapacity
      change queue.tail + (unvisited (marks.setIfInBounds source (source : Int))).card ≤
        queue.slots.size
      omega
    front_room := Bitmap.le_room_clear _
    spare_room := Bitmap.le_room_clear _
    levels_eq := rfl }

/-! ### Where the search stands -/

/-- A search stands at a level: it has visited exactly the vertices down to that depth, and its frontier is
the level. -/
abbrev Stands (g : Graph) (source d : Nat) (frontier : List Nat) (s : Search) : Prop :=
  s.Rests g (ReachedLevel g source) d frontier

end Search

/-- A search ends with an empty frontier, and with any condition that holds at its source and at every level
after it. -/
theorem Graph.searchFrom_rests {inv : Nat → Array Int → (Nat → Prop) → Prop} {p : SearchParameters}
    (hwell : g.WellFormed) (hinv : LevelInvariant g inv) (hsource : source < g.numVertices)
    (halpha : 1 ≤ p.alpha) (hbeta : 1 ≤ p.beta)
    (hstart : ∀ marks : Array Int, marks.size = g.numVertices → marks.getD source 0 = source →
      (∀ v, v ≠ source → v < g.numVertices → marks.getD v 0 = unvisitedMark (g.targets v).length) →
      inv 0 marks (· ∈ [source])) :
    Yields (g.searchFrom source p) fun s => ∃ d, s.Rests g inv d [] := by
  rw [Graph.searchFrom]
  apply (Search.start_rests hwell hsource hstart).bind
  intro s ⟨hrests, hcard, _⟩
  exact Search.run_rests hrests hwell hinv halpha hbeta fun _ => hcard

/-- A search that starts inside a graph ends, mirrored or not. -/
theorem Graph.searchFrom_yields {p : SearchParameters} (hwell : g.WellFormed)
    (hsource : source < g.numVertices) (halpha : 1 ≤ p.alpha) (hbeta : 1 ≤ p.beta) :
    Yields (g.searchFrom source p) fun s => s.parents.size = g.numVertices := by
  have hinv := levelInvariant_ofGraph hwell
  have hend : Yields (g.searchFrom source p) fun s => ∃ d, s.Rests g (OfGraph g) d [] := by
    apply Graph.searchFrom_rests hwell hinv hsource halpha hbeta
    intro marks hsize _ _
    exact ⟨hsize, fun v hv => List.mem_singleton.mp hv ▸ hsource⟩
  apply hend.mono
  intro last ⟨_, hlast⟩
  exact hinv.size_eq hlast.holds

end GraphKernels
