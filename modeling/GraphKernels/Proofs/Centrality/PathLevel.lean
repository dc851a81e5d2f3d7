import GraphKernels.Centrality.Brandes
import GraphKernels.Proofs.Frontier.Bitmap
import GraphKernels.Proofs.Frontier.Queue
import GraphKernels.Proofs.Graph.Level
import GraphKernels.Proofs.Graph.Route

/-!
# One level of path counting

Path counting looks at the arcs of a level one after the other. What it has done by then is said of the
arcs that it has looked at since its start: the vertices that it claims for the next level are those that
one of these arcs leads to, the arcs among them that lead one level down are marked, and their counts are
handed on. A claim comes between the two looks that an arc takes at its target, so an arc is marked
whether it was the first one to its target or not.
-/

namespace GraphKernels

variable {N W : Type} {ops : ScoreArithmetic N W} {g : Graph} {source d u v : Nat}

/-- An arc with its ends and its position. -/
structure PlacedArc where
  source : Nat
  target : Nat
  position : Nat

namespace Graph

/-- The arcs that leave a vertex, in row order. -/
def placedArcs (g : Graph) (u : Nat) : List PlacedArc :=
  (g.placedTargets u).map fun arc => ⟨u, arc.1, arc.2⟩

/-- The arcs that leave a vertex are those at the positions of its row. -/
theorem mem_placedArcs {a : PlacedArc} :
    a ∈ g.placedArcs u ↔ a.source = u ∧ g.ArcAt a.position u a.target := by
  rw [placedArcs, List.mem_map]
  constructor
  · intro h
    obtain ⟨⟨v, position⟩, harc, rfl⟩ := h
    exact ⟨rfl, harc⟩
  · intro ⟨hsource, harc⟩
    subst hsource
    exact ⟨_, harc, rfl⟩

/-- The arcs among some that lead one level down. -/
noncomputable def descents (g : Graph) (source : Nat) (arcs : List PlacedArc) : List PlacedArc :=
  arcs.filter fun a => g.Descends source a.source a.target

/-- An arc that leads one level down is one more descent. -/
theorem descents_concat {a : PlacedArc} (arcs : List PlacedArc)
    (h : g.Descends source a.source a.target) :
    g.descents source (arcs ++ [a]) = g.descents source arcs ++ [a] := by
  rw [descents, List.filter_append, List.filter_singleton, decide_eq_true h]
  rfl

/-- Other arcs are no descents. -/
theorem descents_concat_of_not {a : PlacedArc} (arcs : List PlacedArc)
    (h : ¬ g.Descends source a.source a.target) :
    g.descents source (arcs ++ [a]) = g.descents source arcs := by
  rw [descents, List.filter_append, List.filter_singleton, decide_eq_false h]
  exact List.append_nil _

end Graph

/-! ### Counts that are handed on -/

/-- What some arcs hand on to a vertex, in their order. -/
def inflow (ops : ScoreArithmetic N W) (arcs : List PlacedArc) (counts : Array W) (v : Nat) : List W :=
  (arcs.filter (·.target = v)).map fun a => counts.getD a.source ops.wideZero

/-- What some vertices one level up from a vertex count, once for each of their arcs to it. -/
noncomputable def Graph.countsAbove {α : Type} (g : Graph) (source : Nat) (order : List Nat)
    (count : Nat → α) (v : Nat) : List α :=
  order.flatMap fun u =>
    if g.Descends source u v then List.replicate ((g.targets u).count v) (count u) else []

/-- Where the counts one level up are known, so is what comes from there. -/
theorem Graph.countsAbove_eq_map {α β : Type} {count : Nat → α} {known : Nat → β} {f : β → α}
    (h : ∀ u, g.Descends source u v → count u = f (known u)) (order : List Nat) :
    g.countsAbove source order count v = (g.countsAbove source order known v).map f := by
  rw [countsAbove, countsAbove, List.map_flatMap]
  refine List.flatMap_congr fun u _ => ?_
  split
  · next hdescends => rw [h u hdescends, List.map_replicate]
  · rfl

/-- What comes from one level up does not depend on where the vertices are listed that lie elsewhere, nor, up
to its order, on the order of the others. -/
theorem Graph.countsAbove_perm {α : Type} {order others : List Nat} (count : Nat → α)
    (hnodup : order.Nodup) (hnodup' : others.Nodup)
    (hmem : ∀ u, g.Descends source u v → (u ∈ order ↔ u ∈ others)) :
    (g.countsAbove source order count v).Perm (g.countsAbove source others count v) := by
  have hfilter (items : List Nat) : g.countsAbove source items count v =
      (items.filter fun u => g.Descends source u v).flatMap fun u =>
        List.replicate ((g.targets u).count v) (count u) := by
    rw [countsAbove]
    induction items with
    | nil => rfl
    | cons u rest ih =>
      rw [List.flatMap_cons, ih, List.filter_cons]
      by_cases hdescends : g.Descends source u v
      · simp [hdescends]
      · simp [hdescends]
  rw [hfilter, hfilter]
  apply List.Perm.flatMap_right
  rw [List.perm_ext_iff_of_nodup (hnodup.filter _) (hnodup'.filter _)]
  intro u
  simp only [List.mem_filter, decide_eq_true_eq]
  exact and_congr_left (hmem u)

/-- What flows into a vertex comes from one level up. -/
theorem inflow_descents (counts : Array W) (order : List Nat) (v : Nat) :
    inflow ops (g.descents source (order.flatMap g.placedArcs)) counts v =
      g.countsAbove source order (counts.getD · ops.wideZero) v := by
  rw [Graph.countsAbove]
  simp only [inflow, Graph.descents, List.filter_flatMap, List.map_flatMap, Graph.placedArcs,
    List.filter_map, List.map_map, List.filter_filter]
  refine List.flatMap_congr fun u _ => ?_
  split
  · next hdescends =>
    have hcount : (g.placedTargets u).countP (fun arc => arc.1 = v) = (g.targets u).count v := by
      rw [← Graph.map_fst_placedTargets, List.count, List.countP_map]
      rfl
    rw [List.eq_replicate_iff, List.length_map, ← List.countP_eq_length_filter, ← hcount]
    constructor
    · refine List.countP_congr fun arc _ => ?_
      simp +contextual [hdescends]
    · intro count hmem
      obtain ⟨arc, _, rfl⟩ := List.mem_map.mp hmem
      rfl
  · next hstays =>
    rw [List.map_eq_nil_iff, List.filter_eq_nil_iff]
    intro arc _ harc
    simp only [Function.comp_apply, Bool.and_eq_true, decide_eq_true_eq] at harc
    exact hstays (harc.1 ▸ harc.2)

/-- Every count is what some arcs hand on, added in their order to what the vertex starts with: one path
for the source, and none for all others. -/
def Collects (ops : ScoreArithmetic N W) (source : Nat) (arcs : List PlacedArc) (counts : Array W) :
    Prop :=
  ∀ v < counts.size, counts.getD v ops.wideZero =
    (inflow ops arcs counts v).foldl ops.wideAdd (if v = source then ops.wideOne else ops.wideZero)

/-- One more arc hands on its count, as long as its target has not handed on anything. -/
theorem Collects.handOn {arcs : List PlacedArc} {counts : Array W} {a : PlacedArc}
    (h : Collects ops source arcs counts) (htarget : a.target < counts.size)
    (hother : ∀ b ∈ arcs ++ [a], b.source ≠ a.target) :
    Collects ops source (arcs ++ [a]) (counts.setIfInBounds a.target
      (ops.wideAdd (counts.getD a.target ops.wideZero) (counts.getD a.source ops.wideZero))) := by
  generalize hnext : counts.setIfInBounds a.target _ = next
  have hsame (v : Nat) (hv : v ≠ a.target) : next.getD v ops.wideZero = counts.getD v ops.wideZero := by
    rw [← hnext, getD_setIfInBounds_of_ne hv]
  have hinflow (v : Nat) : inflow ops (arcs ++ [a]) next v = inflow ops (arcs ++ [a]) counts v :=
    List.map_congr_left fun b hb => hsame _ (hother b (List.mem_filter.mp hb).1)
  intro v hv
  rw [hinflow, inflow, List.filter_append, List.map_append, List.foldl_append, ← inflow]
  rw [← hnext, Array.size_setIfInBounds] at hv
  rw [← h v hv]
  by_cases hva : v = a.target
  · subst hva
    rw [← hnext, getD_setIfInBounds_self htarget]
    simp
  · rw [hsame v hva, List.filter_singleton, decide_eq_false (Ne.symm hva)]
    rfl

/-- Path counting has looked at some arcs: those that lead one level down are marked and have handed on
their counts. -/
structure Passes (ops : ScoreArithmetic N W) (g : Graph) (source : Nat) (seen : List PlacedArc)
    (successors : Bitmap) (counts : Array W) : Prop where
  marks : successors.Holds g.numArcs fun e => ∃ a ∈ g.descents source seen, a.position = e
  counts_size : counts.size = g.numVertices
  collects : Collects ops source (g.descents source seen) counts

namespace Passes

variable {seen : List PlacedArc} {successors : Bitmap} {counts : Array W} {a : PlacedArc}

/-- An arc that does not lead one level down changes nothing. -/
theorem skip (h : Passes ops g source seen successors counts)
    (ha : ¬ g.Descends source a.source a.target) :
    Passes ops g source (seen ++ [a]) successors counts where
  marks := by
    rw [Graph.descents_concat_of_not seen ha]
    exact h.marks
  counts_size := h.counts_size
  collects := by
    rw [Graph.descents_concat_of_not seen ha]
    exact h.collects

/-- An arc that leads one level down is marked and hands on its count. -/
theorem pass {marked : Bitmap} (h : Passes ops g source seen successors counts)
    (ha : g.Descends source a.source a.target) (htarget : a.target < g.numVertices)
    (hother : ∀ b ∈ seen ++ [a], b.source ≠ a.target)
    (hmarked : marked.Holds g.numArcs fun e =>
      (∃ a ∈ g.descents source seen, a.position = e) ∨ e = a.position) :
    Passes ops g source (seen ++ [a]) marked (counts.setIfInBounds a.target
      (ops.wideAdd (counts.getD a.target ops.wideZero) (counts.getD a.source ops.wideZero))) where
  marks := by
    rw [Graph.descents_concat seen ha]
    apply hmarked.congr
    intro e
    simp only [List.mem_append, List.mem_singleton, or_and_right, exists_or, exists_eq_left]
    exact or_congr_right eq_comm
  counts_size := by rw [Array.size_setIfInBounds, h.counts_size]
  collects := by
    rw [Graph.descents_concat seen ha]
    apply h.collects.handOn (h.counts_size.symm ▸ htarget)
    intro b hb
    apply hother b
    rw [List.mem_append] at hb ⊢
    exact hb.imp_left fun hb => (List.mem_filter.mp hb).1

end Passes

/-! ### The next level -/

/-- Some vertices at the next depth are claimed: those that one of some arcs leads to. They are pushed to a
batch, and they and the vertices above them have their depths. -/
structure Claims (g : Graph) (source d : Nat) (queue : WindowQueue) (seen : List PlacedArc)
    (awake : List Nat) (depths : Array (Option Nat)) (claimed : Batch) : Prop where
  nodup : awake.Nodup
  mem_iff : ∀ v, v ∈ awake ↔ g.AtDepth source (d + 1) v ∧ ∃ a ∈ seen, a.target = v
  depths_size : depths.size = g.numVertices
  depth_iff : ∀ v k, depths.getD v none = some k ↔ g.AtDepth source k v ∧ (k ≤ d ∨ v ∈ awake)
  carries : Batch.Carries queue awake claimed

/-- There is room in the queue for any vertices at some depth. -/
def HasRoom (g : Graph) (source d : Nat) (queue : WindowQueue) : Prop :=
  ∀ items : List Nat, items.Nodup → (∀ v ∈ items, g.AtDepth source d v) →
    queue.tail + items.length ≤ queue.capacity

namespace Claims

variable {queue : WindowQueue} {seen : List PlacedArc} {awake : List Nat} {depths : Array (Option Nat)}
  {claimed : Batch} {a : PlacedArc}

/-- There is room for what is claimed. -/
theorem length_le (h : Claims g source d queue seen awake depths claimed)
    (hroom : HasRoom g source (d + 1) queue) : queue.tail + awake.length ≤ queue.capacity :=
  hroom awake h.nodup fun v hv => ((h.mem_iff v).mp hv).1

/-- A vertex at the next depth is claimed exactly when it has that depth. -/
theorem depth_eq_iff (h : Claims g source d queue seen awake depths claimed) :
    depths.getD v none = some (d + 1) ↔ v ∈ awake := by
  rw [h.depth_iff]
  constructor
  · intro ⟨_, hclaimed⟩
    exact hclaimed.resolve_left (Nat.not_succ_le_self d)
  · intro hv
    exact ⟨((h.mem_iff v).mp hv).1, Or.inr hv⟩

/-- An arc to a vertex that has a depth claims nothing. -/
theorem skip {k : Nat} (h : Claims g source d queue seen awake depths claimed)
    (hdepth : depths.getD a.target none = some k) :
    Claims g source d queue (seen ++ [a]) awake depths claimed where
  nodup := h.nodup
  depths_size := h.depths_size
  depth_iff := h.depth_iff
  carries := h.carries
  mem_iff v := by
    rw [h.mem_iff]
    refine and_congr_right fun hv => ?_
    simp only [List.mem_append, List.mem_singleton, or_and_right, exists_or, exists_eq_left]
    rw [eq_comm (a := a.target), iff_self_or]
    intro heq
    subst heq
    -- The depth that the target has is the next one, so one of the earlier arcs has claimed it.
    obtain ⟨hk, _⟩ := (h.depth_iff _ _).mp hdepth
    rw [hk.unique hv, h.depth_eq_iff, h.mem_iff] at hdepth
    exact hdepth.2

/-- An arc to a vertex that has no depth claims it. -/
theorem claim {pushed : Batch} (h : Claims g source d queue seen awake depths claimed)
    (hdepth : depths.getD a.target none = none) (htarget : g.AtDepth source (d + 1) a.target)
    (hlt : a.target < g.numVertices) (hpushed : Batch.Carries queue (awake ++ [a.target]) pushed) :
    Claims g source d queue (seen ++ [a]) (awake ++ [a.target])
      (depths.setIfInBounds a.target (some (d + 1))) pushed where
  nodup := by
    rw [← List.concat_eq_append]
    apply h.nodup.concat
    intro hmem
    rw [← h.depth_eq_iff, hdepth] at hmem
    cases hmem
  depths_size := by rw [Array.size_setIfInBounds, h.depths_size]
  carries := hpushed
  mem_iff v := by
    simp only [List.mem_append, List.mem_singleton, or_and_right, exists_or, exists_eq_left, h.mem_iff,
      and_or_left]
    refine or_congr_right ⟨?_, fun hv => hv.2.symm⟩
    intro heq
    subst heq
    exact ⟨htarget, rfl⟩
  depth_iff v k := by
    by_cases hv : v = a.target
    · subst hv
      rw [getD_setIfInBounds_self (h.depths_size.symm ▸ hlt), Option.some.injEq]
      constructor
      · intro heq
        subst heq
        exact ⟨htarget, Or.inr (by simp)⟩
      · intro hk
        exact htarget.unique hk.1
    · rw [getD_setIfInBounds_of_ne hv, h.depth_iff, List.mem_append, List.mem_singleton]
      simp only [hv, or_false]

end Claims

namespace LevelExpansion

variable {queue : WindowQueue} {seen : List PlacedArc} {e : LevelExpansion W} {a : PlacedArc}

/-- The expansion of a level has looked at some arcs, none of which leaves from below the level. -/
def Tracks (ops : ScoreArithmetic N W) (g : Graph) (source d : Nat) (queue : WindowQueue)
    (seen : List PlacedArc) (e : LevelExpansion W) : Prop :=
  Passes ops g source seen e.successors e.counts ∧
    (∀ b ∈ seen, ∃ k ≤ d, g.AtDepth source k b.source) ∧
    ∃ awake, Claims g source d queue seen awake e.depths e.claimed

/-- Reaching the target of an arc claims it unless it has a depth. -/
theorem reach_yields {awake : List Nat}
    (h : Claims g source d queue seen awake e.depths e.claimed) (hwell : g.WellFormed)
    (hroom : HasRoom g source (d + 1) queue) (harc : g.HasArc a.source a.target)
    (ha : g.AtDepth source d a.source) :
    Yields (reach (d + 1) e a.target) fun next =>
      (∃ awake, Claims g source d queue (seen ++ [a]) awake next.depths next.claimed) ∧
        next.successors = e.successors ∧ next.counts = e.counts := by
  have hlt := hwell.lt_of_hasArc' harc
  have hsize : a.target < e.depths.size := h.depths_size.symm ▸ hlt
  rw [reach, readAt_eq_getD none hsize, ok_bind]
  cases hdepth : e.depths.getD a.target none with
  | some k => exact .ok ⟨⟨awake, h.skip hdepth⟩, rfl, rfl⟩
  | none =>
    obtain ⟨k, hle, htarget⟩ := ha.exists_le harc
    have hk : k = d + 1 := by
      by_contra hne
      have hhas := (h.depth_iff a.target k).mpr ⟨htarget, Or.inl (by omega)⟩
      rw [hdepth] at hhas
      cases hhas
    subst hk
    change Yields (do
      let depths ← writeAt e.depths a.target (some (d + 1))
      let claimed ← (e.claimed.push a.target).mapError Overrun.fault
      pure ({ e with depths, claimed } : LevelExpansion W)) _
    rw [writeAt_eq_setIfInBounds _ hsize, ok_bind]
    apply (Batch.push_yields h.carries (h.length_le hroom)).mapError.bind
    intro claimed hclaimed
    exact .ok ⟨⟨_, h.claim hdepth htarget hlt hclaimed⟩, rfl, rfl⟩

/-- Looking at one more arc of the level. -/
theorem follow_yields (h : e.Tracks ops g source d queue seen) (hwell : g.WellFormed)
    (hroom : HasRoom g source (d + 1) queue) (harc : g.ArcAt a.position a.source a.target)
    (ha : g.AtDepth source d a.source) :
    Yields (follow ops (d + 1) a.source e (a.target, a.position))
      (Tracks ops g source d queue (seen ++ [a])) := by
  obtain ⟨hpasses, hsources, awake, hclaims⟩ := h
  have hhas : g.HasArc a.source a.target := Graph.hasArc_iff_exists_arcAt.mpr ⟨_, harc⟩
  have hlt := hwell.lt_of_hasArc' hhas
  have hsources' : ∀ b ∈ seen ++ [a], ∃ k ≤ d, g.AtDepth source k b.source := by
    intro b hb
    rcases List.mem_append.mp hb with hb | hb
    · exact hsources b hb
    · rw [List.mem_singleton.mp hb]
      exact ⟨d, Nat.le_refl d, ha⟩
  rw [follow]
  apply (reach_yields hclaims hwell hroom hhas ha).bind
  intro next ⟨⟨awake, hclaims⟩, hsuccessors, hcounts⟩
  have hdescends : next.depths.getD a.target none = some (d + 1) ↔
      g.Descends source a.source a.target := by
    rw [hclaims.depth_eq_iff, hclaims.mem_iff, ha.descends_iff, and_iff_left_iff_imp]
    intro _
    exact ⟨a, by simp, rfl⟩
  rw [readAt_eq_getD none (hclaims.depths_size.symm ▸ hlt), ok_bind]
  rw [← hsuccessors, ← hcounts] at hpasses
  by_cases hdown : g.Descends source a.source a.target
  · rw [if_pos (hdescends.mpr hdown), readAt_eq_getD ops.wideZero (hpasses.counts_size.symm ▸ hlt),
      ok_bind, readAt_eq_getD ops.wideZero (hpasses.counts_size.symm ▸ hwell.lt_of_hasArc hhas), ok_bind]
    apply (hpasses.marks.set_yields (harc.lt_numArcs hwell)).bind
    intro marked hmarked
    rw [writeAt_eq_setIfInBounds _ (hpasses.counts_size.symm ▸ hlt), ok_bind, Yields.pure_iff]
    refine ⟨hpasses.pass hdown hlt (fun b hb heq => ?_) hmarked, hsources', awake, hclaims⟩
    -- The target lies below all vertices whose counts were handed on.
    obtain ⟨k, hle, hk⟩ := hsources' b hb
    have := (heq ▸ hk).unique (ha.descends_iff.mp hdown)
    omega
  · rw [if_neg fun hdepth => hdown (hdescends.mp hdepth)]
    exact .ok ⟨hpasses.skip hdown, hsources', awake, hclaims⟩

/-- Looking at all arcs of a vertex of the level. -/
theorem expand_yields (h : e.Tracks ops g source d queue seen) (hwell : g.WellFormed)
    (hroom : HasRoom g source (d + 1) queue) (hu : g.AtDepth source d u) (hlt : u < g.numVertices) :
    Yields (expand ops g (d + 1) e u) (Tracks ops g source d queue (seen ++ g.placedArcs u)) := by
  rw [expand, hwell.positioned_eq hlt, ok_bind, Graph.placedArcs]
  apply Yields.foldlM fun (done : List (Nat × Nat)) (e : LevelExpansion W) =>
    e.Tracks ops g source d queue (seen ++ done.map fun arc => (⟨u, arc.1, arc.2⟩ : PlacedArc))
  · simpa using h
  · intro done (v, position) rest e hitems he
    have harc : g.ArcAt position u v := by simp [Graph.ArcAt, hitems]
    rw [List.map_append, ← List.append_assoc]
    exact follow_yields (a := ⟨u, v, position⟩) he hwell hroom harc hu

end LevelExpansion

end GraphKernels
