import GraphKernels.Proofs.Distance.Dijkstra

/-!
# Every vertex is settled once

The least entry is popped, and no sum of weights along an arc is less than what it starts from. So entries
are popped in ascending order, and a settled vertex, whose distance is not above that of the last entry,
never gets a shorter one. Its arcs are not relaxed again, so an arc brings about one entry at most. There are
at most as many entries as arcs, besides that of the source, and once none is left the distances are the least
weights.
-/

namespace GraphKernels

namespace Settling

variable {g : Graph} {source u : Nat} {active : List Nat} {settled : Finset Nat} {floor : Nat}
  {a : Arc} {t : Tentative} {rest : Heap Tentative} {s : Settling}

/-- The number of arcs of the vertices that are not settled. -/
def openArcs (g : Graph) (settled : Finset Nat) : Nat :=
  ∑ u ∈ Finset.range g.numVertices \ settled, (g.targets u).length

/-- The arcs of a vertex are not open any more once it is settled. -/
theorem openArcs_insert (hu : u < g.numVertices) (hnew : u ∉ settled) :
    (g.targets u).length + openArcs g (insert u settled) = openArcs g settled := by
  have hmem : u ∈ Finset.range g.numVertices \ settled :=
    Finset.mem_sdiff.mpr ⟨Finset.mem_range.mpr hu, hnew⟩
  rw [openArcs, openArcs, Finset.sdiff_insert]
  exact Finset.add_sum_erase _ (fun u => (g.targets u).length) hmem

/-- At first all arcs are open. -/
theorem openArcs_empty (hwell : g.WellFormed) : openArcs g ∅ = g.numArcs := by
  rw [openArcs, Finset.sdiff_empty, ← hwell.sum_length_targets]
  rfl

/-- All entries are at or above a floor, each of them is there once, and the least comes first. The distances
of settled vertices are at or below the floor, and no entry is in date for them. -/
structure Advances (g : Graph) (source : Nat) (active : List Nat) (settled : Finset Nat) (floor : Nat)
    (s : Settling) : Prop where
  tracks : s.Tracks g source active
  ordered : s.pending.Ordered Tentative.le
  nodup : s.pending.toList.Nodup
  floor_le : ∀ t ∈ s.pending.toList, floor ≤ t.distance
  distance_le : ∀ u ∈ settled, s.relaxation.distance u ≤ floor
  outdated : ∀ u ∈ settled, ⟨s.relaxation.distance u, u⟩ ∉ s.pending.toList

/-! ### One arc -/

/-- An arc from at or above the floor shortens no distance of a settled vertex. -/
theorem Advances.target_ne (h : s.Advances g source active settled floor)
    (hfloor : floor ≤ s.relaxation.distance u)
    (hlt : s.relaxation.distance u + a.weight.toNat < s.relaxation.distance a.target) {v : Nat}
    (hv : v ∈ settled) : v ≠ a.target := by
  intro heq
  have hle := h.distance_le v hv
  rw [heq] at hle
  omega

/-- The entry for a shorter distance is a new one, and not in date for a settled vertex. -/
theorem Advances.shorten (h : s.Advances g source active settled floor) (hwell : g.WellFormed)
    (ha : a ∈ g.forward.row u) (hfloor : floor ≤ s.relaxation.distance u)
    (hlt : s.relaxation.distance u + a.weight.toNat < s.relaxation.distance a.target) :
    (s.shorten a.target (s.relaxation.distance u + a.weight.toNat)).Advances g source active settled
      floor where
  tracks := h.tracks.shorten hwell ha hlt
  ordered := h.ordered.push Tentative.le_trans Tentative.le_total _
  nodup := by
    rw [Settling.shorten, (Heap.toList_push ..).nodup_iff, List.nodup_cons]
    refine ⟨fun hmem => ?_, h.nodup⟩
    exact absurd (h.tracks.distance_le _ hmem) (Nat.not_le_of_lt hlt)
  floor_le t ht := by
    rcases mem_pending_shorten.mp ht with rfl | ht
    · exact Nat.le_add_right_of_le hfloor
    · exact h.floor_le t ht
  distance_le v hv := by
    rw [distance_shorten_of_ne (h.target_ne hfloor hlt hv)]
    exact h.distance_le v hv
  outdated v hv := by
    have hne := h.target_ne hfloor hlt hv
    rw [distance_shorten_of_ne hne, mem_pending_shorten, not_or]
    exact ⟨fun heq => hne (congrArg Tentative.vertex heq), h.outdated v hv⟩

/-! ### One entry -/

/-- The distance of a popped entry is the next floor. -/
theorem Advances.pop (h : s.Advances g source [] settled floor)
    (hpop : s.pending.pop? Tentative.le = some (t, rest)) :
    (Settling.mk s.distances rest).Advances g source [t.vertex] settled t.distance := by
  obtain ⟨hleast, hordered⟩ := h.ordered.pop Tentative.le_trans Tentative.le_total hpop
  have hperm := Heap.toList_pop hpop
  have hfloor := h.floor_le t (hperm.mem_iff.mpr List.mem_cons_self)
  exact {
    tracks := h.tracks.pop hpop
    ordered := hordered
    nodup := (List.nodup_cons.mp (hperm.nodup_iff.mp h.nodup)).2
    floor_le := fun e he => Tentative.distance_le (hleast e he)
    distance_le := fun u hu => (h.distance_le u hu).trans hfloor
    outdated := fun u hu hmem => h.outdated u hu (hperm.mem_iff.mpr (List.mem_cons_of_mem t hmem)) }

/-- The vertex of an entry that is in date is not settled yet, and can be from then on. -/
theorem Advances.insert (h : s.Advances g source [] settled floor)
    (hpop : s.pending.pop? Tentative.le = some (t, rest))
    (hcurrent : t.distance = s.relaxation.distance t.vertex) :
    t.vertex ∉ settled ∧ (Settling.mk s.distances rest).Advances g source [t.vertex]
      (insert t.vertex settled) t.distance := by
  have hperm := Heap.toList_pop hpop
  have hentry : (⟨s.relaxation.distance t.vertex, t.vertex⟩ : Tentative) = t := by rw [← hcurrent]
  have hnext := h.pop hpop
  constructor
  · intro hmem
    apply h.outdated t.vertex hmem
    rw [hentry, hperm.mem_iff]
    exact List.mem_cons_self
  · exact {
      tracks := hnext.tracks
      ordered := hnext.ordered
      nodup := hnext.nodup
      floor_le := hnext.floor_le
      distance_le := fun u hu => by
        rcases Finset.mem_insert.mp hu with rfl | hu
        · exact hcurrent.ge
        · exact hnext.distance_le u hu
      outdated := fun u hu => by
        rcases Finset.mem_insert.mp hu with rfl | hu
        · change (⟨s.relaxation.distance t.vertex, t.vertex⟩ : Tentative) ∉ rest.toList
          rw [hentry]
          exact (List.nodup_cons.mp (hperm.nodup_iff.mp h.nodup)).1
        · exact hnext.outdated u hu }

/-- Relaxing the arcs of a settled vertex adds one entry for each of them at most. -/
theorem advanceAll_yields (h : s.Advances g source [u] settled (s.relaxation.distance u))
    (hu : u ∈ settled) (hwell : g.WellFormed) :
    Yields ((g.forward.row u).foldlM (relax (s.relaxation.distance u)) s) fun next =>
      next.Advances g source [u] settled (s.relaxation.distance u) ∧
        next.pending.size ≤ s.pending.size + (g.forward.row u).length ∧
        next.relaxation.distance u = s.relaxation.distance u := by
  apply Yields.foldlM fun (seen : List Arc) (next : Settling) =>
    next.Advances g source [u] settled (s.relaxation.distance u) ∧
      next.pending.size ≤ s.pending.size + seen.length ∧
      next.relaxation.distance u = s.relaxation.distance u
  · exact ⟨h, Nat.le_refl _, rfl⟩
  · intro seen a later next hrow hnext
    obtain ⟨hadvances, hsize, hsame⟩ := hnext
    have ha : a ∈ g.forward.row u := hrow ▸ by simp
    rw [relax_eq hadvances.tracks hwell ha, Yields.ok_iff, List.length_append, List.length_singleton,
      ← hsame]
    rw [← hsame] at hadvances
    by_cases hlt : next.relaxation.distance u + a.weight.toNat < next.relaxation.distance a.target
    · have hpushed : (next.shorten a.target (next.relaxation.distance u + a.weight.toNat)).pending.size =
          next.pending.size + 1 := Heap.size_push ..
      rw [if_pos hlt, hpushed]
      exact ⟨hadvances.shorten hwell ha (Nat.le_refl _) hlt, by omega,
        distance_shorten_of_ne (hadvances.target_ne (Nat.le_refl _) hlt hu)⟩
    · rw [if_neg hlt]
      exact ⟨hadvances, by omega, rfl⟩

/-- After a popped entry more vertices may be settled, and there are fewer entries and open arcs. -/
theorem advance_yields (h : s.Advances g source [] settled floor)
    (hpop : s.pending.pop? Tentative.le = some (t, rest)) (hwell : g.WellFormed) :
    Yields (settle g { s with pending := rest } t) fun next => ∃ more,
      next.Advances g source [] more t.distance ∧
        next.pending.size + openArcs g more < s.pending.size + openArcs g settled := by
  have hentry : t ∈ s.pending.toList := (Heap.toList_pop hpop).mem_iff.mpr List.mem_cons_self
  have hvertex : t.vertex < g.numVertices := h.tracks.entry_lt t hentry
  have hsize := Heap.size_of_pop hpop
  have hread : readAt s.distances t.vertex = .ok (s.relaxation.distance t.vertex) :=
    readAt_eq_getD unreached (h.tracks.sound.size_eq.symm ▸ hvertex)
  have hsettle : Yields (settle g { s with pending := rest } t) fun next => ∃ more,
      next.Advances g source [t.vertex] more t.distance ∧
        next.pending.size + openArcs g more < s.pending.size + openArcs g settled := by
    rw [settle, hread, ok_bind]
    by_cases hstale : s.relaxation.distance t.vertex < t.distance
    · rw [if_pos hstale]
      refine .ok ⟨settled, h.pop hpop, ?_⟩
      change rest.size + openArcs g settled < _
      omega
    · have hcurrent : t.distance = s.relaxation.distance t.vertex :=
        Nat.le_antisymm (Nat.le_of_not_lt hstale) (h.tracks.distance_le t hentry)
      obtain ⟨hnew, hadvances⟩ := h.insert hpop hcurrent
      have hopen := openArcs_insert hvertex hnew
      rw [if_neg hstale, hwell.outArcs_eq hvertex, ok_bind, hcurrent]
      rw [hcurrent] at hadvances
      have hall := advanceAll_yields (s := ⟨s.distances, rest⟩) hadvances
        (Finset.mem_insert_self _ _) hwell
      apply hall.mono
      intro next hnext
      obtain ⟨hafter, hpending, _⟩ := hnext
      refine ⟨insert t.vertex settled, hafter, ?_⟩
      have hlength : (g.targets t.vertex).length = (g.forward.row t.vertex).length := List.length_map _
      change next.pending.size ≤ rest.size + _ at hpending
      omega
  apply (hsettle.and (settle_yields h.tracks hpop hwell)).mono
  intro next hnext
  obtain ⟨⟨more, hafter, hfewer⟩, htracks⟩ := hnext
  exact ⟨more, { hafter with tracks := htracks }, hfewer⟩

/-! ### All entries -/

/-- A run ends in the least weights. There are at most as many steps as entries and open arcs. -/
theorem run_yields {fuel : Nat} (h : s.Advances g source [] settled floor) (hwell : g.WellFormed)
    (hfuel : s.pending.size + openArcs g settled ≤ fuel) :
    Yields (run g fuel s) fun last => IsLeastWeights g source last.distances := by
  induction fuel generalizing s settled floor with
  | zero =>
    have hempty : s.pending.pop? Tentative.le = none := Heap.pop_eq_none (by omega)
    obtain ⟨hsound, hrelaxed⟩ := h.tracks.settled hempty
    rw [run, hempty]
    exact .ok (hsound.isLeastWeights hrelaxed)
  | succ fuel ih =>
    rw [run]
    cases hpop : s.pending.pop? Tentative.le with
    | none =>
      obtain ⟨hsound, hrelaxed⟩ := h.tracks.settled hpop
      exact .ok (hsound.isLeastWeights hrelaxed)
    | some entry =>
      apply (advance_yields h hpop hwell).bind
      intro next hnext
      obtain ⟨more, hafter, hfewer⟩ := hnext
      exact ih hafter (by omega)

/-- A run starts with no vertex settled. -/
theorem start_advances (hsource : source < g.numVertices) :
    Yields (start g.numVertices source) fun s => s.Advances g source [] ∅ 0 ∧ s.pending.size = 1 := by
  have hentries : (Heap.push Tentative.le .empty ⟨0, source⟩).toList = [⟨0, source⟩] :=
    List.perm_singleton.mp (Heap.toList_push ..)
  have hempty : (Heap.empty : Heap Tentative).Ordered Tentative.le := trivial
  apply (start_yields hsource).mono
  intro s hs
  obtain ⟨htracks, hpending⟩ := hs
  constructor
  · exact {
      tracks := htracks
      ordered := hpending ▸ hempty.push Tentative.le_trans Tentative.le_total _
      nodup := by
        rw [hpending, hentries]
        exact List.nodup_singleton _
      floor_le := fun t _ => Nat.zero_le _
      distance_le := by simp
      outdated := by simp }
  · rw [hpending, Heap.size_push]
    rfl

end Settling

/-- The serial computation ends in the least weights. -/
theorem Graph.distancesFrom_yields {g : Graph} {source : Nat} (hwell : g.WellFormed)
    (hsource : source < g.numVertices) : Yields (g.distancesFrom source) (IsLeastWeights g source) := by
  rw [Graph.distancesFrom]
  apply (Settling.start_advances hsource).bind
  intro s hs
  obtain ⟨hadvances, hsize⟩ := hs
  have hopen := Settling.openArcs_empty hwell
  apply (Settling.run_yields hadvances hwell (by omega)).bind
  intro last hlast
  exact .ok hlast

end GraphKernels
