import GraphKernels.Proofs.Distance.Heap
import GraphKernels.Proofs.Distance.Stepping

/-!
# Entries for the vertices that are reached

Every vertex that is reached has its arcs relaxed, or an entry with its distance waits in the heap. An entry
that is out of date does no work, and none is ever below the distance of its vertex. So the distances are least
weights once no entry is left, in whatever order the entries are popped.
-/

namespace GraphKernels

namespace Settling

variable {g : Graph} {source u v : Nat} {active : List Nat} {a : Arc} {t : Tentative}
  {rest : Heap Tentative} {s next : Settling}

/-- The distances without the entries. -/
def relaxation (s : Settling) : Relaxation := ⟨s.distances, ∅⟩

/-- The distances are those of walks, no entry is below the distance of its vertex, and every vertex that is
reached has its arcs relaxed or an entry with its distance, unless it is being settled. -/
structure Tracks (g : Graph) (source : Nat) (active : List Nat) (s : Settling) : Prop where
  sound : s.relaxation.Sound g source
  entry_lt : ∀ t ∈ s.pending.toList, t.vertex < g.numVertices
  distance_le : ∀ t ∈ s.pending.toList, s.relaxation.distance t.vertex ≤ t.distance
  owed : ∀ u, s.relaxation.distance u < unreached → s.relaxation.Relaxed g u ∨
    ⟨s.relaxation.distance u, u⟩ ∈ s.pending.toList ∨ u ∈ active

/-! ### One arc -/

/-- A target with a shorter distance, and an entry for it. -/
def shorten (s : Settling) (target distance : Nat) : Settling :=
  ⟨s.distances.setIfInBounds target distance, s.pending.push Tentative.le ⟨distance, target⟩⟩

/-- The entries are those from before and a new one. -/
theorem mem_pending_shorten {d : Nat} :
    t ∈ (s.shorten v d).pending.toList ↔ t = ⟨d, v⟩ ∨ t ∈ s.pending.toList := by
  rw [shorten, (Heap.toList_push ..).mem_iff, List.mem_cons]

/-- The target has the new distance. -/
theorem distance_shorten_self {d : Nat} (hv : v < s.distances.size) :
    (s.shorten v d).relaxation.distance v = d := getD_setIfInBounds_self hv

/-- The other vertices keep their distances. -/
theorem distance_shorten_of_ne {d : Nat} (hne : u ≠ v) :
    (s.shorten v d).relaxation.distance u = s.relaxation.distance u := getD_setIfInBounds_of_ne hne

/-- No distance grows. -/
theorem distance_shorten_le {d : Nat} (hv : v < s.distances.size) (hlt : d < s.relaxation.distance v)
    (u : Nat) : (s.shorten v d).relaxation.distance u ≤ s.relaxation.distance u := by
  change (s.relaxation.shorten 1 v d).distance u ≤ _
  exact Relaxation.distance_shorten_le hv hlt u

/-- Relaxing an arc shortens the distance of its target if the exact sum is less. The two bounds on the sum
give the same answer because no distance is above them. -/
theorem relax_eq (h : s.Tracks g source active) (hwell : g.WellFormed) (ha : a ∈ g.forward.row u)
    (d : Nat) :
    relax d s a = .ok (if d + a.weight.toNat < s.relaxation.distance a.target then
      s.shorten a.target (d + a.weight.toNat) else s) := by
  have htarget := h.sound.target_lt hwell ha
  have hread : readAt s.distances a.target = .ok (s.relaxation.distance a.target) :=
    readAt_eq_getD unreached htarget
  have hle := h.sound.le_unreached a.target
  have hbound : unreached < maxSum := by decide
  rw [relax, hread, ok_bind]
  by_cases hlt : d + a.weight.toNat < s.relaxation.distance a.target
  · have hexact : min (extend d a.weight) unreached = d + a.weight.toNat := by
      rw [extend]
      omega
    have hwrite : writeAt s.distances a.target (d + a.weight.toNat) =
        .ok (s.distances.setIfInBounds a.target (d + a.weight.toNat)) :=
      writeAt_eq_setIfInBounds _ htarget
    rw [hexact, if_pos hlt, if_pos hlt, hwrite]
    rfl
  · have hlarge : ¬ min (extend d a.weight) unreached < s.relaxation.distance a.target := by
      rw [extend]
      omega
    rw [if_neg hlt, if_neg hlarge]
    rfl

/-- A shorter distance comes with an entry for its target. -/
theorem Tracks.shorten (h : s.Tracks g source active) (hwell : g.WellFormed)
    (ha : a ∈ g.forward.row u)
    (hlt : s.relaxation.distance u + a.weight.toNat < s.relaxation.distance a.target) :
    (s.shorten a.target (s.relaxation.distance u + a.weight.toNat)).Tracks g source active := by
  have htarget := h.sound.target_lt hwell ha
  have hsound : (s.relaxation.shorten 1 a.target
      (s.relaxation.distance u + a.weight.toNat)).Sound g source := h.sound.shorten hwell ha hlt
  exact {
    sound := ⟨hsound.size_eq, hsound.source_eq, hsound.le_unreached, hsound.walk⟩
    entry_lt := fun t ht => by
      rcases mem_pending_shorten.mp ht with rfl | ht
      · exact hwell.forward.row_target_lt ha
      · exact h.entry_lt t ht
    distance_le := fun t ht => by
      rcases mem_pending_shorten.mp ht with rfl | ht
      · exact (distance_shorten_self htarget).le
      · exact (distance_shorten_le htarget hlt t.vertex).trans (h.distance_le t ht)
    owed := fun v hv => by
      by_cases hne : v = a.target
      · rw [hne, distance_shorten_self htarget]
        exact Or.inr (Or.inl (mem_pending_shorten.mpr (Or.inl rfl)))
      · rw [distance_shorten_of_ne hne] at hv ⊢
        rcases h.owed v hv with hrelaxed | hentry | hactive
        · refine Or.inl fun b hb => (distance_shorten_le htarget hlt b.target).trans ?_
          rw [distance_shorten_of_ne hne]
          exact hrelaxed b hb
        · exact Or.inr (Or.inl (mem_pending_shorten.mpr (Or.inr hentry)))
        · exact Or.inr (Or.inr hactive) }

/-! ### One entry -/

/-- A vertex is settled once its arcs are relaxed, or when another entry has its distance. -/
theorem Tracks.drop (h : s.Tracks g source [u]) (hu : s.relaxation.distance u < unreached →
    s.relaxation.Relaxed g u ∨ ⟨s.relaxation.distance u, u⟩ ∈ s.pending.toList) :
    s.Tracks g source [] where
  sound := h.sound
  entry_lt := h.entry_lt
  distance_le := h.distance_le
  owed v hv := by
    rcases h.owed v hv with hrelaxed | hentry | hactive
    · exact Or.inl hrelaxed
    · exact Or.inr (Or.inl hentry)
    · obtain rfl := List.mem_singleton.mp hactive
      exact (hu hv).imp_right Or.inl

/-- The vertex of a popped entry is the one that is being settled. -/
theorem Tracks.pop (h : s.Tracks g source []) (hpop : s.pending.pop? Tentative.le = some (t, rest)) :
    (Settling.mk s.distances rest).Tracks g source [t.vertex] := by
  have hmem (e : Tentative) : e ∈ s.pending.toList ↔ e = t ∨ e ∈ rest.toList := by
    rw [(Heap.toList_pop hpop).mem_iff, List.mem_cons]
  exact {
    sound := h.sound
    entry_lt := fun e he => h.entry_lt e ((hmem e).mpr (Or.inr he))
    distance_le := fun e he => h.distance_le e ((hmem e).mpr (Or.inr he))
    owed := fun u hu => by
      rcases h.owed u hu with hrelaxed | hentry | hactive
      · exact Or.inl hrelaxed
      · rcases (hmem _).mp hentry with rfl | hentry
        · exact Or.inr (Or.inr (List.mem_singleton.mpr rfl))
        · exact Or.inr (Or.inl hentry)
      · exact absurd hactive List.not_mem_nil }

/-- Relaxing all arcs of the vertex that is being settled settles it. -/
theorem relaxAll_yields (h : s.Tracks g source [u]) (hwell : g.WellFormed) :
    Yields ((g.forward.row u).foldlM (relax (s.relaxation.distance u)) s) fun next =>
      next.Tracks g source [] := by
  have hloop : Yields ((g.forward.row u).foldlM (relax (s.relaxation.distance u)) s) fun next =>
      (next.Tracks g source [u] ∧ next.relaxation.distance u = s.relaxation.distance u) ∧
        ∀ a ∈ g.forward.row u,
          next.relaxation.distance a.target ≤ s.relaxation.distance u + a.weight.toNat := by
    apply Yields.foldlM_forall
      (fun next : Settling => next.Tracks g source [u] ∧
        next.relaxation.distance u = s.relaxation.distance u)
      fun (a : Arc) (next : Settling) =>
        next.relaxation.distance a.target ≤ s.relaxation.distance u + a.weight.toNat
    · exact ⟨h, rfl⟩
    · intro a ha next hnext
      obtain ⟨htracks, hsame⟩ := hnext
      rw [relax_eq htracks hwell ha, Yields.ok_iff, ← hsame]
      by_cases hlt : next.relaxation.distance u + a.weight.toNat < next.relaxation.distance a.target
      · -- The arc is not a loop, so the distance of its source stays as it is.
        have hne : u ≠ a.target := by
          intro heq
          rw [← heq] at hlt
          omega
        have htarget := htracks.sound.target_lt hwell ha
        rw [if_pos hlt]
        refine ⟨⟨htracks.shorten hwell ha hlt, distance_shorten_of_ne hne⟩, ?_, fun b hb => ?_⟩
        · exact (distance_shorten_self htarget).le
        · exact (distance_shorten_le htarget hlt b.target).trans hb
      · rw [if_neg hlt]
        exact ⟨⟨htracks, rfl⟩, Nat.le_of_not_lt hlt, fun _ hb => hb⟩
  apply hloop.mono
  intro next hnext
  obtain ⟨⟨htracks, hsame⟩, hrelaxed⟩ := hnext
  refine htracks.drop fun _ => Or.inl fun a ha => ?_
  rw [hsame]
  exact hrelaxed a ha

/-- Settling a popped entry leaves no vertex without its entry. -/
theorem settle_yields (h : s.Tracks g source [])
    (hpop : s.pending.pop? Tentative.le = some (t, rest)) (hwell : g.WellFormed) :
    Yields (settle g { s with pending := rest } t) fun next => next.Tracks g source [] := by
  have hentry : t ∈ s.pending.toList := (Heap.toList_pop hpop).mem_iff.mpr List.mem_cons_self
  have hvertex : t.vertex < g.numVertices := h.entry_lt t hentry
  have hread : readAt s.distances t.vertex = .ok (s.relaxation.distance t.vertex) :=
    readAt_eq_getD unreached (h.sound.size_eq.symm ▸ hvertex)
  have htracks := h.pop hpop
  rw [settle, hread, ok_bind]
  by_cases hstale : s.relaxation.distance t.vertex < t.distance
  · -- The entry that the vertex has for its distance is another one, and still in the heap.
    rw [if_pos hstale]
    refine .ok (htracks.drop fun hu => ?_)
    rcases h.owed t.vertex hu with hrelaxed | hother | hactive
    · exact Or.inl hrelaxed
    · rw [(Heap.toList_pop hpop).mem_iff, List.mem_cons] at hother
      exact Or.inr (hother.resolve_left fun heq => hstale.ne (congrArg Tentative.distance heq))
    · exact absurd hactive List.not_mem_nil
  · have heq : t.distance = s.relaxation.distance t.vertex :=
      Nat.le_antisymm (Nat.le_of_not_lt hstale) (h.distance_le t hentry)
    rw [if_neg hstale, hwell.outArcs_eq hvertex, ok_bind, heq]
    exact relaxAll_yields htracks hwell

/-! ### All entries -/

/-- Once no entry is left, the arcs of every vertex that is reached are relaxed. -/
theorem Tracks.settled (h : s.Tracks g source []) (hempty : s.pending.pop? Tentative.le = none) :
    s.relaxation.Sound g source ∧
      ∀ u, s.relaxation.distance u < unreached → s.relaxation.Relaxed g u := by
  refine ⟨h.sound, fun u hu => ?_⟩
  rcases h.owed u hu with hrelaxed | hentry | hactive
  · exact hrelaxed
  · rw [Heap.toList_of_pop_none hempty] at hentry
    exact absurd hentry List.not_mem_nil
  · exact absurd hactive List.not_mem_nil

/-- A run starts with its source as the only entry. -/
theorem start_yields (hsource : source < g.numVertices) :
    Yields (start g.numVertices source) fun s =>
      s.Tracks g source [] ∧ s.pending = Heap.push Tentative.le .empty ⟨0, source⟩ := by
  have hsize : source < (Array.replicate g.numVertices unreached).size := by simpa using hsource
  have hstart := Relaxation.atSource_start hsource ∅
  have hentries : (Heap.push Tentative.le .empty ⟨0, source⟩).toList = [⟨0, source⟩] :=
    List.perm_singleton.mp (Heap.toList_push ..)
  rw [start, writeAt_eq_setIfInBounds _ hsize, ok_bind]
  refine .ok ⟨⟨hstart.sound (by simp), fun t ht => ?_, fun t ht => ?_, fun v hv => ?_⟩, rfl⟩
  · rw [hentries, List.mem_singleton] at ht
    rwa [ht]
  · rw [hentries, List.mem_singleton] at ht
    rw [ht]
    exact hstart.1.le
  · by_cases hne : v = source
    · subst hne
      refine Or.inr (Or.inl ?_)
      rw [hentries, List.mem_singleton]
      exact congrArg (Tentative.mk · v) hstart.1
    · exact absurd hv (hstart.2 v hne).symm.le.not_gt

end Settling

end GraphKernels
