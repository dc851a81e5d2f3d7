import GraphKernels.Proofs.Distance.Buckets
import GraphKernels.Proofs.Graph.Walk

/-!
# Relaxing arcs

At any time a tentative distance is the weight of some walk, and every vertex with an arc that is still to
be relaxed lies in the bucket of its distance, or is one of the vertices that the current loop has not
come to. Relaxing an arc keeps this and either changes nothing or lowers the sum of all distances, which
is what bounds every loop: the distances, not the entries of the buckets, run out.
-/

namespace GraphKernels

namespace Relaxation

variable {g : Graph} {source delta k floor u v : Nat} {rest : List Nat} {a : Arc} {r next last : Relaxation}

/-- The tentative distance of a vertex. -/
def distance (r : Relaxation) (v : Nat) : Nat := r.distances.getD v unreached

/-- The distances of all vertices, added up. -/
def total (r : Relaxation) : Nat := ∑ v ∈ Finset.range r.distances.size, r.distance v

/-- No arc of a vertex shortens a distance. -/
def Relaxed (g : Graph) (r : Relaxation) (u : Nat) : Prop :=
  ∀ a ∈ g.forward.row u, r.distance a.target ≤ r.distance u + a.weight.toNat

/-- The distances are those of walks from a source, and none exceeds that of an unreached vertex. -/
structure Sound (g : Graph) (source : Nat) (r : Relaxation) : Prop where
  size_eq : r.distances.size = g.numVertices
  source_eq : r.distance source = 0
  le_unreached : ∀ v, r.distance v ≤ unreached
  walk : ∀ v, r.distance v < unreached → g.WeighedWalk source (r.distance v) v

/-- While bucket `k` is the current one, every vertex that is reached has its arcs relaxed, or it belongs
to this bucket or a later one and is filed there, or among the vertices that a loop still has to go
through. Entries of the current bucket never lie below it, and no bucket that is stored does. -/
structure Filed (g : Graph) (source delta k : Nat) (rest : List Nat) (r : Relaxation) : Prop
    extends r.Sound g source where
  rest_lt : ∀ u ∈ rest, u < g.numVertices
  entry_lt : ∀ j, ∀ v ∈ r.buckets.vertices j, v < g.numVertices
  stored_le : ∀ j ∈ r.buckets, k ≤ j
  stored_lt : ∀ j ∈ r.buckets, delta * j < unreached
  near : ∀ v ∈ r.buckets.vertices k, delta * k ≤ r.distance v
  owed : ∀ u, r.distance u < unreached → r.Relaxed g u ∨
    delta * k ≤ r.distance u ∧ (u ∈ r.buckets.vertices (r.distance u / delta) ∨ u ∈ rest)

/-- Targets of arcs have distances. -/
theorem Sound.target_lt (h : r.Sound g source) (hwell : g.WellFormed) (ha : a ∈ g.forward.row u) :
    a.target < r.distances.size := h.size_eq ▸ hwell.forward.row_target_lt ha

/-- The source has no distance, and no vertex has more than that of an unreached one. -/
theorem Sound.total_le (h : r.Sound g source) (hsource : source < g.numVertices) :
    r.total + unreached ≤ g.numVertices * unreached := by
  have hmem : source ∈ Finset.range r.distances.size := by rwa [Finset.mem_range, h.size_eq]
  have hsum := Finset.sum_le_card_nsmul ((Finset.range r.distances.size).erase source) r.distance unreached
    fun v _ => h.le_unreached v
  rw [Finset.sum_erase _ h.source_eq, Finset.card_erase_of_mem hmem, Finset.card_range, h.size_eq,
    smul_eq_mul] at hsum
  calc r.total + unreached ≤ (g.numVertices - 1) * unreached + unreached :=
        Nat.add_le_add_right (by rwa [total, h.size_eq]) _
    _ = (g.numVertices - 1 + 1) * unreached := (Nat.succ_mul _ _).symm
    _ = g.numVertices * unreached := by rw [Nat.sub_add_cancel (by omega)]

/-- Only the source is reached. -/
def AtSource (source : Nat) (r : Relaxation) : Prop :=
  r.distance source = 0 ∧ ∀ v, v ≠ source → r.distance v = unreached

/-- At the start only the source is reached. -/
theorem atSource_start {n : Nat} (hsource : source < n) (buckets : Buckets) :
    AtSource source ⟨(Array.replicate n unreached).setIfInBounds source 0, buckets⟩ := by
  refine ⟨getD_setIfInBounds_self (by simpa using hsource), fun v hne => ?_⟩
  rw [distance, getD_setIfInBounds_of_ne hne, Array.getD_eq_getD_getElem?, Array.getElem?_replicate]
  split <;> rfl

/-- Distances that reach only the source are those of walks. -/
theorem AtSource.sound (h : r.AtSource source) (hsize : r.distances.size = g.numVertices) :
    r.Sound g source where
  size_eq := hsize
  source_eq := h.1
  le_unreached v := by
    by_cases hne : v = source
    · rw [hne, h.1]
      exact Nat.zero_le _
    · exact (h.2 v hne).le
  walk v hv := by
    by_cases hne : v = source
    · rw [hne, h.1]
      exact .start
    · exact absurd hv (h.2 v hne).symm.le.not_gt

/-- A step lowers no distance below a floor, and either changes nothing or lowers the sum of all
distances. -/
structure Lowers (floor : Nat) (r next : Relaxation) : Prop where
  floor_le : ∀ v, floor ≤ r.distance v → floor ≤ next.distance v
  total_lt : next = r ∨ next.total < r.total

namespace Lowers

/-- Nothing may happen. -/
theorem refl (floor : Nat) (r : Relaxation) : Lowers floor r r := ⟨fun _ h => h, Or.inl rfl⟩

/-- Steps can be taken one after the other. -/
theorem trans (h : Lowers floor r next) (h' : Lowers floor next last) : Lowers floor r last where
  floor_le v hv := h'.floor_le v (h.floor_le v hv)
  total_lt := by
    rcases h.total_lt with rfl | hlt
    · exact h'.total_lt
    · rcases h'.total_lt with rfl | hlt'
      · exact Or.inr hlt
      · exact Or.inr (hlt'.trans hlt)

/-- The sum of all distances never grows. -/
theorem total_le (h : Lowers floor r next) : next.total ≤ r.total := by
  rcases h.total_lt with rfl | hlt
  · exact Nat.le_refl _
  · exact Nat.le_of_lt hlt

end Lowers

/-! ### One arc -/

/-- A target with a shorter distance, filed in the bucket of that distance. -/
def shorten (delta : Nat) (r : Relaxation) (target distance : Nat) : Relaxation :=
  ⟨r.distances.setIfInBounds target distance, r.buckets.add (distance / delta) target⟩

/-- The target has the new distance. -/
theorem distance_shorten_self {d : Nat} (hv : v < r.distances.size) :
    (r.shorten delta v d).distance v = d := getD_setIfInBounds_self hv

/-- The other vertices keep their distances. -/
theorem distance_shorten_of_ne {d : Nat} (hne : u ≠ v) :
    (r.shorten delta v d).distance u = r.distance u := getD_setIfInBounds_of_ne hne

/-- No distance grows. -/
theorem distance_shorten_le {d : Nat} (hv : v < r.distances.size) (hlt : d < r.distance v) (u : Nat) :
    (r.shorten delta v d).distance u ≤ r.distance u := by
  by_cases hne : u = v
  · subst hne
    rw [distance_shorten_self hv]
    exact Nat.le_of_lt hlt
  · rw [distance_shorten_of_ne hne]

/-- A shorter distance lowers the sum. -/
theorem total_shorten_lt {d : Nat} (hv : v < r.distances.size) (hlt : d < r.distance v) :
    (r.shorten delta v d).total < r.total := by
  have hsize : (r.shorten delta v d).distances.size = r.distances.size := Array.size_setIfInBounds
  rw [total, total, hsize]
  refine Finset.sum_lt_sum (fun u _ => distance_shorten_le hv hlt u) ⟨v, Finset.mem_range.mpr hv, ?_⟩
  rwa [distance_shorten_self hv]

/-- A shorter distance from the floor on keeps the others there. -/
theorem shorten_lowers {d : Nat} (hv : v < r.distances.size) (hlt : d < r.distance v)
    (hfloor : floor ≤ d) : Lowers floor r (r.shorten delta v d) where
  floor_le u hu := by
    by_cases hne : u = v
    · subst hne
      rwa [distance_shorten_self hv]
    · rwa [distance_shorten_of_ne hne]
  total_lt := Or.inr (total_shorten_lt hv hlt)

/-- Relaxing an arc shortens the distance of its target if the exact sum is less. The bounded sum gives the
same answer because the distance of an unreached vertex is below the bound. -/
theorem relax_eq (h : r.Sound g source) (hwell : g.WellFormed) (hdelta : 1 ≤ delta)
    (hu : u < g.numVertices) (ha : a ∈ g.forward.row u) :
    relax delta u r a =
      .ok (if r.distance u + a.weight.toNat < r.distance a.target then
        r.shorten delta a.target (r.distance u + a.weight.toNat) else r) := by
  have htarget := h.target_lt hwell ha
  have hread : readAt r.distances u = .ok (r.distance u) :=
    readAt_eq_getD unreached (by rwa [h.size_eq])
  have hread' : readAt r.distances a.target = .ok (r.distance a.target) :=
    readAt_eq_getD unreached htarget
  have hbound : r.distance a.target < maxSum := (h.le_unreached _).trans_lt (by decide)
  rw [relax, hread, ok_bind, hread', ok_bind]
  by_cases hlt : r.distance u + a.weight.toNat < r.distance a.target
  · have hexact : extend (r.distance u) a.weight = r.distance u + a.weight.toNat := by
      rw [extend, Nat.min_eq_left (by omega)]
    rw [hexact, if_pos hlt, if_pos hlt, writeAt_eq_setIfInBounds _ htarget, ok_bind,
      quotient_of_pos hdelta]
    rfl
  · have hlarge : ¬ extend (r.distance u) a.weight < r.distance a.target := by
      rw [extend]
      omega
    rw [if_neg hlt, if_neg hlarge]
    rfl

/-- A shorter distance is that of a walk through the arc. -/
theorem Sound.shorten (h : r.Sound g source) (hwell : g.WellFormed) (ha : a ∈ g.forward.row u)
    (hlt : r.distance u + a.weight.toNat < r.distance a.target) :
    (r.shorten delta a.target (r.distance u + a.weight.toNat)).Sound g source := by
  have htarget := h.target_lt hwell ha
  have hle := h.le_unreached a.target
  exact {
    size_eq := Array.size_setIfInBounds.trans h.size_eq
    source_eq := by
      apply Nat.le_zero.mp
      rw [← h.source_eq]
      exact distance_shorten_le htarget hlt source
    le_unreached := fun v => (distance_shorten_le htarget hlt v).trans (h.le_unreached v)
    walk := fun v hv => by
      by_cases hne : v = a.target
      · subst hne
        rw [distance_shorten_self htarget]
        exact (h.walk u (by omega)).step ha
      · rw [distance_shorten_of_ne hne] at hv ⊢
        exact h.walk v hv }

/-- A shorter distance from the floor on puts its target where it belongs. -/
theorem Filed.shorten (h : r.Filed g source delta k rest) (hwell : g.WellFormed) (hdelta : 1 ≤ delta)
    (ha : a ∈ g.forward.row u) (hlt : r.distance u + a.weight.toNat < r.distance a.target)
    (hfloor : delta * k ≤ r.distance u) :
    (r.shorten delta a.target (r.distance u + a.weight.toNat)).Filed g source delta k rest := by
  have htarget := h.target_lt hwell ha
  have hle := h.le_unreached a.target
  have hentry (j v : Nat) : v ∈ (r.shorten delta a.target (r.distance u + a.weight.toNat)).buckets.vertices j ↔
      v ∈ r.buckets.vertices j ∨ (r.distance u + a.weight.toNat) / delta = j ∧ v = a.target :=
    Buckets.mem_vertices_add
  exact {
    toSound := h.toSound.shorten hwell ha hlt
    rest_lt := h.rest_lt
    entry_lt := fun j v hv => by
      rcases (hentry j v).mp hv with hv | ⟨_, rfl⟩
      · exact h.entry_lt j v hv
      · rwa [h.size_eq] at htarget
    stored_le := fun j hj => by
      rcases Buckets.mem_add.mp hj with rfl | hj
      · rw [Nat.le_div_iff_mul_le hdelta, Nat.mul_comm]
        omega
      · exact h.stored_le j hj
    stored_lt := fun j hj => by
      rcases Buckets.mem_add.mp hj with rfl | hj
      · have := Nat.mul_div_le (r.distance u + a.weight.toNat) delta
        omega
      · exact h.stored_lt j hj
    near := fun v hv => by
      by_cases hne : v = a.target
      · subst hne
        rw [distance_shorten_self htarget]
        omega
      · rw [distance_shorten_of_ne hne]
        exact h.near v (((hentry k v).mp hv).resolve_right fun hnew => hne hnew.2)
    owed := fun v hv => by
      by_cases hne : v = a.target
      · subst hne
        rw [distance_shorten_self htarget]
        exact Or.inr ⟨by omega, Or.inl ((hentry _ _).mpr (Or.inr ⟨rfl, rfl⟩))⟩
      · have hsame : (r.shorten delta a.target (r.distance u + a.weight.toNat)).distance v = r.distance v :=
          distance_shorten_of_ne hne
        rw [hsame] at hv ⊢
        rcases h.owed v hv with hrelaxed | ⟨hk, hfiled⟩
        · refine Or.inl fun b hb => (distance_shorten_le htarget hlt b.target).trans ?_
          rw [hsame]
          exact hrelaxed b hb
        · exact Or.inr ⟨hk, hfiled.imp (fun hv => (hentry _ v).mpr (Or.inl hv)) id⟩ }

/-! ### Loops -/

/-- A vertex is off the list once its arcs are relaxed, unless it belongs to an earlier bucket. -/
theorem Filed.drop (h : r.Filed g source delta k (u :: rest))
    (hu : delta * k ≤ r.distance u → r.distance u < unreached → r.Relaxed g u) :
    r.Filed g source delta k rest where
  toSound := h.toSound
  rest_lt v hv := h.rest_lt v (List.mem_cons_of_mem u hv)
  entry_lt := h.entry_lt
  stored_le := h.stored_le
  stored_lt := h.stored_lt
  near := h.near
  owed v hv := by
    rcases h.owed v hv with hrelaxed | ⟨hk, hfiled | hlisted⟩
    · exact Or.inl hrelaxed
    · exact Or.inr ⟨hk, Or.inl hfiled⟩
    · rcases List.mem_cons.mp hlisted with rfl | hlisted
      · exact Or.inl (hu hk hv)
      · exact Or.inr ⟨hk, Or.inr hlisted⟩

/-- Relaxing all arcs of a vertex takes it off the list. -/
theorem relaxFrom_yields (h : r.Filed g source delta k (u :: rest)) (hwell : g.WellFormed)
    (hdelta : 1 ≤ delta) (hfloor : delta * k ≤ r.distance u) :
    Yields (r.relaxFrom g delta u) fun next =>
      next.Filed g source delta k rest ∧ Lowers (delta * k) r next := by
  have hu : u < g.numVertices := h.rest_lt u List.mem_cons_self
  have hloop : Yields ((g.forward.row u).foldlM (relax delta u) r) fun next =>
      (next.Filed g source delta k (u :: rest) ∧ Lowers (delta * k) r next ∧
        next.distance u = r.distance u) ∧
        ∀ a ∈ g.forward.row u, next.distance a.target ≤ r.distance u + a.weight.toNat := by
    apply Yields.foldlM_forall
      (fun next => next.Filed g source delta k (u :: rest) ∧ Lowers (delta * k) r next ∧
        next.distance u = r.distance u)
      fun (a : Arc) next => next.distance a.target ≤ r.distance u + a.weight.toNat
    · exact ⟨h, .refl _ r, rfl⟩
    · intro a ha next hnext
      obtain ⟨hfiled, hlowers, hsame⟩ := hnext
      rw [relax_eq hfiled.toSound hwell hdelta hu ha, Yields.ok_iff]
      by_cases hlt : next.distance u + a.weight.toNat < next.distance a.target
      · -- The arc is not a loop, so the distance of its source stays as it is.
        have hne : u ≠ a.target := by
          intro heq
          rw [← heq] at hlt
          omega
        have htarget := hfiled.target_lt hwell ha
        rw [if_pos hlt]
        refine ⟨⟨hfiled.shorten hwell hdelta ha hlt (hsame ▸ hfloor),
          hlowers.trans (shorten_lowers htarget hlt (by omega)),
          (distance_shorten_of_ne hne).trans hsame⟩, ?_, fun b hb => ?_⟩
        · rw [distance_shorten_self htarget, hsame]
        · exact (distance_shorten_le htarget hlt b.target).trans hb
      · rw [if_neg hlt]
        refine ⟨⟨hfiled, hlowers, hsame⟩, ?_, fun _ h => h⟩
        rw [← hsame]
        omega
  rw [relaxFrom, hwell.outArcs_eq hu, ok_bind]
  apply hloop.mono
  intro next hnext
  obtain ⟨⟨hfiled, hlowers, hsame⟩, hrelaxed⟩ := hnext
  refine ⟨hfiled.drop fun _ _ a ha => ?_, hlowers⟩
  rw [hsame]
  exact hrelaxed a ha

/-- A vertex that lies below the floor is taken off the list as it is. -/
theorem relaxAbove_yields (h : r.Filed g source delta k (u :: rest)) (hwell : g.WellFormed)
    (hdelta : 1 ≤ delta) :
    Yields (r.relaxAbove g delta (delta * k) u) fun next =>
      next.Filed g source delta k rest ∧ Lowers (delta * k) r next := by
  have hread : readAt r.distances u = .ok (r.distance u) :=
    readAt_eq_getD unreached (h.size_eq ▸ h.rest_lt u List.mem_cons_self)
  rw [relaxAbove, hread, ok_bind]
  by_cases hfloor : delta * k ≤ r.distance u
  · rw [if_pos hfloor]
    exact relaxFrom_yields h hwell hdelta hfloor
  · rw [if_neg hfloor]
    exact .ok ⟨h.drop fun hle => absurd hle hfloor, .refl _ r⟩

/-- A loop that takes every vertex off the list leaves nothing on it. -/
theorem foldlM_yields {step : Relaxation → Nat → Except Fault Relaxation} {items : List Nat}
    (h : r.Filed g source delta k items)
    (hstep : ∀ u rest next, u ∈ items → next.Filed g source delta k (u :: rest) →
      Lowers (delta * k) r next → Yields (step next u) fun last =>
        last.Filed g source delta k rest ∧ Lowers (delta * k) next last) :
    Yields (items.foldlM step r) fun last =>
      last.Filed g source delta k [] ∧ Lowers (delta * k) r last := by
  have hloop : Yields (items.foldlM step r) fun last =>
      ∃ rest, items = items ++ rest ∧ last.Filed g source delta k rest ∧ Lowers (delta * k) r last := by
    apply Yields.foldlM fun (seen : List Nat) (next : Relaxation) =>
      ∃ rest, items = seen ++ rest ∧ next.Filed g source delta k rest ∧ Lowers (delta * k) r next
    · exact ⟨items, rfl, h, .refl _ r⟩
    · intro seen u later next hitems hnext
      obtain ⟨rest, hrest, hfiled, hlowers⟩ := hnext
      have heq : rest = u :: later := List.append_cancel_left (hrest.symm.trans hitems)
      subst heq
      apply (hstep u later next (by simp [hitems]) hfiled hlowers).mono
      intro last hlast
      exact ⟨later, by simp [hitems], hlast.1, hlowers.trans hlast.2⟩
  apply hloop.mono
  intro last hlast
  obtain ⟨rest, hrest, hfiled, hlowers⟩ := hlast
  have hnil : rest = [] := by simpa using hrest
  exact ⟨hnil ▸ hfiled, hlowers⟩

/-- Erasing the first bucket that is not empty makes it the current one and puts its vertices on the
list. -/
theorem Filed.enter {bucket : Nat} (h : r.Filed g source delta k []) (hdelta : 1 ≤ delta)
    (hfirst : ∀ j ∈ r.buckets, k ≤ j → bucket ≤ j) :
    Filed g source delta bucket (r.buckets.vertices bucket).toList
      { r with buckets := r.buckets.erase bucket } where
  size_eq := h.size_eq
  source_eq := h.source_eq
  le_unreached := h.le_unreached
  walk := h.walk
  rest_lt v hv := h.entry_lt bucket v (Array.mem_toList_iff.mp hv)
  entry_lt j v hv := by
    rw [Buckets.vertices_erase] at hv
    split at hv
    · simp at hv
    · exact h.entry_lt j v hv
  stored_le j hj := by
    have hj := (Buckets.mem_erase.mp hj).2
    exact hfirst j hj (h.stored_le j hj)
  stored_lt j hj := h.stored_lt j (Buckets.mem_erase.mp hj).2
  near v hv := by
    rw [Buckets.vertices_erase, if_pos rfl] at hv
    simp at hv
  owed v hv := by
    change r.distance v < unreached at hv
    change r.Relaxed g v ∨ delta * bucket ≤ r.distance v ∧
      (v ∈ Buckets.vertices (r.buckets.erase bucket) (r.distance v / delta) ∨
        v ∈ (r.buckets.vertices bucket).toList)
    rcases h.owed v hv with hrelaxed | ⟨hk, hfiled | hlisted⟩
    · exact Or.inl hrelaxed
    · have hlate : k ≤ r.distance v / delta := by
        rw [Nat.le_div_iff_mul_le hdelta, Nat.mul_comm]
        exact hk
      have hbucket := hfirst _ (Buckets.mem_of_mem_vertices hfiled) hlate
      rw [Nat.le_div_iff_mul_le hdelta, Nat.mul_comm] at hbucket
      refine Or.inr ⟨hbucket, ?_⟩
      rw [Buckets.vertices_erase]
      by_cases heq : bucket = r.distance v / delta
      · exact Or.inr (Array.mem_toList_iff.mpr (heq ▸ hfiled))
      · exact Or.inl (by rwa [if_neg heq])
    · simp at hlisted

/-- Draining the current bucket ends, because each time it fills again a distance has become shorter. -/
theorem fuse_yields {fuel : Nat} (h : r.Filed g source delta k []) (hwell : g.WellFormed)
    (hdelta : 1 ≤ delta) (hfuel : k ∈ r.buckets → r.total < fuel) :
    Yields (fuse g delta k fuel r) fun last => last.Filed g source delta k [] ∧
      last.total ≤ r.total ∧ (k ∈ last.buckets → k ∈ r.buckets) := by
  induction fuel generalizing r with
  | zero =>
    have hk : k ∉ r.buckets := fun hmem => absurd (hfuel hmem) (Nat.not_lt_zero _)
    rw [fuse, Std.TreeMap.getElem?_eq_none hk]
    exact .ok ⟨h, Nat.le_refl _, id⟩
  | succ fuel ih =>
    by_cases hk : k ∈ r.buckets
    · rw [fuse, Buckets.getElem?_eq hk]
      by_cases hsmall : (r.buckets.vertices k).size < fusionLimit
      · simp only [if_pos hsmall]
        have hpass : Yields ((r.buckets.vertices k).toList.foldlM (relaxFrom g delta)
            { r with buckets := r.buckets.erase k }) fun last =>
            last.Filed g source delta k [] ∧
              Lowers (delta * k) { r with buckets := r.buckets.erase k } last := by
          apply foldlM_yields (h.enter hdelta fun _ _ hle => hle)
          intro u rest next hu hfiled hlowers
          exact relaxFrom_yields hfiled hwell hdelta
            (hlowers.floor_le u (h.near u (Array.mem_toList_iff.mp hu)))
        apply hpass.bind
        intro next hnext
        obtain ⟨hfiled, hlowers⟩ := hnext
        have htotal : next.total ≤ r.total := hlowers.total_le
        have hfuel' (hagain : k ∈ next.buckets) : next.total < fuel := by
          rcases hlowers.total_lt with rfl | hlt
          · exact absurd rfl (Buckets.mem_erase.mp hagain).1
          · exact Nat.lt_of_lt_of_le hlt (Nat.le_of_lt_succ (hfuel hk))
        apply (ih hfiled hfuel').mono
        intro last hlast
        exact ⟨hlast.1, hlast.2.1.trans htotal, fun _ => hk⟩
      · simp only [if_neg hsmall]
        exact .ok ⟨h, Nat.le_refl _, id⟩
    · rw [fuse, Std.TreeMap.getElem?_eq_none hk]
      exact .ok ⟨h, Nat.le_refl _, id⟩

end Relaxation

end GraphKernels
