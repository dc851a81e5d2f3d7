import GraphKernels.Component.Forest
import GraphKernels.Proofs.Run

/-!
# Forests of falling labels

Two vertices are together when labels lead from both to a common one. Linking brings two vertices together
and compressing brings none together, and neither of them separates any. All labels stay at or below
their vertices, which bounds the loops, and a vertex only ever gets the label of one that it is joined to.
-/

namespace GraphKernels.Forest

variable {n u v p q : Nat} {joined : Nat → Nat → Prop} {labels next last : Array Nat}

/-- The label of a vertex; positions outside the forest are roots. -/
def parent (labels : Array Nat) (v : Nat) : Nat := labels.getD v v

/-- Two vertices are in one tree. -/
def Together (labels : Array Nat) : Nat → Nat → Prop := Relation.EqvGen fun v p => parent labels v = p

/-- The labels of a forest on `n` vertices are no larger than their vertices and joined to them. -/
structure Sound (n : Nat) (joined : Nat → Nat → Prop) (labels : Array Nat) : Prop where
  size_eq : labels.size = n
  parent_le : ∀ v, parent labels v ≤ v
  joined_parent : ∀ v, joined v (parent labels v)

/-- No vertices that are together are separated. -/
def Extends (before after : Array Nat) : Prop := ∀ u v, Together before u v → Together after u v

/-- Changing nothing separates nothing. -/
theorem Extends.refl (labels : Array Nat) : Extends labels labels := fun _ _ h => h

/-- Forests can be extended one step after the other. -/
theorem Extends.trans (h : Extends labels next) (h' : Extends next last) : Extends labels last :=
  fun u v huv => h' u v (h u v huv)

/-- What holds between the two sides of a relation holds between all that it connects. -/
theorem eqvGen_le {r : Nat → Nat → Prop} (hjoined : Equivalence joined) (h : ∀ u v, r u v → joined u v)
    (huv : Relation.EqvGen r u v) : joined u v := hjoined.eqvGen_iff.mp (huv.mono h)

namespace Together

/-- Being in one tree is an equivalence. -/
theorem equivalence (labels : Array Nat) : Equivalence (Together labels) := Relation.EqvGen.is_equivalence _

/-- A vertex and its label are together. -/
theorem of_parent_eq (h : Forest.parent labels v = p) : Together labels v p :=
  Relation.EqvGen.rel _ _ h

/-- A vertex is together with whatever its label is. -/
theorem parent (labels : Array Nat) (v : Nat) : Together labels v (parent labels v) := of_parent_eq rfl

/-- A vertex is together with itself. -/
theorem refl (labels : Array Nat) (v : Nat) : Together labels v v := Relation.EqvGen.refl v

/-- Being together goes both ways. -/
theorem symm (h : Together labels u v) : Together labels v u := Relation.EqvGen.symm _ _ h

/-- Being together is passed on. -/
theorem trans {w : Nat} (h : Together labels u v) (h' : Together labels v w) : Together labels u w :=
  Relation.EqvGen.trans _ _ _ h h'

end Together

/-- No vertices are separated as long as every vertex stays together with its label. -/
theorem extends_of_parent (h : ∀ v, Together next v (parent labels v)) : Extends labels next :=
  fun _ _ huv => eqvGen_le (Together.equivalence next) (fun v p (hp : parent labels v = p) => hp ▸ h v) huv

/-- A written label can be read back. -/
theorem parent_set_self (hv : v < labels.size) : parent (labels.setIfInBounds v p) v = p :=
  getD_setIfInBounds_self hv

/-- Other labels are as before. -/
theorem parent_set_of_ne (hne : u ≠ v) : parent (labels.setIfInBounds v p) u = parent labels u :=
  getD_setIfInBounds_of_ne hne

/-- No vertices are separated by a write that leaves its own vertex together with the old label. -/
theorem extends_set (h : Together (labels.setIfInBounds v p) v (parent labels v)) :
    Extends labels (labels.setIfInBounds v p) := by
  apply extends_of_parent
  intro u
  by_cases hne : u = v
  · exact hne ▸ h
  · rw [← parent_set_of_ne (p := p) hne]
    exact .parent _ u

/-- The vertices start as their own labels. -/
theorem sound_singletons (n : Nat) (hjoined : Equivalence joined) : Sound n joined (singletons n) := by
  have hself (v : Nat) : parent (singletons n) v = v := by
    rw [parent, singletons, Array.getD_eq_getD_getElem?, Array.getElem?_range]
    split <;> rfl
  exact ⟨Array.size_range, fun v => Nat.le_of_eq (hself v), fun v => (hself v).symm ▸ hjoined.refl v⟩

namespace Sound

/-- Vertices that are together are joined. -/
theorem joined_of_together (h : Sound n joined labels) (hjoined : Equivalence joined)
    (huv : Together labels u v) : joined u v :=
  eqvGen_le hjoined (fun v p (hp : parent labels v = p) => hp ▸ h.joined_parent v) huv

/-- The label of a vertex can be read. -/
theorem readAt_eq (h : Sound n joined labels) (hv : v < n) :
    readAt labels v = .ok (parent labels v) := readAt_eq_getD v (h.size_eq ▸ hv)

/-- Labels are vertices. -/
theorem parent_lt (h : Sound n joined labels) (hv : v < n) : parent labels v < n :=
  Nat.lt_of_le_of_lt (h.parent_le v) hv

/-- A vertex can get any label that is joined to it and no larger. -/
theorem set (h : Sound n joined labels) (hv : v < n) (hp : p ≤ v) (hvp : joined v p) :
    Sound n joined (labels.setIfInBounds v p) where
  size_eq := Array.size_setIfInBounds.trans h.size_eq
  parent_le u := by
    by_cases hne : u = v
    · subst hne
      rwa [parent_set_self (h.size_eq ▸ hv)]
    · rw [parent_set_of_ne hne]
      exact h.parent_le u
  joined_parent u := by
    by_cases hne : u = v
    · subst hne
      rwa [parent_set_self (h.size_eq ▸ hv)]
    · rw [parent_set_of_ne hne]
      exact h.joined_parent u

end Sound

/-- One forest grows out of another when it is sound and separates nothing. -/
structure Grows (n : Nat) (joined : Nat → Nat → Prop) (before after : Array Nat) : Prop where
  sound : Sound n joined after
  keeps : Extends before after

namespace Grows

/-- A sound forest may stay as it is. -/
theorem refl (h : Sound n joined labels) : Grows n joined labels labels := ⟨h, .refl labels⟩

/-- Forests can grow one step after the other. -/
theorem trans (h : Grows n joined labels next) (h' : Grows n joined next last) :
    Grows n joined labels last := ⟨h'.sound, h.keeps.trans h'.keeps⟩

end Grows

/-! ### Linking -/

/-- An equivalence holds between the larger and the smaller of two numbers when it holds between them. -/
theorem max_min_iff (hjoined : Equivalence joined) : joined (max p q) (min p q) ↔ joined p q := by
  rcases Nat.le_total p q with hle | hle
  · rw [Nat.max_eq_right hle, Nat.min_eq_left hle]
    exact ⟨hjoined.symm, hjoined.symm⟩
  · rw [Nat.max_eq_left hle, Nat.min_eq_right hle]

/-- Two labels are brought together. The larger one falls at every step, which bounds the search. -/
theorem linkLabels_yields {fuel : Nat} (hjoined : Equivalence joined) (h : Sound n joined labels)
    (hp : p < n) (hq : q < n) (hpq : joined p q) (hfuel : max p q < fuel) :
    Yields (linkLabels fuel p q labels) fun next =>
      Grows n joined labels next ∧ Together next p q := by
  induction fuel generalizing p q with
  | zero => exact absurd hfuel (Nat.not_lt_zero _)
  | succ fuel ih =>
    rw [linkLabels]
    by_cases heq : p = q
    · rw [if_pos heq]
      exact .ok ⟨.refl h, heq ▸ .refl labels p⟩
    · have hhigh : max p q < n := by omega
      have hlow : min p q < n := by omega
      have hbelow : min p q < max p q := by omega
      have hparent := h.parent_le (max p q)
      simp only [if_neg heq]
      rw [h.readAt_eq hhigh, ok_bind]
      by_cases hdone : parent labels (max p q) = min p q
      · rw [if_pos hdone]
        exact .ok ⟨.refl h, (max_min_iff (Together.equivalence labels)).mp (.of_parent_eq hdone)⟩
      · rw [if_neg hdone]
        by_cases hroot : parent labels (max p q) = max p q
        · rw [if_pos hroot, writeAt_eq_setIfInBounds _ (h.size_eq ▸ hhigh), Yields.ok_iff]
          have hset := h.set hhigh (Nat.le_of_lt hbelow) ((max_min_iff hjoined).mpr hpq)
          refine ⟨⟨hset, extends_set (hroot.symm ▸ .refl _ _)⟩, ?_⟩
          apply (max_min_iff (Together.equivalence _)).mp
          exact .of_parent_eq (parent_set_self (h.size_eq ▸ hhigh))
        · -- The labels are replaced by ones in the same trees, so joining those is enough.
          have hstep := h.parent_le (parent labels (max p q))
          have hstep' := h.parent_le (min p q)
          have htree : Together labels (max p q) (parent labels (parent labels (max p q))) :=
            (Together.parent labels _).trans (.parent labels _)
          have htree' : Together labels (min p q) (parent labels (min p q)) := .parent labels _
          have hends : joined (parent labels (parent labels (max p q))) (parent labels (min p q)) :=
            hjoined.trans (hjoined.symm (h.joined_of_together hjoined htree))
              (hjoined.trans ((max_min_iff hjoined).mpr hpq) (h.joined_of_together hjoined htree'))
          rw [if_neg hroot, h.readAt_eq (h.parent_lt hhigh), ok_bind, h.readAt_eq hlow, ok_bind]
          apply (ih (h.parent_lt (h.parent_lt hhigh)) (h.parent_lt hlow) hends (by omega)).mono
          intro next hnext
          obtain ⟨hgrows, htogether⟩ := hnext
          refine ⟨hgrows, (max_min_iff (Together.equivalence next)).mp ?_⟩
          exact ((hgrows.keeps _ _ htree).trans htogether).trans (hgrows.keeps _ _ htree').symm

/-- Linking brings two joined vertices together. -/
theorem link_yields (hjoined : Equivalence joined) (h : Sound n joined labels) (hu : u < n) (hv : v < n)
    (huv : joined u v) :
    Yields (link labels u v) fun next => Grows n joined labels next ∧ Together next u v := by
  have hends : joined (parent labels u) (parent labels v) :=
    hjoined.trans (hjoined.symm (h.joined_parent u)) (hjoined.trans huv (h.joined_parent v))
  have hfuel : max (parent labels u) (parent labels v) < labels.size := by
    rw [h.size_eq]
    exact Nat.max_lt.mpr ⟨h.parent_lt hu, h.parent_lt hv⟩
  rw [link, h.readAt_eq hu, ok_bind, h.readAt_eq hv, ok_bind]
  apply (linkLabels_yields hjoined h (h.parent_lt hu) (h.parent_lt hv) hends hfuel).mono
  intro next hnext
  obtain ⟨hgrows, htogether⟩ := hnext
  have hfirst := hgrows.keeps _ _ (.parent labels u)
  have hsecond := hgrows.keeps _ _ (.parent labels v)
  exact ⟨hgrows, (hfirst.trans htogether).trans hsecond.symm⟩

/-- A vertex can be linked with several others one after the other. -/
theorem foldlM_link_yields (hjoined : Equivalence joined) (h : Sound n joined labels) (hu : u < n)
    {others : List Nat} (hothers : ∀ v ∈ others, v < n ∧ joined u v) :
    Yields (others.foldlM (link · u ·) labels) fun next =>
      Grows n joined labels next ∧ ∀ v ∈ others, Together next u v := by
  apply Yields.foldlM_forall (Grows n joined labels) fun v next => Together next u v
  · exact .refl h
  · intro v hv next hgrows
    obtain ⟨hlt, huv⟩ := hothers v hv
    apply (link_yields hjoined hgrows.sound hu hlt huv).mono
    intro last hlast
    obtain ⟨hgrows', htogether⟩ := hlast
    exact ⟨hgrows.trans hgrows', htogether, fun w => hgrows'.keeps u w⟩

/-! ### Compressing -/

/-- A vertex climbs to its root, and roots stay where they are. Its label falls at every step. -/
theorem climb_yields {fuel : Nat} (hjoined : Equivalence joined) (h : Sound n joined labels) (hu : u < n)
    (hfuel : parent labels u ≤ fuel) :
    Yields (climb u fuel labels) fun next =>
      Grows n joined labels next ∧ parent next (parent next u) = parent next u ∧
        (∀ v, v ≠ u → parent next v = parent labels v) ∧ (parent labels u = u → parent next u = u) := by
  have hgrand := h.parent_le (parent labels u)
  induction fuel generalizing labels with
  | zero =>
    have hroot : parent labels u = parent labels (parent labels u) := by omega
    rw [climb, h.readAt_eq hu, ok_bind, h.readAt_eq (h.parent_lt hu), ok_bind, if_pos hroot]
    exact .ok ⟨.refl h, hroot.symm, fun _ _ => rfl, id⟩
  | succ fuel ih =>
    rw [climb, h.readAt_eq hu, ok_bind, h.readAt_eq (h.parent_lt hu), ok_bind]
    by_cases hroot : parent labels u = parent labels (parent labels u)
    · rw [if_pos hroot]
      exact .ok ⟨.refl h, hroot.symm, fun _ _ => rfl, id⟩
    · have hne : parent labels u ≠ u := fun heq => hroot (by rw [heq, heq])
      have hle := h.parent_le u
      have hself : parent (labels.setIfInBounds u (parent labels (parent labels u))) u =
          parent labels (parent labels u) := parent_set_self (h.size_eq ▸ hu)
      have hset := h.set hu (Nat.le_trans hgrand hle)
        (hjoined.trans (h.joined_parent u) (h.joined_parent (parent labels u)))
      -- The old label has the new one as its own label, so the vertex stays together with it.
      have hextends : Extends labels (labels.setIfInBounds u (parent labels (parent labels u))) := by
        apply extends_set
        have hold := Together.parent (labels.setIfInBounds u (parent labels (parent labels u)))
          (parent labels u)
        rw [parent_set_of_ne hne] at hold
        exact (Together.of_parent_eq hself).trans hold.symm
      simp only [if_neg hroot]
      rw [writeAt_eq_setIfInBounds _ (h.size_eq ▸ hu), ok_bind]
      apply (ih hset (by omega) (hset.parent_le _)).mono
      intro next hnext
      obtain ⟨hgrows, htop, hothers, _⟩ := hnext
      have hgrows' : Grows n joined labels next := Grows.trans ⟨hset, hextends⟩ hgrows
      refine ⟨hgrows', htop, fun v hv => ?_, fun heq => absurd heq hne⟩
      rw [hothers v hv, parent_set_of_ne hv]

/-- Compressing makes every label a root. -/
theorem compress_yields (hjoined : Equivalence joined) (h : Sound n joined labels) :
    Yields (compress labels) fun next =>
      Grows n joined labels next ∧ ∀ v, parent next (parent next v) = parent next v := by
  have hloop : Yields (compress labels) fun next => Grows n joined labels next ∧
      ∀ v ∈ List.range labels.size, parent next (parent next v) = parent next v := by
    rw [compress]
    apply Yields.foldlM_forall (Grows n joined labels) fun v next => parent next (parent next v) = parent next v
    · exact .refl h
    · intro u hu next hgrows
      have hsound := hgrows.sound
      have hu : u < n := h.size_eq ▸ List.mem_range.mp hu
      have hfuel : parent next u ≤ next.size := hsound.size_eq ▸ Nat.le_of_lt (hsound.parent_lt hu)
      apply (climb_yields hjoined hsound hu hfuel).mono
      intro last hlast
      obtain ⟨hgrows', htop, hothers, hkept⟩ := hlast
      refine ⟨hgrows.trans hgrows', htop, fun v hv => ?_⟩
      by_cases hne : v = u
      · exact hne ▸ htop
      · rw [hothers v hne]
        by_cases hroot : parent next v = u
        · rw [hroot]
          exact hkept (hroot ▸ hv)
        · rw [hothers _ hroot, hv]
  apply hloop.mono
  intro next hnext
  obtain ⟨hgrows, hroots⟩ := hnext
  refine ⟨hgrows, fun v => ?_⟩
  by_cases hv : v < n
  · exact hroots v (List.mem_range.mpr (h.size_eq ▸ hv))
  · have hself : parent next v = v := by
      have hsize := hgrows.sound.size_eq
      exact getD_of_size_le (by omega)
    rw [hself, hself]

end GraphKernels.Forest
