import GraphKernels.Proofs.Component.Forest

/-!
# Roots of forests

Labels that are followed from a vertex fall until they reach a root. Two vertices are in one tree exactly when
they have the same root, and the root is the smallest vertex of its tree.

Vertices are linked and labels are compressed in any order. Whichever labels a link comes across, the trees are
the classes of the pairs that have been linked so far, so every root is the smallest vertex that is connected
with it. Compressing changes labels only: each of them becomes the root that it has led to.
-/

namespace GraphKernels

namespace Forest

variable {n u v p q k : Nat} {labels next : Array Nat} {joined wider : Nat → Nat → Prop}

/-- Where the labels lead from a vertex. They fall at every step that is not the last one, so that there are no
more steps than smaller vertices. -/
def root (labels : Array Nat) (v : Nat) : Nat := (parent labels)^[v] v

/-- A vertex that is its own label is its own root. -/
theorem root_of_parent_eq (h : parent labels v = v) : root labels v = v := Function.iterate_fixed h v

/-- A vertex and its root are together. -/
theorem Together.root (labels : Array Nat) (v : Nat) : Together labels v (root labels v) := by
  have hsteps (k : Nat) : Together labels v ((Forest.parent labels)^[k] v) := by
    induction k with
    | zero => exact .refl labels v
    | succ k ih =>
      rw [Function.iterate_succ_apply']
      exact ih.trans (.parent labels _)
  exact hsteps v

section

variable (hle : ∀ v, parent labels v ≤ v)

include hle

/-- As many steps as there are smaller vertices lead to a root. -/
theorem parent_iterate (hk : v ≤ k) : parent labels ((parent labels)^[k] v) = (parent labels)^[k] v := by
  induction k generalizing v with
  | zero =>
    have hzero := hle 0
    obtain rfl : v = 0 := by omega
    exact Nat.eq_zero_of_le_zero hzero
  | succ k ih =>
    by_cases hroot : parent labels v = v
    · rw [Function.iterate_fixed hroot, hroot]
    · have hfall := hle v
      rw [Function.iterate_succ_apply]
      exact ih (by omega)

/-- More steps change nothing. -/
theorem iterate_parent_eq_root (hk : v ≤ k) : (parent labels)^[k] v = root labels v := by
  obtain ⟨more, rfl⟩ := Nat.exists_eq_add_of_le' hk
  rw [Function.iterate_add_apply, root, Function.iterate_fixed (parent_iterate hle (Nat.le_refl v))]

/-- A vertex has the root of its label. -/
theorem root_parent (v : Nat) : root labels (parent labels v) = root labels v := by
  rw [← iterate_parent_eq_root hle (hle v), ← Function.iterate_succ_apply,
    iterate_parent_eq_root hle (Nat.le_succ v)]

/-- A label that is a root is the root of its vertices. -/
theorem parent_eq_root (htop : parent labels (parent labels v) = parent labels v) :
    parent labels v = root labels v := by
  rw [← root_parent hle v, root_of_parent_eq htop]

/-- A root is no larger than its vertices. -/
theorem root_le (v : Nat) : root labels v ≤ v := by
  have hsteps (k : Nat) : (parent labels)^[k] v ≤ v := by
    induction k with
    | zero => exact Nat.le_refl v
    | succ k ih =>
      rw [Function.iterate_succ_apply']
      exact (hle _).trans ih
  exact hsteps v

/-- Vertices are together exactly when they have the same root. -/
theorem root_eq_root_iff : root labels u = root labels v ↔ Together labels u v := by
  constructor
  · intro heq
    exact (heq ▸ Together.root labels u).trans (Together.root labels v).symm
  · intro h
    induction h with
    | rel v p hp => rw [← hp, root_parent hle]
    | refl v => rfl
    | symm _ _ _ ih => exact ih.symm
    | trans _ _ _ _ _ ih ih' => exact ih.trans ih'

/-- A root is the smallest vertex of its tree. -/
theorem isLeast_root (v : Nat) : IsLeast {u | Together labels u v} (root labels v) := by
  refine ⟨(Together.root labels v).symm, fun u hu => ?_⟩
  rw [← (root_eq_root_iff hle).mpr hu]
  exact root_le hle u

end

/-! ### Labels only fall -/

/-- No label is larger than before. -/
def Falls (before after : Array Nat) : Prop := ∀ v, parent after v ≤ parent before v

/-- No label is larger where nothing changes. -/
theorem Falls.refl (labels : Array Nat) : Falls labels labels := fun _ => Nat.le_refl _

/-- A smaller label can be written. -/
theorem falls_of_writeAt (hp : p ≤ parent labels u) (h : writeAt labels u p = .ok next) :
    Falls labels next := by
  have hu := lt_size_of_writeAt h
  rw [writeAt_eq_setIfInBounds p hu] at h
  cases h
  intro v
  by_cases hne : v = u
  · subst hne
    rwa [parent_set_self hu]
  · rw [parent_set_of_ne hne]

/-- Linking two labels writes one label at most, in place of a larger one. -/
theorem linkLabels_falls {fuel : Nat} (h : linkLabels fuel p q labels = .ok next) : Falls labels next := by
  induction fuel generalizing p q with
  | zero =>
    rw [linkLabels] at h
    split at h
    · cases h
      exact .refl labels
    · cases h
  | succ fuel ih =>
    rw [linkLabels] at h
    split at h
    · cases h
      exact .refl labels
    · obtain ⟨label, hlabel, h⟩ := bind_eq_ok_iff.mp h
      split at h
      · cases h
        exact .refl labels
      · split at h
        · next hroot =>
          refine falls_of_writeAt ?_ h
          have hhigh := lt_size_of_writeAt h
          rw [readAt_eq_getD (max p q) hhigh] at hlabel
          have hparent : parent labels (max p q) = max p q := (Except.ok.inj hlabel).trans hroot
          rw [hparent]
          exact min_le_max
        · obtain ⟨p', _, h⟩ := bind_eq_ok_iff.mp h
          obtain ⟨q', _, h⟩ := bind_eq_ok_iff.mp h
          exact ih h

/-! ### Compressing -/

namespace Sound

/-- More vertices may count as joined. -/
theorem mono (h : Sound n joined labels) (himp : ∀ u v, joined u v → wider u v) : Sound n wider labels :=
  ⟨h.size_eq, h.parent_le, fun v => himp _ _ (h.joined_parent v)⟩

/-- A forest joins no more than what is together in it. -/
theorem together (h : Sound n joined labels) : Sound n (Together labels) labels :=
  ⟨h.size_eq, h.parent_le, Together.parent labels⟩

/-- Compressing makes every label the root that it has led to, and changes no root. -/
theorem compress_yields_roots (h : Sound n joined labels) :
    Yields (compress labels) fun next =>
      Grows n (Together labels) labels next ∧ ∀ v, parent next v = root labels v ∧ root next v = root labels v := by
  apply (compress_yields (Together.equivalence labels) h.together).mono
  intro next hnext
  obtain ⟨hgrows, htop⟩ := hnext
  have htogether (u v : Nat) : Together next u v ↔ Together labels u v :=
    ⟨hgrows.sound.joined_of_together (Together.equivalence labels), hgrows.keeps u v⟩
  refine ⟨hgrows, fun v => ?_⟩
  have hroot : root next v = root labels v := by
    have hleast := isLeast_root hgrows.sound.parent_le v
    simp only [htogether] at hleast
    exact hleast.unique (isLeast_root h.parent_le v)
  exact ⟨(parent_eq_root hgrows.sound.parent_le (htop v)).trans hroot, hroot⟩

end Sound

end Forest

/-! ### Any sequence of calls -/

/-- Something done to a forest. -/
inductive ForestCall
  | link (u v : Nat)
  | compress
deriving DecidableEq, Repr

namespace ForestCall

open Forest

variable {n : Nat} {calls : List ForestCall} {call : ForestCall} {labels : Array Nat}

/-- The forest after a call. -/
def perform (labels : Array Nat) : ForestCall → Except Fault (Array Nat)
  | link u v => Forest.link labels u v
  | compress => Forest.compress labels

/-- The call is about vertices of a forest with so many of them. -/
def Within (n : Nat) : ForestCall → Prop
  | link u v => u < n ∧ v < n
  | compress => True

/-- The pairs that calls have linked connect two vertices. -/
def Connected (calls : List ForestCall) : Nat → Nat → Prop := Relation.EqvGen fun u v => link u v ∈ calls

/-- Being connected is an equivalence. -/
theorem connected_equivalence (calls : List ForestCall) : Equivalence (Connected calls) :=
  Relation.EqvGen.is_equivalence _

/-- The trees of a forest are the classes of the pairs that calls have linked. -/
structure Follows (n : Nat) (calls : List ForestCall) (labels : Array Nat) : Prop where
  sound : Sound n (Connected calls) labels
  linked : ∀ u v, link u v ∈ calls → Together labels u v

namespace Follows

/-- Before any call every vertex is alone. -/
theorem singletons (n : Nat) : Follows n [] (singletons n) :=
  ⟨sound_singletons n (connected_equivalence []), nofun⟩

/-- Vertices are together exactly when they are connected. -/
theorem together_iff (h : Follows n calls labels) {u v : Nat} : Together labels u v ↔ Connected calls u v :=
  ⟨h.sound.joined_of_together (connected_equivalence calls), eqvGen_le (Together.equivalence labels) h.linked⟩

/-- More calls connect no fewer vertices. -/
theorem sound_concat (h : Follows n calls labels) (call : ForestCall) :
    Sound n (Connected (calls ++ [call])) labels :=
  h.sound.mono fun _ _ huv => huv.mono fun _ _ hmem => List.mem_append_left _ hmem

/-- A forest follows one call more when what it has linked stays together, and so does what the call links. -/
theorem concat {next : Array Nat} (h : Follows n calls labels)
    (hgrows : Grows n (Connected (calls ++ [call])) labels next)
    (hcall : ∀ u v, call = link u v → Together next u v) : Follows n (calls ++ [call]) next := by
  refine ⟨hgrows.sound, fun u v huv => ?_⟩
  rcases List.mem_append.mp huv with huv | huv
  · exact hgrows.keeps u v (h.linked u v huv)
  · exact hcall u v (List.mem_singleton.mp huv).symm

/-- Every call ends. The trees follow it, and no label rises. -/
theorem perform_yields (h : Follows n calls labels) (hwithin : call.Within n) :
    Yields (call.perform labels) fun next => Follows n (calls ++ [call]) next ∧ Falls labels next := by
  have hsound := h.sound_concat call
  cases call with
  | link u v =>
    obtain ⟨hu, hv⟩ := hwithin
    have huv : Connected (calls ++ [link u v]) u v := .rel u v (by simp)
    obtain ⟨next, hnext, hgrows, htogether⟩ :=
      link_yields (connected_equivalence _) hsound hu hv huv
    refine ⟨next, hnext, h.concat hgrows fun x y hxy => ?_, ?_⟩
    · cases hxy
      exact htogether
    · obtain ⟨_, _, hlabels⟩ := bind_eq_ok_iff.mp hnext
      obtain ⟨_, _, hlabels⟩ := bind_eq_ok_iff.mp hlabels
      exact linkLabels_falls hlabels
  | compress =>
    apply hsound.compress_yields_roots.mono
    intro next hnext
    obtain ⟨hgrows, hroots⟩ := hnext
    have hjoined (u v : Nat) (huv : Together labels u v) : Connected (calls ++ [compress]) u v :=
      hsound.joined_of_together (connected_equivalence _) huv
    refine ⟨h.concat ⟨hgrows.sound.mono hjoined, hgrows.keeps⟩ nofun, fun v => ?_⟩
    rw [(hroots v).1, ← root_parent hsound.parent_le]
    exact root_le hsound.parent_le _

/-- Any calls end, and the trees follow them. -/
theorem foldlM_perform (hwithin : ∀ call ∈ calls, call.Within n) :
    Yields (calls.foldlM perform (Forest.singletons n)) (Follows n calls) := by
  apply Yields.foldlM (Follows n)
  · exact singletons n
  · intro done call rest labels hcalls h
    exact (h.perform_yields (hwithin call (by simp [hcalls]))).mono fun _ hnext => hnext.1

end Follows

/-- The roots of a forest part its vertices into the classes of a relation. -/
structure Partitions (n : Nat) (connected : Nat → Nat → Prop) (labels : Array Nat) : Prop where
  size_eq : labels.size = n
  label_le : ∀ v (hv : v < labels.size), labels[v] ≤ v
  /-- Labels are followed up to the root, and no further. -/
  iterate_eq : ∀ v k, v ≤ k → (parent labels)^[k] v = root labels v
  root_eq_iff : ∀ u v, root labels u = root labels v ↔ connected u v
  root_isLeast : ∀ v, IsLeast {u | connected u v} (root labels v)

/-- A forest that follows some calls parts its vertices by what these connect. -/
theorem Follows.partitions (h : Follows n calls labels) : Partitions n (Connected calls) labels where
  size_eq := h.sound.size_eq
  label_le v hv := by
    have hle := h.sound.parent_le v
    rwa [parent, Array.getD_eq_getD_getElem?, Array.getElem?_eq_getElem hv, Option.getD_some] at hle
  iterate_eq _ _ hk := iterate_parent_eq_root h.sound.parent_le hk
  root_eq_iff _ _ := (root_eq_root_iff h.sound.parent_le).trans h.together_iff
  root_isLeast v := by
    simpa only [h.together_iff] using isLeast_root h.sound.parent_le v

/-- Any calls about vertices of a forest end, and so does any further one, which raises no label. Two vertices
have the same root exactly when they are connected by the pairs that have been linked, and it is the smallest
vertex of its class. Compressing then turns every label into its root and leaves all roots as they are. -/
theorem roots_connected (hwithin : ∀ call ∈ calls, call.Within n) :
    ∃ labels, calls.foldlM perform (singletons n) = .ok labels ∧ Partitions n (Connected calls) labels ∧
      (∀ call : ForestCall, call.Within n → ∃ next, call.perform labels = .ok next ∧ Falls labels next) ∧
      ∃ next, compress.perform labels = .ok next ∧ (∀ v < n, next[v]? = some (root labels v)) ∧
        ∀ v, root next v = root labels v := by
  obtain ⟨labels, hrun, hlabels⟩ := Follows.foldlM_perform hwithin
  obtain ⟨next, hnext, hgrows, hroots⟩ := hlabels.sound.compress_yields_roots
  refine ⟨labels, hrun, hlabels.partitions, fun call hcall => ?_, next, hnext, fun v hv => ?_,
    fun v => (hroots v).2⟩
  · exact (hlabels.perform_yields hcall).mono fun _ hcalled => hcalled.2
  · rw [getElem?_eq_getD v (hgrows.sound.size_eq.symm ▸ hv)]
    exact congrArg some (hroots v).1

/-- The last link comes across a label that is no root, and climbs before it finds one. -/
theorem roots_connected_climbing :
    [link 5 4, link 3 2, link 5 3, link 5 1].foldlM perform (singletons 6) = .ok #[0, 1, 1, 2, 2, 4] ∧
      IsLeast {u | Connected [link 5 4, link 3 2, link 5 3, link 5 1] u 5} 1 := by
  have hrun : [link 5 4, link 3 2, link 5 3, link 5 1].foldlM perform (singletons 6) =
      .ok #[0, 1, 1, 2, 2, 4] := rfl
  have hwithin : ∀ call ∈ [link 5 4, link 3 2, link 5 3, link 5 1], call.Within 6 := by simp [Within]
  obtain ⟨labels, hlabels, hparts, -⟩ := roots_connected hwithin
  obtain rfl : #[0, 1, 1, 2, 2, 4] = labels := Except.ok.inj (hrun.symm.trans hlabels)
  exact ⟨hrun, hparts.root_isLeast 5⟩

end ForestCall

end GraphKernels
