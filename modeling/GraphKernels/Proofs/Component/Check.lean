import GraphKernels.Component.Check
import GraphKernels.Proofs.Component.Labels
import GraphKernels.Proofs.Verdict

/-!
# The check of labels decides whether they tell the components apart

The check goes through the vertices once and keeps two tables: the label of every component that it has come
across, and the component of every label. As long as nothing has disagreed, either table lists exactly the
pairs of a label and a component seen so far, so a pair that passes agrees with every earlier one. Labels
that pass are therefore equal exactly where the components are equal, wherever two components share a
label or one component has two.
-/

namespace GraphKernels

variable {g : Graph} {m seenLabels seenComponents : Std.HashMap Nat Nat} {seen : List (Nat × Nat)}
  {key other value label component : Nat}

/-- Labels are equal exactly where the components are. -/
def Distinguish (pairs : List (Nat × Nat)) : Prop := ∀ a ∈ pairs, ∀ b ∈ pairs, a.1 = b.1 ↔ a.2 = b.2

/-! ### Entries that stay -/

/-- A key that may have an entry has the new one exactly when it had no other. -/
theorem getElem?_insertIfNew_self_iff :
    (m.insertIfNew key value)[key]? = some value ↔ ∀ old, m[key]? = some old → old = value := by
  have hmem : key ∈ m ↔ m[key]?.isSome := Std.HashMap.mem_iff_isSome_getElem?
  rw [Std.HashMap.getElem?_insertIfNew]
  cases hentry : m[key]? with
  | none => simp [hmem, hentry]
  | some old => simp [hmem, hentry]

/-- Then the table has the new entry besides those from before. -/
theorem getElem?_insertIfNew_iff (h : (m.insertIfNew key value)[key]? = some value) :
    (m.insertIfNew key value)[other]? = some label ↔ m[other]? = some label ∨ other = key ∧ label = value := by
  by_cases heq : other = key
  · subst heq
    rw [h, Option.some.injEq, eq_comm, and_iff_right rfl, or_iff_right_of_imp]
    exact getElem?_insertIfNew_self_iff.mp h label
  · rw [Std.HashMap.getElem?_insertIfNew, if_neg fun hself => heq (beq_iff_eq.mp hself.1).symm]
    simp [heq]

/-! ### One pass -/

/-- Both tables list the pairs of a label and a component that have been seen. -/
structure Matches (seen : List (Nat × Nat)) (seenLabels seenComponents : Std.HashMap Nat Nat) : Prop where
  labels_iff : ∀ {label component}, seenLabels[component]? = some label ↔ (label, component) ∈ seen
  components_iff : ∀ {label component}, seenComponents[label]? = some component ↔ (label, component) ∈ seen

/-- Pairs that tables can list tell the components apart. -/
theorem Matches.distinguish (h : Matches seen seenLabels seenComponents) : Distinguish seen := by
  intro a ha b hb
  constructor
  · intro heq
    have hcomponent := h.components_iff.mpr ha
    rw [heq, h.components_iff.mpr hb] at hcomponent
    exact (Option.some.inj hcomponent).symm
  · intro heq
    have hlabel := h.labels_iff.mpr ha
    rw [heq, h.labels_iff.mpr hb] at hlabel
    exact (Option.some.inj hlabel).symm

/-- A pair that passes is listed from then on. -/
theorem Matches.insert (h : Matches seen seenLabels seenComponents)
    (hlabel : (seenLabels.insertIfNew component label)[component]? = some label)
    (hcomponent : (seenComponents.insertIfNew label component)[label]? = some component) :
    Matches (seen ++ [(label, component)]) (seenLabels.insertIfNew component label)
      (seenComponents.insertIfNew label component) where
  labels_iff {label' component'} := by
    rw [getElem?_insertIfNew_iff hlabel, h.labels_iff, List.mem_append, List.mem_singleton, Prod.mk.injEq,
      and_comm]
  components_iff {label' component'} := by
    rw [getElem?_insertIfNew_iff hcomponent, h.components_iff, List.mem_append, List.mem_singleton,
      Prod.mk.injEq]

/-- A pair passes when it agrees with all that have been seen. -/
theorem Matches.passes (h : Matches seen seenLabels seenComponents)
    (hpairs : ∀ a ∈ seen, a.1 = label ↔ a.2 = component) :
    (seenLabels.insertIfNew component label)[component]? = some label ∧
      (seenComponents.insertIfNew label component)[label]? = some component := by
  rw [getElem?_insertIfNew_self_iff, getElem?_insertIfNew_self_iff]
  constructor
  · intro old hold
    exact (hpairs _ (h.labels_iff.mp hold)).mpr rfl
  · intro old hold
    exact (hpairs _ (h.components_iff.mp hold)).mp rfl

/-- The pass finds nothing exactly when the labels tell the components apart. -/
theorem firstLabelMismatch?_eq_none_iff {items : List ((Nat × Nat) × Nat)}
    (h : Matches seen seenLabels seenComponents) :
    firstLabelMismatch? seenLabels seenComponents items = none ↔
      Distinguish (seen ++ items.map Prod.fst) := by
  induction items generalizing seen seenLabels seenComponents with
  | nil =>
    rw [List.map_nil, List.append_nil]
    exact iff_of_true rfl h.distinguish
  | cons item rest ih =>
    obtain ⟨⟨label, component⟩, u⟩ := item
    simp only [firstLabelMismatch?, List.map_cons, Bool.and_eq_true, beq_iff_eq]
    split
    next hpass =>
      rw [ih (h.insert hpass.1 hpass.2), List.append_assoc, List.singleton_append]
    next hfail =>
      rw [iff_false_left (Option.some_ne_none _)]
      intro hall
      apply hfail
      apply h.passes
      intro a ha
      exact hall a (List.mem_append_left _ ha) (label, component) (by simp)

/-! ### The verdict -/

/-- What two arrays hold is compared vertex by vertex. -/
theorem distinguish_zip_iff {labels components : Array Nat} {n : Nat} (hsize : labels.size = n)
    (hsize' : components.size = n) : Distinguish (labels.toList.zip components.toList) ↔
      ∀ u v : Fin n, labels[u.val]? = labels[v.val]? ↔ components[u.val]? = components[v.val]? := by
  constructor
  · intro h u v
    have hentries (u : Fin n) : labels[u.val]? = some (labels.getD u 0) ∧
        components[u.val]? = some (components.getD u 0) :=
      ⟨getElem?_eq_getD 0 (hsize.symm ▸ u.isLt), getElem?_eq_getD 0 (hsize'.symm ▸ u.isLt)⟩
    have hmem (u : Fin n) : (labels.getD u 0, components.getD u 0) ∈ labels.toList.zip components.toList := by
      rw [List.mem_iff_getElem?]
      exact ⟨u, List.getElem?_zip_eq_some.mpr (by simpa using hentries u)⟩
    rw [(hentries u).1, (hentries v).1, (hentries u).2, (hentries v).2, Option.some.injEq, Option.some.injEq]
    exact h _ (hmem u) _ (hmem v)
  · intro h a ha b hb
    obtain ⟨u, hu⟩ := List.mem_iff_getElem?.mp ha
    obtain ⟨v, hv⟩ := List.mem_iff_getElem?.mp hb
    rw [List.getElem?_zip_eq_some, Array.getElem?_toList, Array.getElem?_toList] at hu hv
    have hult : u < n := hsize ▸ (Array.getElem?_eq_some_iff.mp hu.1).1
    have hvlt : v < n := hsize ▸ (Array.getElem?_eq_some_iff.mp hv.1).1
    have hsame := h ⟨u, hult⟩ ⟨v, hvlt⟩
    rwa [hu.1, hv.1, hu.2, hv.2, Option.some.injEq, Option.some.injEq] at hsame

/-- The check of labels compares them with those of the serial labelling. -/
theorem Graph.checkComponents_decides_same {components : Array Nat} (hrun : g.componentLabels = .ok components)
    (hsize : components.size = g.numVertices) (labels : Array Nat) :
    Decides (g.checkComponents labels) (labels.size = g.numVertices ∧ ∀ u v : Fin g.numVertices,
      labels[u.val]? = labels[v.val]? ↔ components[u.val]? = components[v.val]?) := by
  rw [checkComponents]
  by_cases hcount : labels.size = g.numVertices
  · rw [if_neg (not_not_intro hcount), hrun, ok_bind]
    have hempty : Matches [] ∅ ∅ := ⟨by simp, by simp⟩
    have hscan : firstLabelMismatch? ∅ ∅ (labels.toList.zip components.toList).zipIdx = none ↔
        ∀ u v : Fin g.numVertices, labels[u.val]? = labels[v.val]? ↔
          components[u.val]? = components[v.val]? := by
      rw [firstLabelMismatch?_eq_none_iff hempty, List.nil_append, List.zipIdx_map_fst,
        distinguish_zip_iff hcount hsize]
    cases hmismatch : firstLabelMismatch? ∅ ∅ (labels.toList.zip components.toList).zipIdx with
    | none => exact .accept ⟨hcount, hscan.mp hmismatch⟩
    | some mismatch =>
      apply Decides.reject
      intro hboth
      rw [hscan.mpr hboth.2] at hmismatch
      cases hmismatch
  · rw [if_pos hcount]
    exact .reject fun h => hcount h.1

/-- Least labels are equal exactly where the vertices are in one component. -/
theorem IsLeastLabels.getElem?_eq_iff {labels : Array Nat} (h : IsLeastLabels g labels)
    (u v : Fin g.numVertices) : labels[u.val]? = labels[v.val]? ↔ g.links.Reachable u v := by
  obtain ⟨least, hentry, hleast⟩ := h.entry_eq u
  obtain ⟨least', hentry', hleast'⟩ := h.entry_eq v
  rw [hentry, hentry', Option.some.injEq]
  constructor
  · intro heq
    exact hleast.1.trans (Fin.ext heq ▸ hleast'.1.symm)
  · intro hreach
    have hle := hleast.2 (hreach.trans hleast'.1)
    have hle' := hleast'.2 (hreach.symm.trans hleast.1)
    exact Nat.le_antisymm hle hle'

/-- On every built graph the serial labelling ends in the smallest vertices of all weak components, which it
also counts, and the check accepts exactly the labels that are equal where vertices are weakly connected and
different where they are not. -/
theorem componentLabels_partition {o : BuildOptions} {edges : List Edge}
    (hbuild : Graph.build o edges = .ok g) :
    (∃ labels, g.componentLabels = .ok labels ∧ IsLeastLabels g labels) ∧
      g.componentCount = .ok (Nat.card g.links.ConnectedComponent) ∧
      ∀ labels : Array Nat, Decides (g.checkComponents labels) (labels.size = g.numVertices ∧
        ∀ u v : Fin g.numVertices, labels[u.val]? = labels[v.val]? ↔ g.links.Reachable u v) := by
  obtain ⟨components, hrun, hleast⟩ := Graph.componentLabels_isLeastLabels
    (Graph.wellFormed_build hbuild) (Graph.mirrored_build hbuild)
  refine ⟨⟨components, hrun, hleast⟩, ?_, fun labels => ?_⟩
  · rw [Graph.componentCount, hrun, ok_bind, hleast.countOwnLabels_eq]
    rfl
  · apply (Graph.checkComponents_decides_same hrun hleast.size_eq labels).congr
    simp only [hleast.getElem?_eq_iff]

/-- A directed graph with three weak components. Labels that tell them apart are accepted, whatever they are,
and labels that merge two components, that split one, or that are too few are not. -/
theorem componentLabels_partition_directed :
    ∃ g, Graph.build { numVertices := some 6 } [⟨4, 1, 1⟩, ⟨3, 1, 1⟩, ⟨2, 5, 1⟩, ⟨5, 5, 1⟩] = .ok g ∧
      Nat.card g.links.ConnectedComponent = 3 ∧
      Decides (g.checkComponents #[7, 9, 0, 9, 9, 0]) True ∧
      Decides (g.checkComponents #[7, 9, 9, 9, 9, 9]) False ∧
      Decides (g.checkComponents #[7, 9, 0, 9, 8, 0]) False ∧
      Decides (g.checkComponents #[7, 9, 0, 9, 9]) False := by
  refine ⟨_, rfl, ?_⟩
  have hbuild : Graph.build { numVertices := some 6 }
      [⟨4, 1, 1⟩, ⟨3, 1, 1⟩, ⟨2, 5, 1⟩, ⟨5, 5, 1⟩] = .ok _ := rfl
  obtain ⟨⟨labels, hlabels, hleast⟩, hcount, hcheck⟩ := componentLabels_partition hbuild
  have hrun : (Except.ok labels : Except Fault (Array Nat)).toOption = some #[0, 1, 2, 1, 1, 2] := by
    rw [← hlabels]
    decide +kernel
  cases Option.some.inj hrun
  have hverdict (labels : Array Nat) := (hcheck labels).congr <| and_congr_right' <|
    forall_congr' fun u => forall_congr' fun v => iff_congr Iff.rfl (hleast.getElem?_eq_iff u v).symm
  refine ⟨?_, ?_, ?_, ?_, ?_⟩
  · have hthree := congrArg Except.toOption hcount
    exact Option.some.inj (hthree.symm.trans (by decide +kernel))
  · exact (hverdict _).congr (by decide +kernel)
  · exact (hverdict _).congr (by decide +kernel)
  · exact (hverdict _).congr (by decide +kernel)
  · exact (hverdict _).congr (by decide +kernel)

end GraphKernels
