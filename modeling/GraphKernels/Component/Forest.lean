import GraphKernels.Fault

/-!
# Forests of labels

Each vertex points at a vertex that is no larger, and a vertex that points at itself is a root. Linking
two vertices points the larger of their roots at a smaller label, so labels only ever fall and the root
of a class is its smallest vertex. Compressing points every vertex at its root.
-/

namespace GraphKernels.Forest

/-- The forest in which every vertex is a root. -/
def singletons (n : Nat) : Array Nat := Array.range n

/-- Join the trees of two labels. -/
def linkLabels : (fuel p q : Nat) → Array Nat → Except Fault (Array Nat)
  | fuel, p, q, labels =>
    if p = q then .ok labels
    else
      match fuel with
      | 0 => .error .unfinished
      | fuel + 1 => do
        let high := max p q
        let low := min p q
        let parent ← readAt labels high
        if parent = low then return labels
        else if parent = high then writeAt labels high low
        else linkLabels fuel (← readAt labels parent) (← readAt labels low) labels

/-- Join the trees of two vertices. The larger of the labels compared falls at every step. -/
def link (labels : Array Nat) (u v : Nat) : Except Fault (Array Nat) := do
  linkLabels labels.size (← readAt labels u) (← readAt labels v) labels

/-- Point a vertex at its grandparent until that is its parent. -/
def climb (u : Nat) : (fuel : Nat) → Array Nat → Except Fault (Array Nat)
  | fuel, labels => do
    let parent ← readAt labels u
    let grandparent ← readAt labels parent
    if parent = grandparent then return labels
    else
      match fuel with
      | 0 => .error .unfinished
      | fuel + 1 => climb u fuel (← writeAt labels u grandparent)

/-- Point every vertex at its root. -/
def compress (labels : Array Nat) : Except Fault (Array Nat) :=
  (List.range labels.size).foldlM (fun labels u => climb u labels.size labels) labels

end GraphKernels.Forest
