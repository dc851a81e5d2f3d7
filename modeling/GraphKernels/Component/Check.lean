import GraphKernels.Component.Labels
import GraphKernels.Event
import Std.Data.HashMap.Basic

/-!
# Checking component labels

Labels may be any numbers as long as they tell components apart: the first label seen in a component
must be that of all its vertices, and the first component seen with a label the only one that has it.
-/

namespace GraphKernels

/-- The first vertex whose label disagrees with the component that it is in. -/
def firstLabelMismatch? (seenLabels seenComponents : Std.HashMap Nat Nat) :
    List ((Nat × Nat) × Nat) → Option Event
  | [] => none
  | ((label, component), u) :: rest =>
    let seenLabels := seenLabels.insertIfNew component label
    let seenComponents := seenComponents.insertIfNew label component
    if seenLabels[component]? == some label && seenComponents[label]? == some component then
      firstLabelMismatch? seenLabels seenComponents rest
    else some (.labelMismatch u label)

/-- Whether some labels tell the components of a graph apart, with the reason if they do not. -/
def Graph.checkComponents (g : Graph) (labels : Array Nat) : Except Fault (Traced Bool) := do
  if labels.size ≠ g.numVertices then
    return ⟨false, [.labelCountWrong labels.size g.numVertices]⟩
  let components ← g.componentLabels
  match firstLabelMismatch? ∅ ∅ (labels.toList.zip components.toList).zipIdx with
  | none => return ⟨true, []⟩
  | some mismatch => return ⟨false, [mismatch]⟩

end GraphKernels
