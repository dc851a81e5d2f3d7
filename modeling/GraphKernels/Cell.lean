import GraphKernels.Fault

/-!
# Cells

A cell holds one value that is read and replaced in a single step. Updates answer with what they saw:
an addition with the value before it, a swap with whether the cell held the expected value.
-/

namespace GraphKernels.Cell

variable {α : Type}

/-- Add to a cell; the answer is the previous value. -/
def fetchAdd [Add α] (held delta : α) : α × α := (held, held + delta)

/-- Replace an expected value; the answer says whether the cell held it. -/
def compareSwap [DecidableEq α] (held expected replacement : α) : Bool × α :=
  if held = expected then (true, replacement) else (false, held)

/-- The number of bytes in each of several cells side by side. -/
def rowBytes : Nat := 4

/-- Equal cells side by side, as many as an array can have. -/
def replicate (count : Nat) (initial : α) : Except Fault (Array α) := do
  requireRoom count rowBytes
  return Array.replicate count initial

end GraphKernels.Cell
