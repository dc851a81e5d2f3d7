import GraphKernels.Event
import GraphKernels.Proofs.Run

/-!
# Verdicts

A check of a result decides a condition when it ends, accepts exactly the results that satisfy the
condition, and reports something exactly when it turns a result down. Checks go through two lists entry by
entry, so what they look at is said here of positions.
-/

namespace GraphKernels

variable {α β : Type} {condition : Prop}

/-- A check ends, accepts exactly when the condition holds, and gives reasons exactly when it does not. -/
def Decides (check : Except Fault (Traced Bool)) (condition : Prop) : Prop :=
  Yields check fun verdict => (verdict.value = true ↔ condition) ∧ (verdict.events = [] ↔ condition)

namespace Decides

variable {check : Except Fault (Traced Bool)}

/-- A check that decides something ends. -/
theorem ends (h : Decides check condition) : ∃ verdict, check = .ok verdict := by
  obtain ⟨verdict, hrun, _⟩ := h
  exact ⟨verdict, hrun⟩

/-- The condition can be said in other words. -/
theorem congr {other : Prop} (h : Decides check condition) (hiff : condition ↔ other) :
    Decides check other := by
  rwa [← propext hiff]

/-- What is accepted satisfies the condition. -/
theorem of_accepted (h : Decides check condition) (hrun : check.toOption.map Traced.value = some true) :
    condition := by
  obtain ⟨verdict, rfl, hvalue, _⟩ := h
  exact hvalue.mp (Option.some.inj hrun)

/-- What is turned down does not. -/
theorem of_rejected (h : Decides check condition) (hrun : check.toOption.map Traced.value = some false) :
    ¬ condition := by
  obtain ⟨verdict, rfl, hvalue, _⟩ := h
  rw [← hvalue, Option.some.inj hrun]
  exact Bool.false_ne_true

/-- A check that begins with a computation decides what the rest decides after any of its answers. -/
theorem bind {run : Except Fault α} {post : α → Prop} {rest : α → Except Fault (Traced Bool)}
    (h : Yields run post) (hrest : ∀ a, post a → Decides (rest a) condition) :
    Decides (run >>= rest) condition := Yields.bind h hrest

/-- A result is accepted without a word. -/
theorem accept (h : condition) : Decides (.ok ⟨true, []⟩) condition := .ok (by simp [h])

/-- A result is turned down for one reason. -/
theorem reject {reason : Event} (h : ¬ condition) : Decides (.ok ⟨false, [reason]⟩) condition :=
  .ok (by simp [h])

/-- A result is turned down for all the reasons there are, and accepted if there are none. -/
theorem ofReasons {reasons : List Event} (h : reasons = [] ↔ condition) :
    Decides (.ok ⟨reasons.isEmpty, reasons⟩) condition :=
  .ok ⟨List.isEmpty_iff.trans h, h⟩

end Decides

/-- Two lists that are gone through side by side show the entries at each position that both have. -/
theorem mem_zipIdx_zip {as : List α} {bs : List β} {a : α} {b : β} {i : Nat} :
    ((a, b), i) ∈ (as.zip bs).zipIdx ↔ as[i]? = some a ∧ bs[i]? = some b := by
  rw [List.mk_mem_zipIdx_iff_getElem?, List.getElem?_zip_eq_some]

end GraphKernels
