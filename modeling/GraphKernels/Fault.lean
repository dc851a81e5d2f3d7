/-!
# Faults and checked access

Every array a kernel works on has a size that is fixed when the run starts. Each access names its
position and reports a fault when the position lies outside, and each loop that has no evident bound
carries one, so that "the run ends without a fault" is a statement about the run. Where a caller names
the size of an array, a size that no array can have is a fault as well.
-/

namespace GraphKernels

/-- What stops a computation that no precondition has rejected. -/
inductive Fault
  /-- An access named a position outside its array. -/
  | outOfRange
  /-- A queue had no room left for what it was given. -/
  | queueFull
  /-- An integer was divided by zero. -/
  | divisionByZero
  /-- An array was asked for that would be larger than any array can be. -/
  | tooLarge
  /-- A loop ran past the bound that its input sets. -/
  | unfinished
deriving DecidableEq, Repr

variable {α β ε : Type}

/-- A run in two parts succeeds exactly when both parts do. -/
theorem bind_eq_ok_iff {run : Except ε α} {next : α → Except ε β} {b : β} :
    (run >>= next) = .ok b ↔ ∃ a, run = .ok a ∧ next a = .ok b := by
  cases run with
  | error e => simp [bind, Except.bind]
  | ok a => simp [bind, Except.bind]

/-- The entry at a position. -/
@[inline] def readAt (cells : Array α) (i : Nat) : Except Fault α :=
  if h : i < cells.size then .ok cells[i] else .error .outOfRange

/-- The array with one entry replaced. -/
@[inline] def writeAt (cells : Array α) (i : Nat) (a : α) : Except Fault (Array α) :=
  if h : i < cells.size then .ok (cells.set i a) else .error .outOfRange

/-- The entries at the positions from `start` up to, but not including, `stop`. -/
def readSpan (cells : Array α) (start stop : Nat) : Except Fault (List α) :=
  if start ≤ stop ∧ stop ≤ cells.size then .ok (cells.extract start stop).toList
  else .error .outOfRange

/-- The first of some number of entries from a position on that passes a test. -/
@[specialize] def findFrom? (cells : Array α) (test : α → Except Fault Bool) :
    (count start : Nat) → Except Fault (Option α)
  | 0, _ => .ok none
  | count + 1, start => do
    let a ← readAt cells start
    if ← test a then return some a else findFrom? cells test count (start + 1)

/-- The first entry of a span that passes a test; later entries are not read. -/
@[inline] def findSpan? (cells : Array α) (start stop : Nat) (test : α → Except Fault Bool) :
    Except Fault (Option α) :=
  if start ≤ stop ∧ stop ≤ cells.size then findFrom? cells test (stop - start) start
  else .error .outOfRange

/-- The entry of a span at some distance from its start, if the span is that long. -/
def spanEntry? (cells : Array α) (start stop i : Nat) : Except Fault (Option α) :=
  if start ≤ stop ∧ stop ≤ cells.size then
    .ok (if start + i < stop then cells[start + i]? else none)
  else .error .outOfRange

/-- The quotient of two natural numbers, which needs a divisor. -/
@[inline] def quotient (a b : Nat) : Except Fault Nat :=
  if b = 0 then .error .divisionByZero else .ok (a / b)

/-- The largest number of bytes in one array. -/
def maxArrayBytes : Nat := 0x7FFFFFFFFFFFFFFF

/-- Fail if an array with so many entries of some width in bytes would be too large. -/
def requireRoom (count width : Nat) : Except Fault Unit :=
  if maxArrayBytes < count * width then .error .tooLarge else .ok ()

/-- A read inside the array gives the entry. -/
theorem readAt_of_lt {cells : Array α} {i : Nat} (h : i < cells.size) :
    readAt cells i = .ok cells[i] := by
  simp [readAt, h]

/-- A write inside the array replaces the entry. -/
theorem writeAt_of_lt {cells : Array α} {i : Nat} (a : α) (h : i < cells.size) :
    writeAt cells i a = .ok (cells.set i a) := by
  simp [writeAt, h]

/-- A span inside the array is read in full. -/
theorem readSpan_of_le {cells : Array α} {start stop : Nat} (hle : start ≤ stop)
    (hstop : stop ≤ cells.size) :
    readSpan cells start stop = .ok (cells.extract start stop).toList := by
  simp [readSpan, hle, hstop]

/-- Looking for an entry is looking in the list of the entries. -/
theorem findFrom?_eq {cells : Array α} (test : α → Except Fault Bool) {count start : Nat}
    (h : start + count ≤ cells.size) :
    findFrom? cells test count start =
      (cells.extract start (start + count)).toList.findM? test := by
  induction count generalizing start with
  | zero => simp [findFrom?, pure, Except.pure]
  | succ count ih =>
    have hstart : start < cells.size := by omega
    have hcons : (cells.extract start (start + (count + 1))).toList =
        cells[start] :: (cells.extract (start + 1) (start + 1 + count)).toList := by
      simp only [Array.toList_extract, List.extract_eq_take_drop]
      rw [List.drop_eq_getElem_cons (by simpa using hstart)]
      simp [show start + (count + 1) - start = count + 1 by omega,
        show start + 1 + count - (start + 1) = count by omega]
    rw [hcons, List.findM?, findFrom?, readAt_of_lt hstart, ih (by omega)]
    simp only [bind, Except.bind]
    cases test cells[start] with
    | error fault => rfl
    | ok found => cases found <;> rfl

/-- Looking for an entry of a span is looking in the list of its entries. -/
theorem findSpan?_eq (cells : Array α) (start stop : Nat) (test : α → Except Fault Bool) :
    findSpan? cells start stop test = (do (← readSpan cells start stop).findM? test) := by
  unfold findSpan? readSpan
  split
  · next h =>
    rw [findFrom?_eq test (by omega), Nat.add_sub_cancel' h.1]
    rfl
  · rfl

/-- An entry of a span is one of the list of its entries. -/
theorem spanEntry?_eq (cells : Array α) (start stop i : Nat) :
    spanEntry? cells start stop i = (do return (← readSpan cells start stop)[i]?) := by
  unfold spanEntry? readSpan
  split
  · next h =>
    have hentry : (if start + i < stop then cells[start + i]? else none) =
        (cells.extract start stop).toList[i]? := by
      simp only [Array.toList_extract, List.extract_eq_take_drop, List.getElem?_take,
        List.getElem?_drop, Array.getElem?_toList]
      have : i < stop - start ↔ start + i < stop := by omega
      simp [this]
    rw [hentry]
    rfl
  · rfl

/-- A positive divisor gives the quotient. -/
theorem quotient_of_pos {a b : Nat} (h : 0 < b) : quotient a b = .ok (a / b) := by
  have : b ≠ 0 := by omega
  simp [quotient, this]

end GraphKernels
