import GraphKernels.Fault
import Mathlib

/-!
# Runs that end

A computation yields a condition when it ends without a fault, in an answer that satisfies the
condition. What is said here about sequences and loops is all that later proofs use of the way in
which runs are put together: a loop over a list is handled by an invariant of the entries that it has
already been through.
-/

namespace GraphKernels

variable {α β γ δ ε ε' : Type}

/-- A finished first part hands its answer to the second. -/
@[simp] theorem ok_bind (a : α) (next : α → Except ε β) : (Except.ok a >>= next) = next a := rfl

/-- The run ends without a fault, in an answer that satisfies the condition. -/
def Yields (run : Except ε α) (post : α → Prop) : Prop := ∃ a, run = .ok a ∧ post a

namespace Yields

variable {run : Except ε α} {post : α → Prop}

/-- A finished run yields what its answer satisfies. -/
theorem ok {a : α} (h : post a) : Yields (.ok a : Except ε α) post := ⟨a, rfl, h⟩

/-- Nothing but the answer of a finished run can satisfy the condition. -/
@[simp] theorem ok_iff {a : α} : Yields (.ok a : Except ε α) post ↔ post a :=
  ⟨fun ⟨_, heq, h⟩ => by cases heq; exact h, ok⟩

/-- The answer of a run satisfies what the run yields. -/
theorem of_eq {a : α} (h : Yields run post) (hrun : run = .ok a) : post a := by
  rwa [hrun, ok_iff] at h

/-- Returning yields what the answer satisfies. -/
@[simp] theorem pure_iff {a : α} : Yields (pure a : Except ε α) post ↔ post a := ok_iff

/-- The condition can be weakened. -/
theorem mono {weaker : α → Prop} (h : Yields run post) (himp : ∀ a, post a → weaker a) :
    Yields run weaker := by
  obtain ⟨a, heq, ha⟩ := h
  exact ⟨a, heq, himp a ha⟩

/-- A run in two parts yields what its second part yields after any answer of the first. -/
theorem bind {next : α → Except ε β} {final : β → Prop} (h : Yields run post)
    (hnext : ∀ a, post a → Yields (next a) final) : Yields (run >>= next) final := by
  obtain ⟨a, rfl, ha⟩ := h
  exact hnext a ha

/-- A run has one answer, which satisfies every condition that the run yields. -/
theorem and {other : α → Prop} (h : Yields run post) (h' : Yields run other) :
    Yields run fun a => post a ∧ other a := by
  obtain ⟨a, heq, ha⟩ := h
  exact ⟨a, heq, ha, h'.of_eq heq⟩

/-- Changing the error of a run leaves its answer alone. -/
theorem mapError {wrap : ε → ε'} (h : Yields run post) : Yields (run.mapError wrap) post := by
  obtain ⟨a, rfl, ha⟩ := h
  exact ⟨a, rfl, ha⟩

/-- A loop keeps what each of its steps keeps, said of the entries that it has been through. -/
theorem foldlM {step : β → α → Except ε β} {items : List α} {start : β}
    (inv : List α → β → Prop) (hstart : inv [] start)
    (hstep : ∀ seen item rest state, items = seen ++ item :: rest → inv seen state →
      Yields (step state item) (inv (seen ++ [item]))) :
    Yields (items.foldlM step start) (inv items) := by
  have hrest (seen rest : List α) (state : β) (hitems : items = seen ++ rest)
      (hstate : inv seen state) : Yields (rest.foldlM step state) (inv items) := by
    induction rest generalizing seen state with
    | nil =>
      rw [hitems, List.append_nil]
      exact ok hstate
    | cons item rest ih =>
      rw [List.foldlM_cons]
      apply (hstep seen item rest state hitems hstate).bind
      intro next hnext
      exact ih (seen ++ [item]) next (by simp [hitems]) hnext
  exact hrest [] items start rfl hstart

/-- A loop brings about for all entries what each step brings about for its own entry, as long as no step
undoes it for earlier ones. -/
theorem foldlM_forall {step : β → α → Except ε β} {items : List α} {start : β}
    (inv : β → Prop) (done : α → β → Prop) (hstart : inv start)
    (hstep : ∀ item ∈ items, ∀ state, inv state → Yields (step state item) fun next =>
      inv next ∧ done item next ∧ ∀ other, done other state → done other next) :
    Yields (items.foldlM step start) fun last => inv last ∧ ∀ item ∈ items, done item last := by
  apply foldlM fun (seen : List α) (state : β) => inv state ∧ ∀ item ∈ seen, done item state
  · exact ⟨hstart, fun item hitem => by simp at hitem⟩
  · intro seen item rest state hitems hstate
    obtain ⟨hinv, hseen⟩ := hstate
    apply (hstep item (by simp [hitems]) state hinv).mono
    intro next hnext
    obtain ⟨hinv', hitem, hkept⟩ := hnext
    refine ⟨hinv', fun other hother => ?_⟩
    rcases List.mem_append.mp hother with hother | hother
    · exact hkept other (hseen other hother)
    · exact List.mem_singleton.mp hother ▸ hitem

/-- A loop that keeps some of its answers keeps none exactly when no step has one to keep. -/
theorem filterMapM {step : α → Except ε (Option β)} {items : List α} {silent : α → Prop}
    (hstep : ∀ item ∈ items, Yields (step item) fun answer => answer = none ↔ silent item) :
    Yields (items.filterMapM step) fun answers => answers = [] ↔ ∀ item ∈ items, silent item := by
  induction items with
  | nil => exact ok (by simp)
  | cons item rest ih =>
    have hrest := ih fun other hother => hstep other (List.mem_cons_of_mem item hother)
    rw [List.filterMapM_cons]
    apply (hstep item List.mem_cons_self).bind
    intro answer hanswer
    cases answer with
    | none =>
      apply hrest.mono
      intro answers hanswers
      rw [List.forall_mem_cons, ← hanswer, ← hanswers, eq_self_iff_true, true_and]
    | some b =>
      apply hrest.bind
      intro answers _
      have hitem : ¬ silent item := fun h => Option.some_ne_none b (hanswer.mpr h)
      exact ok (by simp [hitem])

end Yields

/-! ### Two runs side by side -/

/-- Where the first run ends without a fault, so does the second, in an answer that is related to that of the
first. -/
def Simulates (related : α → γ → Prop) (run : Except ε α) (other : Except ε' γ) : Prop :=
  ∀ a, run = .ok a → Yields other (related a)

namespace Simulates

variable {related : α → γ → Prop} {run : Except ε α} {other : Except ε' γ}

/-- Related answers simulate each other. -/
theorem ok {a : α} {c : γ} (h : related a c) :
    Simulates related (.ok a : Except ε α) (.ok c : Except ε' γ) := by
  intro b hb
  cases hb
  exact .ok h

/-- A run simulates itself. -/
theorem refl (run : Except ε α) : Simulates Eq run run := fun a ha => ⟨a, ha, rfl⟩

/-- What yields a condition yields it through a simulation. -/
theorem yields {post : α → Prop} (h : Simulates related run other) (hrun : Yields run post) :
    Yields other fun c => ∃ a, run = .ok a ∧ post a ∧ related a c := by
  obtain ⟨a, heq, ha⟩ := hrun
  exact (h a heq).mono fun c hc => ⟨a, heq, ha, hc⟩

/-- Runs in two parts are compared part by part. -/
theorem bind {further : β → δ → Prop} {next : α → Except ε β} {next' : γ → Except ε' δ}
    (h : Simulates related run other)
    (hnext : ∀ a c, related a c → Simulates further (next a) (next' c)) :
    Simulates further (run >>= next) (other >>= next') := by
  intro b hb
  obtain ⟨a, ha, hb⟩ := bind_eq_ok_iff.mp hb
  exact (h a ha).bind fun c hc => hnext a c hc b hb

/-- Changing errors leaves answers alone. -/
theorem mapError {κ κ' : Type} {wrap : ε → κ} {wrap' : ε' → κ'} (h : Simulates related run other) :
    Simulates related (run.mapError wrap) (other.mapError wrap') := by
  intro a ha
  cases run with
  | error e => cases ha
  | ok answer =>
    cases ha
    exact (h a rfl).mapError

/-- Loops over the same entries are compared entry by entry. -/
theorem foldlM {step : α → β → Except ε α} {step' : γ → β → Except ε' γ} {start : α} {start' : γ}
    (hstep : ∀ item a c, related a c → Simulates related (step a item) (step' c item))
    (hstart : related start start') (items : List β) :
    Simulates related (items.foldlM step start) (items.foldlM step' start') := by
  induction items generalizing start start' with
  | nil => exact ok hstart
  | cons item rest ih =>
    rw [List.foldlM_cons, List.foldlM_cons]
    exact (hstep item start start' hstart).bind fun a c hac => ih hac

end Simulates

/-- A loop over the numbers below some number goes through the last of them after the others. -/
theorem foldlM_range_succ (step : α → Nat → Except ε α) (start : α) (k : Nat) :
    (List.range (k + 1)).foldlM step start = (List.range k).foldlM step start >>= (step · k) := by
  rw [List.range_succ, List.foldlM_append]
  simp only [List.foldlM_cons, List.foldlM_nil, bind_pure]

/-- A loop all of whose entries have an answer ends in the list of the answers. -/
theorem mapM_eq_map {step : α → Except ε β} {answer : α → β} {items : List α}
    (hstep : ∀ item ∈ items, step item = .ok (answer item)) :
    items.mapM step = .ok (items.map answer) := by
  induction items with
  | nil => rfl
  | cons item rest ih =>
    rw [List.mapM_cons, hstep item (by simp), ih fun other hother => hstep other (by simp [hother])]
    rfl

/-- A search whose tests all answer finds the first entry with the answer yes. -/
theorem findM?_eq_find? {test : α → Except ε Bool} {answer : α → Bool} {items : List α}
    (htest : ∀ item ∈ items, test item = .ok (answer item)) :
    items.findM? test = .ok (items.find? answer) := by
  induction items with
  | nil => rfl
  | cons item rest ih =>
    rw [List.findM?, htest item (by simp), List.find?_cons]
    cases answer item with
    | true => rfl
    | false => exact ih fun other hother => htest other (by simp [hother])

/-! ### Checked access with a fallback -/

variable {cells : Array α} {i j : Nat} {a fallback : α}

/-- There is an entry inside the array, whatever is read outside. -/
theorem getElem?_eq_getD (fallback : α) (h : i < cells.size) :
    cells[i]? = some (cells.getD i fallback) := by
  rw [Array.getD_eq_getD_getElem?, Array.getElem?_eq_getElem h, Option.getD_some]

/-- There is no entry outside the array. -/
theorem getD_of_size_le (h : cells.size ≤ i) : cells.getD i fallback = fallback := by
  rw [Array.getD_eq_getD_getElem?, Array.getElem?_eq_none h, Option.getD_none]

/-- Arrays of one size are equal when they have the same entries. -/
theorem eq_of_getElem?_eq {others : Array α} {n : Nat} (hsize : cells.size = n) (hsize' : others.size = n)
    (h : ∀ i < n, cells[i]? = others[i]?) : cells = others := by
  apply Array.ext_getElem?
  intro i
  by_cases hi : i < n
  · exact h i hi
  · rw [Array.getElem?_eq_none (by omega), Array.getElem?_eq_none (by omega)]

/-- A read inside the array gives the entry. -/
theorem readAt_eq_getD (fallback : α) (h : i < cells.size) :
    readAt cells i = .ok (cells.getD i fallback) := by
  rw [readAt_of_lt h, Array.getD_eq_getD_getElem?, Array.getElem?_eq_getElem h, Option.getD_some]

/-- A write that succeeds is inside the array. -/
theorem lt_size_of_writeAt {written : Array α} (h : writeAt cells i a = .ok written) : i < cells.size := by
  rw [writeAt] at h
  split at h
  · next hlt => exact hlt
  · cases h

/-- A write inside the array replaces the entry. -/
theorem writeAt_eq_setIfInBounds (a : α) (h : i < cells.size) :
    writeAt cells i a = .ok (cells.setIfInBounds i a) := by
  rw [writeAt_of_lt a h, Array.setIfInBounds, dif_pos h]

/-- The replaced entry can be read back. -/
theorem getD_setIfInBounds_self (h : i < cells.size) :
    (cells.setIfInBounds i a).getD i fallback = a := by
  rw [Array.getD_eq_getD_getElem?, Array.getElem?_setIfInBounds_self_of_lt h, Option.getD_some]

/-- The other entries are as before. -/
theorem getD_setIfInBounds_of_ne (h : j ≠ i) :
    (cells.setIfInBounds i a).getD j fallback = cells.getD j fallback := by
  rw [Array.getD_eq_getD_getElem?, Array.getElem?_setIfInBounds_ne h.symm,
    Array.getD_eq_getD_getElem?]

/-- Two arrays have related entries at the same positions. -/
structure Pairs (related : α → β → Prop) (cells : Array α) (others : Array β) : Prop where
  size_eq : others.size = cells.size
  entry : ∀ i (h : i < cells.size) (h' : i < others.size), related cells[i] others[i]

namespace Pairs

variable {related : α → β → Prop} {others : Array β} {b : β}

/-- Arrays with equal entries are equal. -/
theorem eq {copy : Array α} (h : Pairs Eq cells copy) : copy = cells :=
  Array.ext h.size_eq fun i hi hi' => (h.entry i hi' hi).symm

/-- Reading at one position gives related entries. -/
theorem readAt_simulates (h : Pairs related cells others) (i : Nat) :
    Simulates related (readAt cells i) (readAt others i) := by
  intro a ha
  rw [readAt] at ha
  split at ha
  · next hi =>
    cases ha
    have hi' : i < others.size := h.size_eq.symm ▸ hi
    exact ⟨others[i], readAt_of_lt hi', h.entry i hi hi'⟩
  · cases ha

/-- Writing related entries at one position keeps the entries related. -/
theorem writeAt_simulates (h : Pairs related cells others) (i : Nat) (hab : related a b) :
    Simulates (Pairs related) (writeAt cells i a) (writeAt others i b) := by
  intro written hwritten
  have hi := lt_size_of_writeAt hwritten
  have hi' : i < others.size := h.size_eq.symm ▸ hi
  rw [writeAt_of_lt a hi] at hwritten
  cases hwritten
  refine ⟨others.set i b, writeAt_of_lt b hi', ?_, fun j hj hj' => ?_⟩
  · rw [Array.size_set, Array.size_set, h.size_eq]
  · rw [Array.getElem_set, Array.getElem_set]
    split
    · exact hab
    · exact h.entry j (by simpa using hj) (by simpa using hj')

end Pairs

end GraphKernels
