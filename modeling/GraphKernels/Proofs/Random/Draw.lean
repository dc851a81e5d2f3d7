import GraphKernels.Random.Draw

/-!
# What every draw satisfies

A draw always satisfies a condition when what it gives does, wherever in whichever stream it starts. Draws one
after the other are handled part by part, so nothing is said of words once the draws of a single number are
known to stay in their range. Drawing several times gives as many, and a shuffle gives the items that it is
given.
-/

namespace GraphKernels.Random

variable {α β : Type} {draw : Draw α} {holds : α → Prop} {holds' : β → Prop}

/-- What is drawn satisfies the condition, whatever the stream is. -/
def Always (draw : Draw α) (holds : α → Prop) : Prop := ∀ s, holds (draw.run s).1

namespace Always

/-- What needs no draw satisfies what it satisfies. -/
theorem pure {a : α} (h : holds a) : Always (pure a) holds := fun _ => h

/-- The second of two draws may depend on what the first one has given. -/
theorem bind {next : α → Draw β} (h : Always draw holds) (hnext : ∀ a, holds a → Always (next a) holds') :
    Always (draw >>= next) holds' := fun s => hnext _ (h s) _

/-- The condition can be weakened. -/
theorem mono {weaker : α → Prop} (h : Always draw holds) (himp : ∀ a, holds a → weaker a) :
    Always draw weaker := fun s => himp _ (h s)

end Always

/-- A number from a range lies in the range. -/
theorem always_below {r : Nat} (hr : 0 < r) : Always (below r) (· < r) := below_lt hr

/-- A number from a long range lies in the range. -/
theorem always_longBelow {r : Nat} (hr : 0 < r) : Always (longBelow r) (· < r) := longBelow_lt hr

/-! ### Draws without a bound -/

/-- A draw is repeated until what it gives is accepted. The number counts the rejected draws, and the pair holds what
is accepted and where it leaves the stream. -/
inductive Repeated (draw : Stream → α × Stream → Prop) (accepted : α → Prop) : Nat → Stream → α × Stream → Prop
  | stop {s : Stream} {last : α × Stream} (hdraw : draw s last) (haccepted : accepted last.1) :
      Repeated draw accepted 0 s last
  | again {k : Nat} {s : Stream} {first last : α × Stream} (hdraw : draw s first) (hrejected : ¬ accepted first.1)
      (hrest : Repeated draw accepted k first.2 last) : Repeated draw accepted (k + 1) s last

/-- A number below `r` is drawn from words of some width, however many of them are rejected. -/
def DrawnBelow (bits : Nat) (next : Draw Nat) (r rejected : Nat) (s : Stream) (drawn : Nat × Stream) : Prop :=
  ∃ word, Repeated (fun s read => next.run s = read)
      (fun word => word * r % Nat.pow 2 bits ≤ acceptedZone bits r) rejected s word ∧
    drawn = (word.1 * r / Nat.pow 2 bits, word.2)

/-- A draw with a bound gives what the one without gives, unless that one rejects more words. -/
theorem drawBelow_eq {bits r rejected patience : Nat} {next : Draw Nat} {s : Stream} {drawn : Nat × Stream}
    (h : DrawnBelow bits next r rejected s drawn) (hpatience : rejected ≤ patience) :
    (drawBelow bits next r patience).run s = drawn := by
  obtain ⟨word, hword, rfl⟩ := h
  induction hword generalizing patience with
  | @stop s last hread haccepted =>
    subst hread
    cases patience with
    | zero => rfl
    | succ patience => rw [drawBelow_succ, if_pos haccepted]
  | @again k s first last hread hrejected _ ih =>
    subst hread
    obtain ⟨patience, rfl⟩ := Nat.exists_eq_add_of_le' hpatience
    rw [← Nat.add_assoc, drawBelow_succ, if_neg hrejected]
    exact ih (Nat.le_add_left k patience)

/-! ### Draws one after the other -/

/-- Drawing several times adds as many entries, and all of them satisfy what every single one does. -/
theorem always_drawOnto (h : Always draw holds) (count : Nat) {drawn : Array α} (hdrawn : ∀ a ∈ drawn, holds a) :
    Always (drawOnto draw drawn count) fun all => all.size = drawn.size + count ∧ ∀ a ∈ all, holds a := by
  induction count generalizing drawn with
  | zero => exact .pure ⟨rfl, hdrawn⟩
  | succ count ih =>
    rw [drawOnto]
    refine h.bind fun a ha => ?_
    have hpushed : ∀ b ∈ drawn.push a, holds b := by
      intro b hb
      rcases Array.mem_push.mp hb with hb | rfl
      · exact hdrawn b hb
      · exact ha
    refine (ih hpushed).mono fun all hall => ?_
    obtain ⟨hsize, hentries⟩ := hall
    refine ⟨?_, hentries⟩
    rw [hsize, Array.size_push]
    omega

/-- Drawing several times gives as many entries, and all of them satisfy what every single one does. -/
theorem always_drawMany (h : Always draw holds) (count : Nat) :
    Always (drawMany count draw) fun all => all.size = count ∧ ∀ a ∈ all, holds a := by
  have hnone : ∀ a ∈ (#[] : Array α), holds a := fun a ha => by simp at ha
  refine (always_drawOnto h count hnone).mono fun all hall => ?_
  obtain ⟨hsize, hentries⟩ := hall
  exact ⟨by simpa using hsize, hentries⟩

/-- Two entries change places, or none do. -/
theorem swapIfInBounds_perm (items : Array α) (i j : Nat) : (items.swapIfInBounds i j).Perm items := by
  rw [Array.swapIfInBounds]
  split
  · split
    · exact Array.swap_perm _ _
    · exact .refl items
  · exact .refl items

/-- Each swap of a shuffle keeps the items. -/
theorem always_shuffleFrom (last : Nat) (items : Array α) : Always (shuffleFrom last items) (·.Perm items) := by
  induction last generalizing items with
  | zero => exact .pure (.refl items)
  | succ last ih =>
    rw [shuffleFrom]
    refine (always_below (Nat.succ_pos (last + 1))).bind fun other _ => ?_
    refine (ih (items.swapIfInBounds (last + 1) other)).mono fun shuffled hshuffled => ?_
    exact hshuffled.trans (swapIfInBounds_perm items (last + 1) other)

/-- A shuffle only reorders the items. -/
theorem always_shuffle (items : Array α) : Always (shuffle items) (·.Perm items) :=
  always_shuffleFrom (items.size - 1) items

end GraphKernels.Random
