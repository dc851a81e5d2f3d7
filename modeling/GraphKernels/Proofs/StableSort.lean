import Mathlib.Data.List.Sort

/-!
# Sorting by a key

Sorting by a key keeps the order of the items that have one key. Together with the order of the keys this
determines the result, so items that are collected key by key are sorted.
-/

namespace GraphKernels

variable {α : Type} {key : α → Nat} {items sorted : List α} {n : Nat}

/-- The items by ascending key, those that have one key in the order in which they come. -/
def sortedBy (key : α → Nat) (items : List α) : List α := items.mergeSort (key · ≤ key ·)

/-- Sorting loses nothing and adds nothing. -/
theorem sortedBy_perm (key : α → Nat) (items : List α) : (sortedBy key items).Perm items :=
  List.mergeSort_perm items _

/-- Keys ascend after sorting. -/
theorem sortedBy_pairwise (key : α → Nat) (items : List α) :
    (sortedBy key items).Pairwise (key · ≤ key ·) := by
  have : Std.Total fun a b => key a ≤ key b := ⟨fun a b => Nat.le_total (key a) (key b)⟩
  have : IsTrans α fun a b => key a ≤ key b := ⟨fun _ _ _ => Nat.le_trans⟩
  exact List.pairwise_mergeSort' (fun a b => key a ≤ key b) items

/-- Items that have one key keep their order. -/
theorem filter_key_sortedBy (key : α → Nat) (items : List α) (k : Nat) :
    (sortedBy key items).filter (key · == k) = items.filter (key · == k) := by
  have htied : (items.filter (key · == k)).Pairwise fun a b => decide (key a ≤ key b) = true := by
    apply List.pairwise_of_forall_mem_list
    intro a ha b hb
    have hka := beq_iff_eq.mp (List.mem_filter.mp ha).2
    have hkb := beq_iff_eq.mp (List.mem_filter.mp hb).2
    exact decide_eq_true (Nat.le_of_eq (hka.trans hkb.symm))
  have hkept : (items.filter (key · == k)).Sublist (sortedBy key items) :=
    List.sublist_mergeSort (fun a b c => by simpa using Nat.le_trans)
      (fun a b => by simpa using Nat.le_total (key a) (key b)) htied List.filter_sublist
  have hfiltered := hkept.filter (key · == k)
  simp only [List.filter_filter, Bool.and_self] at hfiltered
  exact (hfiltered.eq_of_length ((sortedBy_perm key items).filter _).length_eq.symm).symm

/-- Lists in which keys ascend are equal when they have the same items with each key, in the same order. -/
theorem eq_of_filter_key_eq {others : List α} (h : items.Pairwise (key · ≤ key ·))
    (h' : others.Pairwise (key · ≤ key ·))
    (hfilter : ∀ k, items.filter (key · == k) = others.filter (key · == k)) : items = others := by
  have hmem {items others : List α} (hfilter : ∀ k, items.filter (key · == k) = others.filter (key · == k))
      {a : α} (ha : a ∈ items) : a ∈ others := by
    have hkey : a ∈ items.filter (key · == key a) := by simp [ha]
    rw [hfilter] at hkey
    exact (List.mem_filter.mp hkey).1
  induction items generalizing others with
  | nil =>
    cases others with
    | nil => rfl
    | cons b rest => exact absurd (hmem (fun k => (hfilter k).symm) List.mem_cons_self) (by simp)
  | cons a items ih =>
    cases others with
    | nil => exact absurd (hmem hfilter List.mem_cons_self) (by simp)
    | cons b others =>
      rw [List.pairwise_cons] at h h'
      -- Each of the first items is somewhere in the other list, so neither has the larger key.
      have hab : key a ≤ key b := by
        rcases List.mem_cons.mp (hmem (fun k => (hfilter k).symm) (List.mem_cons_self (a := b))) with rfl | hb
        · exact Nat.le_refl _
        · exact h.1 b hb
      have hba : key b ≤ key a := by
        rcases List.mem_cons.mp (hmem hfilter (List.mem_cons_self (a := a))) with rfl | ha
        · exact Nat.le_refl _
        · exact h'.1 a ha
      have hkey : key b = key a := Nat.le_antisymm hba hab
      have hfirst := hfilter (key a)
      rw [List.filter_cons_of_pos (by simp), List.filter_cons_of_pos (by simp [hkey]),
        List.cons.injEq] at hfirst
      obtain ⟨rfl, _⟩ := hfirst
      congr 1
      apply ih h.2 h'.2
      intro k
      have hk := hfilter k
      rw [List.filter_cons, List.filter_cons] at hk
      split at hk
      · exact (List.cons.inj hk).2
      · exact hk

/-- A list is the sorted one when keys ascend and the items that have one key are in the same order. -/
theorem eq_sortedBy_iff : sorted = sortedBy key items ↔
    sorted.Pairwise (key · ≤ key ·) ∧ ∀ k, sorted.filter (key · == k) = items.filter (key · == k) := by
  constructor
  · rintro rfl
    exact ⟨sortedBy_pairwise key items, filter_key_sortedBy key items⟩
  · intro ⟨hascends, hties⟩
    apply eq_of_filter_key_eq hascends (sortedBy_pairwise key items)
    intro k
    rw [hties, filter_key_sortedBy]

/-- Sorting what passes a test is the same as testing what is sorted. -/
theorem filter_sortedBy (test : α → Bool) (items : List α) :
    (sortedBy key items).filter test = sortedBy key (items.filter test) := by
  refine eq_sortedBy_iff.mpr ⟨(sortedBy_pairwise key items).filter test, fun k => ?_⟩
  rw [List.filter_comm, filter_key_sortedBy, List.filter_comm]

/-- Of items that are listed key by key, those with one key are the ones that are listed for it. -/
theorem filter_key_flatMap {bin : Nat → List α} (hbin : ∀ k, ∀ a ∈ bin k, key a = k) {k : Nat} (hk : k < n) :
    ((List.range n).flatMap bin).filter (key · == k) = bin k := by
  have hfilter (j : Nat) : (bin j).filter (key · == k) = if j = k then bin k else [] := by
    split
    · next heq =>
      subst heq
      exact List.filter_eq_self.mpr fun a ha => beq_iff_eq.mpr (hbin j a ha)
    · next hne => exact List.filter_eq_nil_iff.mpr fun a ha => by simpa [hbin j a ha] using hne
  have hlead (m : Nat) : ((List.range m).flatMap bin).filter (key · == k) = if k < m then bin k else [] := by
    induction m with
    | zero => rfl
    | succ m ih =>
      rw [List.range_succ, List.flatMap_append, List.filter_append, ih, List.flatMap_singleton, hfilter]
      rcases Nat.lt_trichotomy k m with hlt | rfl | hlt
      · simp [hlt, Nat.lt_succ_of_lt hlt, Nat.ne_of_gt hlt]
      · simp
      · simp [Nat.lt_asymm hlt, Nat.ne_of_lt hlt, show ¬ k < m + 1 by omega]
  rw [hlead, if_pos hk]

/-- Items that are collected key by key are sorted. -/
theorem flatMap_filter_key (h : ∀ a ∈ items, key a < n) :
    (List.range n).flatMap (fun k => items.filter (key · == k)) = sortedBy key items := by
  have hbin (k : Nat) (a : α) (ha : a ∈ items.filter (key · == k)) : key a = k :=
    beq_iff_eq.mp (List.mem_filter.mp ha).2
  refine eq_sortedBy_iff.mpr ⟨?_, fun k => ?_⟩
  · rw [List.pairwise_flatMap]
    constructor
    · intro k _
      apply List.pairwise_of_forall_mem_list
      intro a ha b hb
      exact Nat.le_of_eq ((hbin k a ha).trans (hbin k b hb).symm)
    · apply List.pairwise_lt_range.imp
      intro k k' hlt a ha b hb
      rw [hbin k a ha, hbin k' b hb]
      exact Nat.le_of_lt hlt
  · by_cases hk : k < n
    · exact filter_key_flatMap hbin hk
    · have hnone (a : α) (ha : a ∈ items) : ¬ (key a == k) = true := fun heq =>
        hk (beq_iff_eq.mp heq ▸ h a ha)
      rw [List.filter_eq_nil_iff.mpr hnone, List.filter_eq_nil_iff]
      intro a ha
      obtain ⟨j, _, hj⟩ := List.mem_flatMap.mp ha
      exact hnone a (List.mem_filter.mp hj).1

end GraphKernels
