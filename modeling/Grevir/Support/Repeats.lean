import Mathlib.Data.List.Count
import Mathlib.Data.List.Nodup
import Mathlib.Data.List.Perm.Subperm

/-!
# Support — Repeats

A list against its members taken once.  What a list says of its members, one after the other, is what
they say once and what the repeated ones say again.

* `flatMap_perm_iff`: the two say the same where repeated members say nothing.
* `two_le_count_flatMap_iff`: a member of two of the lists a list is put together from.
-/

namespace Repeats

variable {α β κ : Type*} [DecidableEq α]

/-- The members once, and then the repeated ones again. -/
theorem append_diff_perm {all once : List α} (hnodup : once.Nodup)
    (hmem : ∀ a, a ∈ once ↔ a ∈ all) : (once ++ all.diff once).Perm all := by
  refine List.subperm_append_diff_self_of_count_le fun a ha => ?_
  rw [List.count_eq_one_of_mem hnodup ha]
  exact List.one_le_count_iff.mpr ((hmem a).mp ha)

theorem mem_diff_iff {all once : List α} (hnodup : once.Nodup) (hmem : ∀ a, a ∈ once ↔ a ∈ all)
    {a : α} : a ∈ all.diff once ↔ 2 ≤ all.count a := by
  rw [← List.one_le_count_iff, List.count_diff]
  by_cases ha : a ∈ once
  · rw [List.count_eq_one_of_mem hnodup ha, Nat.le_sub_iff_add_le
      (List.one_le_count_iff.mpr ((hmem a).mp ha))]
  · rw [List.count_eq_zero_of_not_mem ha, List.count_eq_zero_of_not_mem (mt (hmem a).mpr ha)]
    exact iff_of_false (by decide) (by decide)

/-- **A list says what its members say once, exactly where repeated members say nothing.** -/
theorem flatMap_perm_iff {all once : List α} (hnodup : once.Nodup) (hmem : ∀ a, a ∈ once ↔ a ∈ all)
    (f : α → List β) :
    (all.flatMap f).Perm (once.flatMap f) ↔ ∀ a, 2 ≤ all.count a → f a = [] := by
  have hsplit : (all.flatMap f).Perm (once.flatMap f ++ (all.diff once).flatMap f) := by
    rw [← List.flatMap_append]
    exact (append_diff_perm hnodup hmem).symm.flatMap_right f
  have hnil : (all.flatMap f).Perm (once.flatMap f) ↔ (all.diff once).flatMap f = [] := by
    constructor
    · intro h
      have hlen := (hsplit.symm.trans h).length_eq
      rw [List.length_append] at hlen
      exact List.length_eq_zero_iff.mp (Nat.add_eq_left.mp hlen)
    · intro h
      rwa [h, List.append_nil] at hsplit
  rw [hnil, List.flatMap_eq_nil_iff]
  simp only [mem_diff_iff hnodup hmem]

/-- **A member that stands twice is a member of two of the lists.** -/
theorem two_le_count_flatMap_iff [DecidableEq κ] {l : List κ} {f : κ → List α} (hl : l.Nodup)
    (hf : ∀ k ∈ l, (f k).Nodup) {a : α} :
    2 ≤ (l.flatMap f).count a ↔ ∃ k ∈ l, ∃ k' ∈ l, k ≠ k' ∧ a ∈ f k ∧ a ∈ f k' := by
  have hsplit : ∀ k ∈ l, (l.flatMap f).count a =
      (f k).count a + ((l.erase k).flatMap f).count a := by
    intro k hk
    rw [((List.perm_cons_erase hk).flatMap_right f).count_eq, List.flatMap_cons, List.count_append]
  constructor
  · intro h
    obtain ⟨k, hk, hka⟩ := List.mem_flatMap.mp (List.one_le_count_iff.mp (Nat.le_of_succ_le h))
    have hrest : 1 ≤ ((l.erase k).flatMap f).count a := by
      have hone := List.count_eq_one_of_mem (hf k hk) hka
      have := hsplit k hk
      omega
    obtain ⟨k', hk', hka'⟩ := List.mem_flatMap.mp (List.one_le_count_iff.mp hrest)
    obtain ⟨hne, hk'⟩ := hl.mem_erase_iff.mp hk'
    exact ⟨k, hk, k', hk', hne.symm, hka, hka'⟩
  · rintro ⟨k, hk, k', hk', hne, hka, hka'⟩
    have hrest : a ∈ (l.erase k).flatMap f :=
      List.mem_flatMap.mpr ⟨k', hl.mem_erase_iff.mpr ⟨hne.symm, hk'⟩, hka'⟩
    rw [hsplit k hk]
    exact Nat.add_le_add (List.one_le_count_iff.mpr hka) (List.one_le_count_iff.mpr hrest)

end Repeats
