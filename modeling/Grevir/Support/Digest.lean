import Mathlib.Logic.Function.Defs
import Mathlib.Tactic.Common

/-!
# Support — Digest

A digest that runs over a text one letter at a time.  Where a step can be undone, knowing the letter or
knowing what ran before it, no change of a single letter leaves the digest as it was.

* `Reversible.foldl_injective`: the digest of the rest of a text can be undone.
* `Reversible.change`: two texts that differ in one letter have different digests.
-/

namespace Digest

variable {σ α : Type*}

/-- A step on the values of `S` that can be undone. -/
structure Reversible (S : σ → Prop) (step : σ → α → σ) : Prop where
  keeps : ∀ {s a}, S s → S (step s a)
  value : ∀ {s t a}, S s → S t → step s a = step t a → s = t
  letter : ∀ {s a b}, S s → step s a = step s b → a = b

namespace Reversible

variable {S : σ → Prop} {step : σ → α → σ}

theorem foldl_keeps (h : Reversible S step) {s : σ} (hs : S s) (l : List α) : S (l.foldl step s) := by
  induction l generalizing s with
  | nil => exact hs
  | cons a l ih => exact ih (h.keeps hs)

theorem foldl_injective (h : Reversible S step) {s t : σ} (hs : S s) (ht : S t) {l : List α}
    (heq : l.foldl step s = l.foldl step t) : s = t := by
  induction l generalizing s t with
  | nil => exact heq
  | cons a l ih => exact h.value hs ht (ih (h.keeps hs) (h.keeps ht) heq)

/-- **One letter tells.** -/
theorem change (h : Reversible S step) {s : σ} (hs : S s) {front rest : List α} {a b : α}
    (heq : (front ++ a :: rest).foldl step s = (front ++ b :: rest).foldl step s) : a = b := by
  rw [List.foldl_append, List.foldl_append, List.foldl_cons, List.foldl_cons] at heq
  have hfront := h.foldl_keeps hs front
  exact h.letter hfront (h.foldl_injective (h.keeps hfront) (h.keeps hfront) heq)

end Reversible

end Digest
