import Mathlib.Data.List.Pairwise
import Mathlib.Data.List.Perm.Basic

/-!
# Support — Positions

The elements of a nested list by their positions.  `Positions read l` says that `read` gives the
elements of `l`, each position one element: a position of a list is an index, and a position of a
list of lists is an index and a position inside.

* `Positions.list`, `Positions.nest`: the two ways to build one.
* `Positions.exists_iff`: a symmetric relation holds between two different positions when it holds
  between two places of the flat list.
-/

variable {α β κ : Type*}

/-- `read` gives the elements of `l` by position. -/
structure Positions (read : κ → Option α) (l : List α) : Prop where
  mem : ∀ x, (∃ k, read k = some x) ↔ x ∈ l
  pairwise : ∀ R : α → α → Prop, (∀ x y, R x y → R y x) →
    ((∀ i j x y, i ≠ j → read i = some x → read j = some y → R x y) ↔ l.Pairwise R)

namespace Positions

/-- The positions of a list are its indices. -/
theorem list (l : List α) : Positions (fun i : Nat => l[i]?) l where
  mem x := List.mem_iff_getElem?.symm
  pairwise R hs := by
    rw [List.pairwise_iff_getElem]
    constructor
    · intro h i j hi hj hij
      exact h i j _ _ (Nat.ne_of_lt hij) (List.getElem?_eq_getElem hi) (List.getElem?_eq_getElem hj)
    · intro h i j x y hij hx hy
      obtain ⟨hi, rfl⟩ := List.getElem?_eq_some_iff.mp hx
      obtain ⟨hj, rfl⟩ := List.getElem?_eq_some_iff.mp hy
      rcases Nat.lt_or_gt_of_ne hij with hlt | hgt
      · exact h i j hi hj hlt
      · exact hs _ _ (h j i hj hi hgt)

/-- The positions inside the elements of a list. -/
theorem nest {read : β → κ → Option α} (flat : β → List α)
    (h : ∀ b, Positions (read b) (flat b)) (l : List β) :
    Positions (fun p : Nat × κ => l[p.1]?.bind fun b => read b p.2) (l.flatMap flat) where
  mem x := by
    rw [List.mem_flatMap]
    constructor
    · rintro ⟨⟨i, k⟩, hx⟩
      obtain ⟨b, hb, hx⟩ := Option.bind_eq_some_iff.mp hx
      exact ⟨b, List.mem_of_getElem? hb, ((h b).mem x).mp ⟨k, hx⟩⟩
    · rintro ⟨b, hb, hx⟩
      obtain ⟨i, hi⟩ := List.mem_iff_getElem?.mp hb
      obtain ⟨k, hk⟩ := ((h b).mem x).mpr hx
      exact ⟨(i, k), by simp [hi, hk]⟩
  pairwise R hs := by
    rw [List.pairwise_flatMap, ← (list l).pairwise _ fun b b' hb y hy x hx => hs _ _ (hb x hx y hy)]
    constructor
    · intro hp
      refine ⟨fun b hb => ((h b).pairwise R hs).mp ?_, ?_⟩
      · intro k k' x y hk hx hy
        obtain ⟨i, hi⟩ := List.mem_iff_getElem?.mp hb
        exact hp (i, k) (i, k') x y (by simpa using hk) (by simp [hi, hx]) (by simp [hi, hy])
      · intro i j b b' hij hb hb' x hx y hy
        obtain ⟨k, hk⟩ := ((h b).mem x).mpr hx
        obtain ⟨k', hk'⟩ := ((h b').mem y).mpr hy
        exact hp (i, k) (j, k') x y (by simp [hij]) (by simp [hb, hk]) (by simp [hb', hk'])
    · rintro ⟨hin, hout⟩ ⟨i, k⟩ ⟨j, k'⟩ x y hne hx hy
      obtain ⟨b, hb, hx⟩ := Option.bind_eq_some_iff.mp hx
      obtain ⟨b', hb', hy⟩ := Option.bind_eq_some_iff.mp hy
      by_cases hij : i = j
      · subst hij
        obtain rfl : b = b' := Option.some.inj (hb.symm.trans hb')
        have hk : k ≠ k' := fun e => hne (by rw [e])
        exact ((h b).pairwise R hs).mpr (hin b (List.mem_of_getElem? hb)) k k' x y hk hx hy
      · exact hout i j b b' hij hb hb' x (((h b).mem x).mp ⟨k, hx⟩) y (((h b').mem y).mp ⟨k', hy⟩)

/-- **Two positions in relation** are two places of the flat list in relation. -/
theorem exists_iff {read : κ → Option α} {l : List α} (h : Positions read l)
    (R : α → α → Prop) (hs : ∀ x y, R x y → R y x) :
    (∃ i j x y, i ≠ j ∧ read i = some x ∧ read j = some y ∧ R x y) ↔
      ¬ l.Pairwise fun x y => ¬ R x y := by
  rw [← h.pairwise (fun x y => ¬ R x y) fun x y hxy hyx => hxy (hs y x hyx)]
  push Not
  rfl

end Positions
