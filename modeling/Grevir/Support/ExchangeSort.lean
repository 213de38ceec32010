import Mathlib.Data.List.FinRange
import Mathlib.Data.List.Sort
import Mathlib.Order.Lattice

/-!
# Support — ExchangeSort

Sorting in place by two nested loops: for each `i`, for each later `j`, the elements at `i` and `j`
change places where the one at `j` is the smaller.  The loops end at `count`, which may be before
the end of the array.  A state may be anything that can be seen as one array, such as several arrays
whose elements change places together.

* `loop_induct`: what holds at the start of a loop, and is kept by its body, holds at its end.
* `sort_view`: sorting a state is sorting what it is seen as.
* `take_sortArray_perm`, `drop_sortArray`, `take_sortArray_sorted`: the part below `count` is permuted
  into order, the rest stays.
* `sortArray_eq_of_perm`: arrays of the same elements, no two with one key, are sorted alike.
-/

namespace ExchangeSort

variable {σ τ α κ : Type*} {n count : Nat}

/-! ### Loops -/

/-- `for (j = start; j < limit; ++j)`. -/
def loop (start limit : Nat) (body : Fin limit → σ → σ) (s : σ) : σ :=
  ((List.finRange limit).drop start).foldl (fun s j => body j s) s

/-- The two loops, around what they do at `i` and `j`. -/
def sort (count : Nat) (exchange : Fin count → Fin count → σ → σ) (s : σ) : σ :=
  loop 0 count (fun i => loop (i + 1) count (exchange i)) s

theorem loop_end {start limit : Nat} (h : limit ≤ start) (body : Fin limit → σ → σ) (s : σ) :
    loop start limit body s = s := by
  rw [loop, List.drop_eq_nil_of_le (by simpa using h), List.foldl_nil]

theorem loop_step {start limit : Nat} (h : start < limit) (body : Fin limit → σ → σ) (s : σ) :
    loop start limit body s = loop (start + 1) limit body (body ⟨start, h⟩ s) := by
  rw [loop, List.drop_eq_getElem_cons (by simpa using h), List.foldl_cons, List.getElem_finRange]
  rfl

/-- **The rule of a loop.**  `P j` is what holds before the body runs at `j`. -/
theorem loop_induct {start limit : Nat} {body : Fin limit → σ → σ} {P : Nat → σ → Prop}
    (hle : start ≤ limit) {s : σ} (h0 : P start s)
    (hs : ∀ (j : Fin limit) (s : σ), start ≤ j → P j s → P (j + 1) (body j s)) :
    P limit (loop start limit body s) := by
  induction hk : limit - start generalizing start s with
  | zero =>
      obtain rfl : start = limit := by omega
      rwa [loop_end (Nat.le_refl _)]
  | succ k ih =>
      have hlt : start < limit := by omega
      rw [loop_step hlt]
      refine ih hlt (hs ⟨start, hlt⟩ s (Nat.le_refl _) h0) ?_ (by omega)
      intro j s hj
      exact hs j s (Nat.le_of_succ_le hj)

/-- A loop on a state, seen as a loop on what the state is seen as. -/
theorem loop_view {start limit : Nat} {body : Fin limit → σ → σ} {body' : Fin limit → τ → τ}
    (view : σ → τ) (h : ∀ j s, view (body j s) = body' j (view s)) (s : σ) :
    view (loop start limit body s) = loop start limit body' (view s) := by
  rw [loop, loop]
  exact (List.foldl_hom view fun s j => (h j s).symm).symm

/-- **Sorting a state is sorting what it is seen as.** -/
theorem sort_view {exchange : Fin count → Fin count → σ → σ}
    {exchange' : Fin count → Fin count → τ → τ} (view : σ → τ)
    (h : ∀ i j s, view (exchange i j s) = exchange' i j (view s)) (s : σ) :
    view (sort count exchange s) = sort count exchange' (view s) := by
  rw [sort, sort]
  refine loop_view view (fun i s => ?_) s
  exact loop_view view (h i) s

/-- What no exchange changes, sorting does not change. -/
theorem sort_keeps {exchange : Fin count → Fin count → σ → σ} (view : σ → τ)
    (h : ∀ i j s, view (exchange i j s) = view s) (s : σ) :
    view (sort count exchange s) = view s := by
  have hloop : ∀ (start : Nat) (body : Fin count → σ → σ), start ≤ count →
      (∀ j s, view (body j s) = view s) → ∀ s, view (loop start count body s) = view s := by
    intro start body hle hbody s
    refine loop_induct (P := fun _ t => view t = view s) hle rfl ?_
    intro j t _ ht
    rw [hbody, ht]
  refine hloop 0 _ (Nat.zero_le _) (fun i t => ?_) s
  exact hloop (i + 1) _ i.isLt (h i) t

/-! ### One array -/

variable [LinearOrder κ] (key : α → κ)

/-- What the loops do with one array. -/
def exchange (i j : Fin n) (v : Vector α n) : Vector α n :=
  if key (v.get j) < key (v.get i) then v.swap i j i.isLt j.isLt else v

/-- The loops, on the first `count` elements of an array. -/
def sortArray (hle : count ≤ n) (v : Vector α n) : Vector α n :=
  sort count (fun i j => exchange key (i.castLE hle) (j.castLE hle)) v

variable {key}

/-- What holds of the array before the outer loop runs at `i`: it is a permutation of the first
array, the same from `count` on, and each element before `i` is at most every later one. -/
structure Sorting (key : α → κ) (count : Nat) (v₀ : Vector α n) (i : Nat) (v : Vector α n) :
    Prop where
  perm : v.Perm v₀
  rest : ∀ k : Fin n, count ≤ k → v.get k = v₀.get k
  first : ∀ a b : Fin n, a < i → a < b → b < count → key (v.get a) ≤ key (v.get b)

/-- What holds before the inner loop runs at `j`: the element at `i` is also at most every one
between. -/
structure Selecting (key : α → κ) (count : Nat) (v₀ : Vector α n) (i : Fin n) (j : Nat)
    (v : Vector α n) : Prop extends Sorting key count v₀ i v where
  least : ∀ b : Fin n, i < b → b < j → key (v.get i) ≤ key (v.get b)

theorem get_mk (v : Vector α n) (k : Nat) (hk : k < n) : v.get ⟨k, hk⟩ = v[k] := rfl

theorem get_swap (v : Vector α n) (i j k : Fin n) :
    (v.swap i j i.isLt j.isLt).get k =
      if k = i then v.get j else if k = j then v.get i else v.get k := by
  obtain ⟨i, hi⟩ := i
  obtain ⟨j, hj⟩ := j
  obtain ⟨k, hk⟩ := k
  simp only [get_mk, Vector.getElem_swap, Fin.mk.injEq]

/-- One run of the inner loop's body. -/
theorem Selecting.step {v₀ v : Vector α n} {i j : Fin n} (hij : i < j) (hj : j < count)
    (h : Selecting key count v₀ i j v) :
    Selecting key count v₀ i (j + 1) (exchange key i j v) := by
  unfold exchange
  split
  next hlt =>
    refine ⟨⟨(Vector.swap_perm _ _).trans h.perm, fun k hk => ?_, fun a b ha hab hb => ?_⟩,
      fun b hib hbj => ?_⟩
    · have hki : k ≠ i := by omega
      have hkj : k ≠ j := by omega
      rw [get_swap, if_neg hki, if_neg hkj, h.rest k hk]
    · -- the elements before `i` stay, and what comes after one of them came after it before
      have hai : a ≠ i := by omega
      have haj : a ≠ j := by omega
      rw [get_swap, if_neg hai, if_neg haj, get_swap]
      split
      · exact h.first a j ha (by omega) hj
      split
      · exact h.first a i ha (by omega) (by omega)
      · exact h.first a b ha hab hb
    · have hbi : b ≠ i := by omega
      rw [get_swap, if_pos rfl, get_swap, if_neg hbi]
      split
      · exact hlt.le
      next hbj' => exact hlt.le.trans (h.least b hib (by omega))
  next hge =>
    refine ⟨h.toSorting, fun b hib hbj => ?_⟩
    by_cases hb : b = j
    · exact hb ▸ not_lt.mp hge
    · exact h.least b hib (by omega)

/-- One run of the outer loop's body. -/
theorem Sorting.step {v₀ v : Vector α n} {i : Fin count} (hle : count ≤ n)
    (h : Sorting key count v₀ i v) :
    Sorting key count v₀ (i + 1) (loop (i + 1) count
      (fun j => exchange key (i.castLE hle) (j.castLE hle)) v) := by
  have hinner : Selecting key count v₀ (i.castLE hle) count (loop (i + 1) count
      (fun j => exchange key (i.castLE hle) (j.castLE hle)) v) := by
    refine loop_induct (P := Selecting key count v₀ (i.castLE hle)) i.isLt ?_ ?_
    · exact ⟨h, fun b hib hbj => absurd hbj (Nat.not_lt.mpr hib)⟩
    · intro j v hj hv
      exact Selecting.step (j := j.castLE hle) hj j.isLt hv
  refine ⟨hinner.perm, hinner.rest, fun a b ha hab hb => ?_⟩
  by_cases hai : a = i.castLE hle
  · subst hai
    exact hinner.least b hab hb
  · refine hinner.first a b ?_ hab hb
    have : (a : Nat) ≠ i := fun e => hai (Fin.ext e)
    simp only [Fin.val_castLE]
    omega

variable (key)

/-- **What the loops leave.** -/
theorem sortArray_sorting (hle : count ≤ n) (v : Vector α n) :
    Sorting key count v count (sortArray key hle v) := by
  refine loop_induct (P := Sorting key count v) (Nat.zero_le _) ?_ fun i s _ h => h.step hle
  exact ⟨.refl _, fun _ _ => rfl, fun a _ ha => absurd ha (Nat.not_lt_zero a)⟩

/-- From `count` on nothing changes. -/
theorem drop_sortArray (hle : count ≤ n) (v : Vector α n) :
    (sortArray key hle v).toList.drop count = v.toList.drop count := by
  refine List.ext_getElem (by simp) fun k h₁ h₂ => ?_
  have hk : count + k < n := by simp at h₁; omega
  have hrest := (sortArray_sorting key hle v).rest ⟨count + k, hk⟩ (Nat.le_add_right _ _)
  simpa [get_mk] using hrest

/-- Below `count` the elements are permuted. -/
theorem take_sortArray_perm (hle : count ≤ n) (v : Vector α n) :
    ((sortArray key hle v).toList.take count).Perm (v.toList.take count) := by
  have hperm := (sortArray_sorting key hle v).perm.toList
  rw [← List.take_append_drop count (sortArray key hle v).toList, drop_sortArray] at hperm
  nth_rewrite 2 [← List.take_append_drop count v.toList] at hperm
  exact (List.perm_append_right_iff _).mp hperm

/-- Below `count` the keys stand in order. -/
theorem take_sortArray_sorted (hle : count ≤ n) (v : Vector α n) :
    ((sortArray key hle v).toList.take count).Pairwise fun x y => key x ≤ key y := by
  rw [List.pairwise_iff_getElem]
  intro a b ha hb hab
  have hb' : b < count ∧ b < n := by simpa [Nat.lt_min] using hb
  have h := (sortArray_sorting key hle v).first ⟨a, hab.trans hb'.2⟩ ⟨b, hb'.2⟩ (hab.trans hb'.1)
    hab hb'.1
  simpa [get_mk] using h

/-- **Different keys stand in strict order.** -/
theorem take_sortArray_strict (hle : count ≤ n) {v : Vector α n}
    (hkeys : ((v.toList.take count).map key).Nodup) :
    ((sortArray key hle v).toList.take count).Pairwise fun x y => key x < key y := by
  have hnodup : (((sortArray key hle v).toList.take count).map key).Nodup :=
    (((take_sortArray_perm key hle v).map key).nodup_iff).mpr hkeys
  refine ((take_sortArray_sorted key hle v).and (List.pairwise_map.mp hnodup)).imp ?_
  rintro x y ⟨hle, hne⟩
  exact lt_of_le_of_ne hle hne

/-- **Arrays of the same elements, no two with one key, are sorted alike.** -/
theorem sortArray_eq_of_perm (hle : count ≤ n) {v w : Vector α n}
    (hkeys : ((v.toList.take count).map key).Nodup)
    (hperm : (v.toList.take count).Perm (w.toList.take count))
    (hrest : v.toList.drop count = w.toList.drop count) :
    sortArray key hle v = sortArray key hle w := by
  have htake : (sortArray key hle v).toList.take count = (sortArray key hle w).toList.take count := by
    refine List.Perm.eq_of_pairwise ?_ (take_sortArray_strict key hle hkeys)
      (take_sortArray_strict key hle (((hperm.map key).nodup_iff).mp hkeys)) ?_
    · intro x y _ _ hxy hyx
      exact absurd hyx hxy.asymm
    · exact (take_sortArray_perm key hle v).trans (hperm.trans (take_sortArray_perm key hle w).symm)
  rw [← Vector.toList_inj, ← List.take_append_drop count (sortArray key hle v).toList, htake,
    drop_sortArray, hrest, ← drop_sortArray key hle w, List.take_append_drop]

end ExchangeSort
