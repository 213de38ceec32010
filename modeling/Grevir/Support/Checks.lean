import Mathlib.Tactic.Common
import Mathlib.Data.List.Forall2

/-!
# Support — Checks

Fallible computations by what they answer and how they fail: `Answers E c Q` says that `c` answers
exactly the values `Q` holds of, and fails with nothing but `E`.  The rules follow the code: a check,
a bind, a loop over a list.

* `Answers.bind`: one computation after another.
* `Answers.mapM`, `Answers.forM`: a computation for each member of a list.

Where only what follows from an answer matters, `Ensures E c Q` says that `c` answers nothing but values
`Q` holds of, and fails with nothing but `E`.

* `Ensures.mapM`, `Ensures.foldlM_range`: loops, by an invariant.
-/

/-- **`c` answers exactly the values of `Q` and fails only with `E`.** -/
structure Answers {ε α : Type} (E : ε → Prop) (c : Except ε α) (Q : α → Prop) : Prop where
  ok_iff : ∀ a, c = .ok a ↔ Q a
  raises : ∀ e, c = .error e → E e

theorem except_bind_eq_ok {ε α β : Type} {c : Except ε α} {f : α → Except ε β} {b : β} :
    (c >>= f) = .ok b ↔ ∃ a, c = .ok a ∧ f a = .ok b := by
  cases c <;> simp [Bind.bind, Except.bind]

theorem except_bind_of_ok {ε α β : Type} {c : Except ε α} {a : α} (h : c = .ok a) {f : α → Except ε β} :
    c >>= f = f a := by
  rw [h]
  rfl

theorem forM_eq_ok {ε α : Type} {f : α → Except ε Unit} {as : List α} :
    as.forM f = .ok () ↔ ∀ a ∈ as, f a = .ok () := by
  induction as with
  | nil => simp [List.forM, pure, Except.pure]
  | cons a as ih =>
      rw [List.forall_mem_cons, ← ih]
      exact except_bind_eq_ok.trans ⟨fun ⟨_, h, h'⟩ => ⟨h, h'⟩, fun ⟨h, h'⟩ => ⟨(), h, h'⟩⟩

/-- What a loop over a list answers was answered for some member. -/
theorem exists_of_mem_mapM {ε α β : Type} {f : α → Except ε β} {as : List α} {bs : List β}
    (h : as.mapM f = .ok bs) : ∀ b ∈ bs, ∃ a ∈ as, f a = .ok b := by
  induction as generalizing bs with
  | nil =>
      cases h
      simp
  | cons a as ih =>
      rw [List.mapM_cons] at h
      obtain ⟨b, hb, hrest⟩ := except_bind_eq_ok.mp h
      obtain ⟨bs', hbs, heq⟩ := except_bind_eq_ok.mp hrest
      cases heq
      rw [List.forall_mem_cons]
      refine ⟨⟨a, by simp, hb⟩, fun b' hb' => ?_⟩
      obtain ⟨a', ha', hf⟩ := ih hbs b' hb'
      exact ⟨a', by simp [ha'], hf⟩

theorem mapM_eq_ok {ε α β : Type} {f : α → Except ε β} {as : List α} {bs : List β} :
    as.mapM f = .ok bs ↔ List.Forall₂ (fun a b => f a = .ok b) as bs := by
  induction as generalizing bs with
  | nil => simp [List.mapM_nil, pure, Except.pure, eq_comm]
  | cons a as ih =>
      rw [List.mapM_cons, except_bind_eq_ok, List.forall₂_cons_left_iff]
      simp only [except_bind_eq_ok, ih]
      constructor
      · rintro ⟨b, hb, bs, hbs, heq⟩
        cases heq
        exact ⟨b, bs, hb, hbs, rfl⟩
      · rintro ⟨b, bs, hb, hbs, rfl⟩
        exact ⟨b, hb, bs, hbs, rfl⟩

theorem exists_forall₂ {α β : Type} {R : α → β → Prop} {as : List α} (h : ∀ a ∈ as, ∃ b, R a b) :
    ∃ bs, List.Forall₂ R as bs := by
  induction as with
  | nil => exact ⟨[], .nil⟩
  | cons a as ih =>
      rw [List.forall_mem_cons] at h
      obtain ⟨b, hb⟩ := h.1
      obtain ⟨bs, hbs⟩ := ih h.2
      exact ⟨b :: bs, .cons hb hbs⟩

theorem exists_mapM {ε α β : Type} {f : α → Except ε β} {as : List α}
    (h : ∀ a ∈ as, ∃ b, f a = .ok b) : ∃ bs, as.mapM f = .ok bs := by
  obtain ⟨bs, hbs⟩ := exists_forall₂ h
  exact ⟨bs, mapM_eq_ok.mpr hbs⟩

/-- A loop over the numbers below `n`, by what it answers before each. -/
theorem foldlM_range_eq_ok {ε β : Type} {f : β → Nat → Except ε β} {g : Nat → β} {n : Nat}
    (h : ∀ k < n, f (g k) k = .ok (g (k + 1))) : (List.range n).foldlM f (g 0) = .ok (g n) := by
  induction n with
  | zero => rfl
  | succ n ih =>
      rw [List.range_succ, List.foldlM_append, ih fun k hk => h k (Nat.lt_succ_of_lt hk)]
      show (List.foldlM f (g n) [n]) = _
      rw [List.foldlM_cons, h n (Nat.lt_succ_self n)]
      rfl

/-- Every turn of a loop that answers has answered. -/
theorem exists_turn_of_foldlM {ε α β : Type} {f : β → α → Except ε β} {as : List α} {b c : β}
    (h : as.foldlM f b = .ok c) : ∀ a ∈ as, ∃ s s', f s a = .ok s' := by
  induction as generalizing b with
  | nil => simp
  | cons x as ih =>
      rw [List.foldlM_cons, except_bind_eq_ok] at h
      obtain ⟨s, hx, hrest⟩ := h
      rw [List.forall_mem_cons]
      exact ⟨⟨b, s, hx⟩, ih hrest⟩

theorem option_mapM_congr {α β : Type} {f g : α → Option β} {l : List α} (h : ∀ a ∈ l, f a = g a) :
    l.mapM f = l.mapM g := by
  induction l with
  | nil => rfl
  | cons a l ih =>
      rw [List.mapM_cons, List.mapM_cons, h a List.mem_cons_self,
        ih fun b hb => h b (List.mem_cons_of_mem _ hb)]

theorem option_mapM_eq_some {α β : Type} {f : α → Option β} {l : List α} {l' : List β} :
    l.mapM f = some l' ↔ List.Forall₂ (fun a b => f a = some b) l l' := by
  induction l generalizing l' with
  | nil => simp [eq_comm]
  | cons a l ih =>
      simp only [List.mapM_cons, Option.bind_eq_bind, Option.bind_eq_some_iff, List.forall₂_cons_left_iff,
        ih]
      constructor
      · rintro ⟨b, hb, bs, hbs, heq⟩
        cases heq
        exact ⟨b, bs, hb, hbs, rfl⟩
      · rintro ⟨b, bs, hb, hbs, rfl⟩
        exact ⟨b, hb, bs, hbs, rfl⟩

/-- What stands on the right of a relation stands there beside something. -/
theorem exists_left_of_forall₂ {α β : Type} {R : α → β → Prop} {as : List α} {bs : List β}
    (h : List.Forall₂ R as bs) : ∀ b ∈ bs, ∃ a ∈ as, R a b := by
  induction h with
  | nil => simp
  | cons hab _ ih =>
      rw [List.forall_mem_cons]
      refine ⟨⟨_, List.mem_cons_self, hab⟩, fun b hb => ?_⟩
      obtain ⟨a, ha, hr⟩ := ih b hb
      exact ⟨a, List.mem_cons_of_mem _ ha, hr⟩

namespace Answers

variable {ε α β : Type} {E : ε → Prop} {c : Except ε α} {Q : α → Prop}

theorem pure (a : α) : Answers E (Pure.pure a) fun b => b = a where
  ok_iff b := by
    show Except.ok a = .ok b ↔ _
    rw [Except.ok.injEq, eq_comm]
  raises e he := by cases he

theorem throw {e : ε} (he : E e) : Answers E (throw e : Except ε α) fun _ => False where
  ok_iff a := iff_of_false (fun h => by cases h) id
  raises e' h := by
    cases h
    exact he

/-- A computation that is known to answer. -/
theorem known (h : ∃ a, c = .ok a) : Answers E c fun a => c = .ok a where
  ok_iff _ := Iff.rfl
  raises e he := by
    obtain ⟨a, ha⟩ := h
    rw [ha] at he
    cases he

theorem congr {R : α → Prop} (h : Answers E c Q) (hQ : ∀ a, Q a ↔ R a) : Answers E c R where
  ok_iff a := (h.ok_iff a).trans (hQ a)
  raises := h.raises

theorem bind {f : α → Except ε β} {R : α → β → Prop} (hc : Answers E c Q)
    (hf : ∀ a, Q a → Answers E (f a) (R a)) : Answers E (c >>= f) fun b => ∃ a, Q a ∧ R a b := by
  cases c with
  | error e =>
      refine ⟨fun b => iff_of_false (fun h => by cases h) ?_, fun e' h => ?_⟩
      · rintro ⟨a, ha, -⟩
        cases (hc.ok_iff a).mpr ha
      · cases h
        exact hc.raises e rfl
  | ok a =>
      have ha : Q a := (hc.ok_iff a).mp rfl
      refine ⟨fun b => ⟨fun h => ⟨a, ha, ((hf a ha).ok_iff b).mp h⟩, ?_⟩, (hf a ha).raises⟩
      rintro ⟨a', ha', hb⟩
      cases (hc.ok_iff a').mpr ha'
      exact ((hf a ha).ok_iff b).mpr hb

/-- A check, then the rest. -/
theorem check {c : Except ε Unit} {P : Prop} {d : Except ε β} {R : β → Prop}
    (hc : Answers E c fun _ => P) (hd : P → Answers E d R) :
    Answers E (do c; d) fun b => P ∧ R b :=
  (hc.bind fun _ hP => hd hP).congr fun _ => ⟨fun ⟨_, h⟩ => h, fun h => ⟨(), h⟩⟩

/-- A value that is known, then the rest. -/
theorem value {a : α} {f : α → Except ε β} {R : β → Prop} (h : c = .ok a)
    (hf : Answers E (f a) R) : Answers E (c >>= f) R := by
  rw [h]
  exact hf

theorem mapM {f : α → Except ε β} {R : α → β → Prop} (hf : ∀ a, Answers E (f a) (R a))
    (as : List α) : Answers E (as.mapM f) fun bs => List.Forall₂ R as bs := by
  induction as with
  | nil =>
      rw [List.mapM_nil]
      exact (pure []).congr fun bs => List.forall₂_nil_left_iff.symm
  | cons a as ih =>
      rw [List.mapM_cons]
      refine ((hf a).bind fun b _ => ih.bind fun bs _ => pure (b :: bs)).congr fun bs => ?_
      rw [List.forall₂_cons_left_iff]
      exact ⟨fun ⟨b, hb, bs', hbs, h⟩ => ⟨b, bs', hb, hbs, h⟩,
        fun ⟨b, bs', hb, hbs, h⟩ => ⟨b, hb, bs', hbs, h⟩⟩

theorem forM {f : α → Except ε Unit} {P : α → Prop} {as : List α}
    (hf : ∀ a ∈ as, Answers E (f a) fun _ => P a) :
    Answers E (as.forM f) fun _ => ∀ a ∈ as, P a := by
  induction as with
  | nil => exact (pure ()).congr fun _ => by simp
  | cons a as ih =>
      show Answers E (do f a; as.forM f) _
      refine ((hf a (by simp)).check fun _ => ih fun b hb => hf b (by simp [hb])).congr fun _ => ?_
      rw [List.forall_mem_cons]

end Answers

/-! ### What follows from an answer -/

/-- **`c` answers only values of `Q` and fails only with `E`.** -/
structure Ensures {ε α : Type} (E : ε → Prop) (c : Except ε α) (Q : α → Prop) : Prop where
  ok : ∀ a, c = .ok a → Q a
  raises : ∀ e, c = .error e → E e

namespace Ensures

variable {ε α β : Type} {E : ε → Prop} {c : Except ε α} {Q : α → Prop}

theorem pure {a : α} (h : Q a) : Ensures E (Pure.pure a) Q where
  ok b hb := by
    cases hb
    exact h
  raises e he := by cases he

theorem throw {e : ε} (h : E e) : Ensures E (throw e : Except ε α) Q where
  ok a ha := by cases ha
  raises e' he := by
    cases he
    exact h

theorem weaken {R : α → Prop} (h : Ensures E c Q) (hQ : ∀ a, Q a → R a) : Ensures E c R where
  ok a ha := hQ a (h.ok a ha)
  raises := h.raises

theorem bind {f : α → Except ε β} {R : β → Prop} (hc : Ensures E c Q)
    (hf : ∀ a, Q a → Ensures E (f a) R) : Ensures E (c >>= f) R := by
  cases c with
  | error e =>
      refine ⟨fun b hb => ?_, fun e' he => ?_⟩
      · cases hb
      · cases he
        exact hc.raises e rfl
  | ok a => exact hf a (hc.ok a rfl)

/-- A value that is known, then the rest. -/
theorem value {a : α} {f : α → Except ε β} {R : β → Prop} (h : c = .ok a) (hf : Ensures E (f a) R) :
    Ensures E (c >>= f) R := by
  rw [h]
  exact hf

theorem mapM {f : α → Except ε β} {R : α → β → Prop} {as : List α}
    (hf : ∀ a ∈ as, Ensures E (f a) (R a)) : Ensures E (as.mapM f) fun bs => List.Forall₂ R as bs := by
  induction as with
  | nil =>
      rw [List.mapM_nil]
      exact pure .nil
  | cons a as ih =>
      rw [List.mapM_cons]
      exact (hf a (by simp)).bind fun b hb => (ih fun a' ha' => hf a' (by simp [ha'])).bind fun bs hbs =>
        pure (.cons hb hbs)

/-- A loop over the numbers below `n`, by what holds before each. -/
theorem foldlM_range {f : β → Nat → Except ε β} {b : β} (I : Nat → β → Prop) (n : Nat) (h0 : I 0 b)
    (hstep : ∀ k < n, ∀ b, I k b → Ensures E (f b k) (I (k + 1))) :
    Ensures E ((List.range n).foldlM f b) (I n) := by
  induction n with
  | zero => exact pure h0
  | succ n ih =>
      rw [List.range_succ, List.foldlM_append]
      refine (ih fun k hk => hstep k (by omega)).bind fun b' hb' => ?_
      rw [List.foldlM_cons]
      exact (hstep n (by omega) b' hb').bind fun b'' hb'' => pure hb''

end Ensures
