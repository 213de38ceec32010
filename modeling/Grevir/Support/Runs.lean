import Mathlib.Data.List.Induction
import Mathlib.Tactic.Common

/-!
# Support — Runs

A machine answers an action with its next state and at most one label.  A schedule is a list of
actions; running it gives the state it ends in and its history, the labels shown on the way,
oldest first.  An action a state does not allow leaves the state as it is and shows nothing, so
every list of actions is a schedule and "every interleaving" is "every list".

* `run_induct`: what holds at the start with the empty history, and is kept by one step, holds
  after every schedule.
* `split_snoc`: where a label stands in a history one step longer.
* `run_split`: where a history shows a label, some action showed it.
* `run_begins`: what a history begins with is the history of some schedule.
* `run_matches`: machines whose steps match, one for one, have the same histories.
-/

namespace Runs

/-- An action takes a state to the next one and shows at most one label. -/
structure Machine (σ α ℓ : Type*) where
  step : σ → α → σ × Option ℓ

namespace Machine

variable {σ α ℓ : Type*} (M : Machine σ α ℓ)

/-- The state a schedule ends in, and its history. -/
def run (s : σ) (as : List α) : σ × List ℓ :=
  as.foldl (fun x a => ((M.step x.1 a).1, x.2 ++ (M.step x.1 a).2.toList)) (s, [])

@[simp] theorem run_nil (s : σ) : M.run s [] = (s, []) := rfl

theorem run_snoc (s : σ) (as : List α) (a : α) :
    M.run s (as ++ [a]) =
      ((M.step (M.run s as).1 a).1, (M.run s as).2 ++ (M.step (M.run s as).1 a).2.toList) := by
  simp [run, List.foldl_append]

theorem run_cons (s : σ) (a : α) (as : List α) :
    M.run s (a :: as) = ((M.run (M.step s a).1 as).1,
      (M.step s a).2.toList ++ (M.run (M.step s a).1 as).2) := by
  induction as using List.reverseRecOn with
  | nil => simp [run]
  | append_singleton as b ih => rw [← List.cons_append, run_snoc, ih, run_snoc, List.append_assoc]

/-- The state after two schedules, one after the other. -/
theorem run_append (s : σ) (as bs : List α) :
    (M.run s (as ++ bs)).1 = (M.run (M.run s as).1 bs).1 := by
  induction bs using List.reverseRecOn with
  | nil => rw [List.append_nil, run_nil]
  | append_singleton bs b ih => rw [← List.append_assoc, run_snoc, run_snoc, ih]

/-- A property of state and history that holds at the start and survives every step. -/
theorem run_induct {P : σ → List ℓ → Prop} {s : σ} (h0 : P s [])
    (hs : ∀ s h a, P s h → P (M.step s a).1 (h ++ (M.step s a).2.toList)) (as : List α) :
    P (M.run s as).1 (M.run s as).2 := by
  induction as using List.reverseRecOn with
  | nil => exact h0
  | append_singleton as a ih =>
      rw [run_snoc]
      exact hs _ _ a ih

/-- A property of states that holds at the start and survives every step. -/
theorem run_invariant {I : σ → Prop} {s : σ} (h0 : I s) (hs : ∀ s a, I s → I (M.step s a).1)
    (as : List α) : I (M.run s as).1 :=
  M.run_induct (P := fun s _ => I s) h0 (fun s _ a h => hs s a h) as

/-- **Machines whose steps match have the same histories**, from states that match on. -/
theorem run_matches {τ : Type*} {N : Machine τ α ℓ} {R : σ → τ → Prop} {s : σ} {t : τ} (h0 : R s t)
    (hs : ∀ s t a, R s t → (M.step s a).2 = (N.step t a).2 ∧ R (M.step s a).1 (N.step t a).1)
    (as : List α) : (M.run s as).2 = (N.run t as).2 ∧ R (M.run s as).1 (N.run t as).1 := by
  induction as using List.reverseRecOn with
  | nil => exact ⟨rfl, h0⟩
  | append_singleton as a ih =>
      obtain ⟨hlabel, hnext⟩ := hs _ _ a ih.2
      rw [run_snoc, run_snoc, ih.1, hlabel]
      exact ⟨rfl, hnext⟩

end Machine

/-! ### Where a label stands in a history -/

variable {ℓ : Type*}

/-- A label of a history one step longer is the new one, or stood there before. -/
theorem split_snoc {h h₁ l : List ℓ} {o : Option ℓ} {x : ℓ}
    (e : h ++ o.toList = h₁ ++ x :: l) :
    (o = some x ∧ h₁ = h ∧ l = []) ∨ ∃ l', l = l' ++ o.toList ∧ h = h₁ ++ x :: l' := by
  cases o with
  | none => exact .inr ⟨l, by simp, by simpa using e⟩
  | some y =>
      rcases List.eq_nil_or_concat l with rfl | ⟨l', z, rfl⟩
      · have := List.append_inj' e (by simp)
        simp only [Option.toList_some, List.cons.injEq, and_true] at this
        exact .inl ⟨by rw [this.2], this.1.symm, rfl⟩
      · rw [List.concat_eq_append, ← List.cons_append, ← List.append_assoc] at e
        have := List.append_inj' e (by simp)
        simp only [Option.toList_some, List.cons.injEq, and_true] at this
        exact .inr ⟨l', by simp [this.2], this.1⟩

/-- **Where a history shows a label, some action of the schedule showed it**, after the part of the
schedule that shows the labels before. -/
theorem Machine.run_split {σ α : Type*} (M : Machine σ α ℓ) {s : σ} {as : List α} {h₁ l : List ℓ}
    {x : ℓ} (e : (M.run s as).2 = h₁ ++ x :: l) :
    ∃ as₁ a, (M.run s as₁).2 = h₁ ∧ (M.step (M.run s as₁).1 a).2 = some x := by
  induction as using List.reverseRecOn generalizing l with
  | nil => simp at e
  | append_singleton as a ih =>
      rw [run_snoc] at e
      rcases split_snoc e with ⟨hx, hh, -⟩ | ⟨l', -, hh⟩
      · exact ⟨as, a, hh.symm, hx⟩
      · exact ih hh

/-- What a history begins with is the history of some schedule. -/
theorem Machine.run_begins {σ α : Type*} (M : Machine σ α ℓ) {s : σ} {as : List α} {h l : List ℓ}
    (e : (M.run s as).2 = h ++ l) : ∃ as₁, (M.run s as₁).2 = h := by
  cases l with
  | nil => exact ⟨as, e.trans (List.append_nil h)⟩
  | cons x l =>
      obtain ⟨as₁, _, hh, -⟩ := M.run_split e
      exact ⟨as₁, hh⟩

end Runs
