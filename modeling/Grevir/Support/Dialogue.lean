import Mathlib.Tactic.Common

/-!
# Support — Dialogue

Code that makes calls and goes on by their answers.  Alone it is run with whoever answers; beside
others it is taken call by call.

* `Code.run`: the code run to its end.
* `Asked`: what was called and answered, and the code that is left then; `asked_call`, `asked_done`
  take it apart from the front, `Asked.snoc` goes on at the end.
-/

namespace Dialogue

/-- What code does next: it returns, or it makes a call. -/
inductive Code (C β α : Type*) where
  | done (result : α)
  | call (c : C) (next : β → Code C β α)

variable {C β α σ : Type*}

/-- The code run to its end, with a state that its calls are answered from and change. -/
def Code.run (answer : C → σ → β × σ) : Code C β α → σ → α × σ
  | .done a, s => (a, s)
  | .call c next, s => (next (answer c s).1).run answer (answer c s).2

theorem Code.run_ite (answer : C → σ → β × σ) (b : Bool) (p q : Code C β α) (s : σ) :
    (if b then p else q).run answer s = if b then p.run answer s else q.run answer s := by
  cases b <;> rfl

/-- **The calls of the log were made and answered, and `q` is left.** -/
inductive Asked : Code C β α → List (C × β) → Code C β α → Prop
  | nil (p : Code C β α) : Asked p [] p
  | call {c : C} {b : β} {next : β → Code C β α} {log : List (C × β)} {q : Code C β α}
      (h : Asked (next b) log q) : Asked (.call c next) ((c, b) :: log) q

variable {p : Code C β α} {log : List (C × β)} {c : C} {next : β → Code C β α} {a : α}

/-- One more call. -/
theorem Asked.snoc (h : Asked p log (.call c next)) (b : β) : Asked p (log ++ [(c, b)]) (next b) := by
  generalize hq : Code.call c next = q at h
  induction h with
  | nil =>
      subst hq
      exact .call (.nil _)
  | call _ ih => exact .call (ih hq)

/-- Code that makes a call and is at its end has gone on from the answer. -/
theorem asked_call :
    Asked (.call c next) log (.done a) ↔ ∃ b rest, log = (c, b) :: rest ∧ Asked (next b) rest (.done a) := by
  constructor
  · intro h
    cases h with
    | call h => exact ⟨_, _, rfl, h⟩
  · rintro ⟨b, rest, rfl, h⟩
    exact .call h

theorem asked_done {a' : α} : Asked (.done a' : Code C β α) log (.done a) ↔ log = [] ∧ a' = a := by
  constructor
  · intro h
    cases h
    exact ⟨rfl, rfl⟩
  · rintro ⟨rfl, rfl⟩
    exact .nil _

end Dialogue
