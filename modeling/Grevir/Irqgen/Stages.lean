import Grevir.Irqgen.Commands

/-!
# Irqgen — Stages

Each command run by itself and stopped after some of its actions, by an error or from outside, and
what is in the directory then.

* `exec_plan`, `exec_emit`: a command that did not answer has written no marker.
* `exec_verify`: nothing is changed, and what is accepted is what is there.
-/

namespace Grevir.Irqgen

open Interrupt Json Programs

section Stages

variable {F : Type} [PyFloat F] [FloatText F] {sha256 : List UInt8 → String}

theorem isDone_iff {α : Type} {q : Script α} : q.isDone ↔ ∃ a, q = .done a := by
  cases q <;> simp [Program.isDone]

theorem isDone_map {α β : Type} (f : α → β) (q : Script α) : (f <$> q).isDone = q.isDone := by
  cases q <;> rfl

/-- **What `_plan` leaves**, stopped after some actions. -/
theorem exec_plan (args : PlanArgs) (n : Nat) (s : Files) {s' : Files} {q : Script Unit}
    (h : (planCommand F sha256 args).exec n s = (s', q)) :
    (∃ p, args.Plans F sha256 p ∧ 3 ≤ n ∧ q = .done () ∧ s' = args.planned F sha256 p s) ∨
    q.isDone = false ∧ (s' = s ∨ s' = Function.update s .marker none ∨ s' = args.recorded s) := by
  obtain ⟨log, hlength, hran, hreplays⟩ := (planCommand F sha256 args).exec_ran n s
  rw [h] at hran hreplays
  rcases ran_planCommand hran with ⟨p, hp, rfl, hq⟩ | ⟨hlog, hq⟩
  · exact .inl ⟨p, hp, hlength, hq, hreplays⟩
  · refine .inr ⟨?_, ?_⟩
    · rw [Bool.eq_false_iff, ne_eq, isDone_iff]
      exact fun ⟨a, ha⟩ => hq a ha
    · rcases hlog with rfl | rfl | rfl
      · exact .inl hreplays
      · exact .inr (.inl hreplays)
      · exact .inr (.inr hreplays)

/-- What a stopped `_emit` leaves: the marker is deleted if anything is done, and what it reads stays. -/
structure Cleared (s s' : Files) : Prop where
  marker : s' .marker = none
  attempt : s' .attempt = s .attempt
  plan : ∀ backend, s' (.plan backend) = s (.plan backend)

/-- **What `_emit` leaves**, stopped after some actions. -/
theorem exec_emit (args : EmitArgs) (n : Nat) (s : Files) {s' : Files} {q : Script Unit}
    (h : (emitCommand F sha256 args).exec n s = (s', q)) :
    (∃ o : OutputSet, o.Emitted F sha256 args ∧ s .attempt = some o.attempt ∧
      s (.plan args.backend) = some o.plan ∧ 7 ≤ n ∧ q = .done () ∧ s' = o.written args.backend s) ∨
    q.isDone = false ∧ (s' = s ∨ Cleared s s') := by
  obtain ⟨log, hlength, hran, hreplays⟩ := (emitCommand F sha256 args).exec_ran n s
  rw [h] at hran hreplays
  rcases ran_emitCommand hran with ⟨o, present, hemitted, rfl, hq⟩ | ⟨hlog, hq⟩
  · obtain ⟨-, hattempt, hplan, hs'⟩ := hreplays
    rw [Function.update_of_ne (by simp)] at hattempt hplan
    exact .inl ⟨o, hemitted, hattempt.symm, hplan.symm, hlength, hq, hs'⟩
  · refine .inr ⟨?_, ?_⟩
    · rw [Bool.eq_false_iff, ne_eq, isDone_iff]
      exact fun ⟨a, ha⟩ => hq a ha
    · rcases hlog with rfl | ⟨rest, hquiet, rfl⟩
      · exact .inl hreplays
      · -- only the outputs are written after the marker is deleted
        have hrest : Replays (Function.update s .marker none) rest s' := hreplays
        have hframe : ∀ key : File, (∀ b, key ≠ .header b) → (∀ b, key ≠ .source b) →
            s' key = Function.update s .marker none key := fun key hheader hsource =>
          hrest.frame fun value hmem => by
            rcases hquiet key value hmem with ⟨b, hb⟩ | ⟨b, hb⟩
            · exact hheader b hb
            · exact hsource b hb
        refine .inr ⟨?_, ?_, fun b => ?_⟩
        · rw [hframe _ (by simp) (by simp), Function.update_self]
        · rw [hframe _ (by simp) (by simp), Function.update_of_ne (by simp)]
        · rw [hframe _ (by simp) (by simp), Function.update_of_ne (by simp)]

/-- The outputs in a directory. -/
structure OutputSet.In (o : OutputSet) (s : Files) (backend : String) : Prop where
  marker : s .marker = some o.marker
  attempt : s .attempt = some o.attempt
  plan : s (.plan backend) = some o.plan
  header : s (.header backend) = some o.header
  source : s (.source backend) = some o.source

/-- **`verify_ready` changes nothing, and accepts what is there.** -/
theorem exec_verify (args : VerifyArgs) (n : Nat) (s : Files) {s' : Files} {q : Script (Value F)}
    (h : (verifyReady F sha256 args).exec n s = (s', q)) :
    s' = s ∧ ∀ marker, q = .done marker →
      ∃ o : OutputSet, o.Accepted sha256 args marker ∧ o.In s args.backend := by
  obtain ⟨log, -, hran, hreplays⟩ := (verifyReady F sha256 args).exec_ran n s
  rw [h] at hran hreplays
  have hwrites : ∀ key value, .write key value ∉ log := hran.writes (verifyReady_writes args)
  have hsame : s' = s := by
    funext key
    exact hreplays.frame (hwrites key)
  refine ⟨hsame, fun marker hq => ?_⟩
  rw [show (s', q).2 = .done marker from hq] at hran
  obtain ⟨o, rfl, haccepted⟩ := ran_verifyReady.mp hran
  obtain ⟨hmarker, hattempt, hplan, hheader, hsource, -⟩ := hreplays
  exact ⟨o, haccepted, hmarker.symm, hattempt.symm, hplan.symm, hheader.symm, hsource.symm⟩

/-- What is accepted is in the directory the outputs were written to. -/
theorem OutputSet.in_written {o : OutputSet} {s : Files} {backend : String}
    (hattempt : s .attempt = some o.attempt) (hplan : s (.plan backend) = some o.plan) :
    o.In (o.written backend s) backend := by
  refine ⟨?_, ?_, ?_, ?_, ?_⟩ <;> simp [OutputSet.written, hattempt, hplan]

end Stages

end Grevir.Irqgen
