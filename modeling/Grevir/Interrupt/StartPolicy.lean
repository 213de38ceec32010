import Grevir.Interrupt.Start

/-!
# Interrupt — StartPolicy

`SingleThreadStartPolicy` for one application: who is told what by `execute`, when the calls come
one after another and from inside a body that still runs.

* `run`: calls of `execute`, nested as deep as they like, with what took place in order.
* `run_execute`: the first call, and all that are made after it; bodies nest once.
* `honest_iff`: only the real result is reported exactly when the body that is entered makes no call.
-/

namespace Grevir.Interrupt

/-- Code that calls `execute` and returns: what a body is, and what calls the first start. -/
inductive Calls (Body : Type) where
  | done (r : StartResult)
  | execute (body : Body) (next : StartResult → Calls Body)

/-- The static members of `SingleThreadStartPolicy<Spec>`. -/
structure SingleThreadStartPolicy where
  started : Bool := false
  result : StartResult := {}
  deriving DecidableEq

/-- What takes place in a run: a body is entered, a body completes, `execute` returns. -/
inductive Occurrence where
  | entered
  | completed (r : StartResult)
  | returned (r : StartResult)
  deriving DecidableEq

/-- What took place, what was returned, and the members after it. -/
structure Outcome where
  log : List Occurrence
  result : StartResult
  policy : SingleThreadStartPolicy
  deriving DecidableEq

namespace SingleThreadStartPolicy

def replay (p : SingleThreadStartPolicy) : StartResult := { p.result with disposition := .replayed }

/-- `execute`, with the body a run from the members it finds. -/
def execute (body : SingleThreadStartPolicy → Option Outcome) (p : SingleThreadStartPolicy) :
    Option Outcome :=
  if p.started then some ⟨[.returned p.replay], p.replay, p⟩
  else do
    let o ← body { p with started := true }
    let p := { o.policy with result := o.result }
    some ⟨.entered :: o.log ++ [.completed o.result, .returned p.result], p.result, p⟩

end SingleThreadStartPolicy

open SingleThreadStartPolicy

variable {Body : Type}

/-- Calls in order, with a way to run a body. -/
def Calls.run (enter : Body → SingleThreadStartPolicy → Option Outcome) :
    Calls Body → SingleThreadStartPolicy → Option Outcome
  | .done r, p => some ⟨[], r, p⟩
  | .execute body next, p => do
      let first ← SingleThreadStartPolicy.execute (enter body) p
      let rest ← (next first.result).run enter first.policy
      some { rest with log := first.log ++ rest.log }

/-- Calls whose bodies are calls again, `depth` bodies deep at the most. -/
def run (bodies : Body → Calls Body) (depth : Nat) :
    Calls Body → SingleThreadStartPolicy → Option Outcome :=
  match depth with
  | 0 => Calls.run fun _ _ => none
  | depth + 1 => Calls.run fun body => run bodies depth (bodies body)

/-- How many calls of `execute` there are once every one is answered with `r`. -/
def Calls.answered (r : StartResult) : Calls Body → Nat × StartResult
  | .done result => (0, result)
  | .execute _ next => (((next r).answered r).1 + 1, ((next r).answered r).2)

/-! ### After the first call -/

/-- Once a start has begun every call is answered with what is stored, and no body is entered. -/
theorem Calls.run_started (enter : Body → SingleThreadStartPolicy → Option Outcome)
    (calls : Calls Body) {p : SingleThreadStartPolicy} (h : p.started = true) :
    calls.run enter p = some ⟨List.replicate (calls.answered p.replay).1 (.returned p.replay),
      (calls.answered p.replay).2, p⟩ := by
  induction calls with
  | done r => rfl
  | execute body next ih =>
      have hreplay : SingleThreadStartPolicy.execute (enter body) p =
          some ⟨[.returned p.replay], p.replay, p⟩ := if_pos h
      rw [Calls.run, hreplay, Option.bind_eq_bind, Option.bind_some, ih p.replay]
      rfl

theorem run_started (bodies : Body → Calls Body) (depth : Nat) (calls : Calls Body)
    {p : SingleThreadStartPolicy} (h : p.started = true) :
    run bodies depth calls p =
      some ⟨List.replicate (calls.answered p.replay).1 (.returned p.replay),
        (calls.answered p.replay).2, p⟩ := by
  cases depth <;> exact calls.run_started _ h

/-- What a body that makes calls is told while it runs. -/
def early : StartResult := ({ started := true } : SingleThreadStartPolicy).replay

/-- **The first call, and all that are made after it.** -/
theorem run_execute (bodies : Body → Calls Body) (depth : Nat) (body : Body)
    (next : StartResult → Calls Body) :
    let inner := (bodies body).answered early
    let p : SingleThreadStartPolicy := ⟨true, inner.2⟩
    let later := (next inner.2).answered p.replay
    run bodies (depth + 1) (.execute body next) {} =
      some ⟨(.entered :: List.replicate inner.1 (.returned early) ++
          [.completed inner.2, .returned inner.2]) ++ List.replicate later.1 (.returned p.replay),
        later.2, p⟩ := by
  intro inner p later
  have hinner : run bodies depth (bodies body) { started := true } =
      some ⟨List.replicate inner.1 (.returned early), inner.2, { started := true }⟩ :=
    run_started bodies depth _ rfl
  have hlater : (next inner.2).run (fun body => run bodies depth (bodies body)) p =
      some ⟨List.replicate later.1 (.returned p.replay), later.2, p⟩ := Calls.run_started _ _ rfl
  have hfirst : SingleThreadStartPolicy.execute (run bodies depth (bodies body)) {} =
      some ⟨.entered :: List.replicate inner.1 (.returned early) ++
        [.completed inner.2, .returned inner.2], inner.2, p⟩ := by
    rw [SingleThreadStartPolicy.execute, if_neg nofun, hinner]
    rfl
  rw [run, Calls.run, hfirst, Option.bind_eq_bind, Option.bind_some, hlater]
  rfl

/-! ### What is reported -/

/-- A body is entered once, a success is reported when one has completed so, and a replay is of the
result of the start that completed. -/
structure Honest (log : List Occurrence) : Prop where
  once : log.count .entered ≤ 1
  success : ∀ before r after, log = before ++ .returned r :: after → r.outcome = .success →
    ∃ r', .completed r' ∈ before ∧ r'.outcome = .success
  replayed : ∀ before r after, log = before ++ .returned r :: after → r.disposition = .replayed →
    ∃ r', .completed r' ∈ before ∧ r.outcome = r'.outcome ∧
      r.originatingFailure = r'.originatingFailure

/-- What does not occur in the first part of a log occurs after it. -/
theorem prefix_before {part rest before after : List Occurrence} {x : Occurrence}
    (h : part ++ rest = before ++ x :: after) (hx : x ∉ part) : part <+: before := by
  rcases List.append_eq_append_iff.mp h with ⟨between, hbefore, -⟩ | ⟨between, hpart, hrest⟩
  · exact ⟨between, hbefore.symm⟩
  · cases between with
    | nil => exact ⟨[], by simpa using hpart⟩
    | cons y between =>
        obtain ⟨rfl, -⟩ := List.cons.inj hrest
        exact absurd (by simp [hpart]) hx

theorem honest_nil : Honest [] where
  once := Nat.zero_le 1
  success before r after h := by simp at h
  replayed before r after h := by simp at h

/-- A start that completes before anything is reported. -/
theorem honest_completed (r : StartResult) (n : Nat) :
    Honest ([.entered, .completed r] ++
      .returned r :: List.replicate n (.returned (replay ⟨true, r⟩))) := by
  have hreturned : ∀ {before after : List Occurrence} {x : StartResult},
      [.entered, .completed r] ++
        .returned r :: List.replicate n (.returned (replay ⟨true, r⟩)) =
          before ++ .returned x :: after →
      .completed r ∈ before ∧ x.outcome = r.outcome ∧
        x.originatingFailure = r.originatingFailure := by
    intro before after x h
    have hbefore : [.entered, .completed r] <+: before := prefix_before h (by simp)
    have hx : .returned x ∈ [Occurrence.entered, .completed r] ++
        .returned r :: List.replicate n (.returned (replay ⟨true, r⟩)) := by
      rw [h]
      simp
    refine ⟨hbefore.subset (by simp), ?_⟩
    simp only [List.cons_append, List.nil_append, List.mem_cons, List.mem_replicate, reduceCtorEq,
      false_or, Occurrence.returned.injEq] at hx
    rcases hx with rfl | ⟨-, rfl⟩
    · exact ⟨rfl, rfl⟩
    · exact ⟨rfl, rfl⟩
  refine ⟨?_, ?_, ?_⟩
  · simp [List.count_replicate]
  · intro before x after h hx
    obtain ⟨hmem, houtcome, -⟩ := hreturned h
    exact ⟨r, hmem, houtcome ▸ hx⟩
  · intro before x after h _
    exact ⟨r, hreturned h⟩

/-- A call from inside the body is told of a success that is not there. -/
theorem not_honest_early (after : List Occurrence) :
    ¬ Honest (.entered :: .returned early :: after) := by
  intro h
  obtain ⟨r', hmem, -⟩ := h.success [.entered] early after rfl rfl
  simp at hmem

/-- **Only the real result is reported exactly when the body that is entered calls no start.** -/
theorem honest_iff (bodies : Body → Calls Body) (calls : Calls Body) :
    ∃ o, (∀ depth, run bodies (depth + 1) calls {} = some o) ∧
      (Honest o.log ↔ ∀ body next, calls = .execute body next → ∃ r, bodies body = .done r) := by
  cases calls with
  | done r => exact ⟨_, fun _ => rfl, iff_of_true honest_nil nofun⟩
  | execute body next =>
      refine ⟨_, fun depth => run_execute bodies depth body next, ?_⟩
      have hcondition : (∀ b n, Calls.execute body next = .execute b n → ∃ r, bodies b = .done r) ↔
          ∃ r, bodies body = .done r := by
        refine ⟨fun h => h body next rfl, fun h b n hb => ?_⟩
        cases hb
        exact h
      rw [hcondition]
      cases hbody : bodies body with
      | done r =>
          refine iff_of_true ?_ ⟨r, rfl⟩
          exact honest_completed r _
      | execute inner rest =>
          refine iff_of_false ?_ nofun
          exact not_honest_early _

/-- A module calls `start` while it is set up, and the bindings are not installed afterwards: it is
told that the interrupts run. -/
theorem start_during_setup_told_success :
    let failed := (startBody (fun _ _ hook => ([], hook ≠ .installBindings)) true true
      ⟨Event.Queue.initial Event.twoTasks none, []⟩).1
    let bodies : Unit → Calls Unit := fun _ => .execute () fun _ => .done failed
    ∃ o, run bodies 2 (.execute () .done) {} = some o ∧
      o.log = [.entered, .returned ⟨.success, .success, .replayed⟩, .completed failed,
        .returned failed] ∧
      failed.outcome = .registrationFailed ∧ ¬ Honest o.log :=
  ⟨_, rfl, rfl, by decide, not_honest_early _⟩

end Grevir.Interrupt
