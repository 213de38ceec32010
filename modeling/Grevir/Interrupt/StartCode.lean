import Grevir.Interrupt.Binding
import Grevir.Interrupt.Start
import Grevir.Support.Dialogue

/-!
# Interrupt — StartCode

The body of `Application::start` as code, call by call, so that anything may happen between two calls.

* `run_startCode`: run alone, it is `startBody`.
* `startCode_ends`: what was called and answered when it returns.
-/

namespace Grevir.Interrupt

open Grevir.Event Dialogue

/-- What the body calls: the board's hooks and, where the deferred context is selected, the queue's
`prepare` and `stop`. -/
inductive StartCall where
  | hook (h : Hook)
  | prepare
  | stop
  deriving DecidableEq

/-- `DeferredContextPlan::selected`. -/
def DemandSummary.deferredSelected {n : Nat} (demands : DemandSummary n) : Bool :=
  demands.demands.any fun d => d.context = literal "main_loop"

/-- `fail` after the queue is stopped. -/
def cleanupCode (reason : SetupOutcome) : Code StartCall Bool StartResult :=
  .call (.hook .cleanup) fun cleaned =>
    if !cleaned then .done ⟨.cleanupFailed, reason, .initiated⟩ else .done ⟨reason, reason, .initiated⟩

/-- `fail`. -/
def failCode (selected : Bool) (reason : SetupOutcome) (queuePrepared : Bool) :
    Code StartCall Bool StartResult :=
  .call (.hook .maskOwned) fun _ =>
    if selected && queuePrepared then .call .stop fun _ => cleanupCode reason else cleanupCode reason

/-- The body after `event::prepare`. -/
def configureCode (selected : Bool) : Code StartCall Bool StartResult :=
  .call (.hook .configure) fun configured =>
    if !configured then failCode selected .configurationFailed true
    else .call (.hook .setupModules) fun _ => .call (.hook .installBindings) fun installed =>
      if !installed then failCode selected .registrationFailed true
      else .call (.hook .settlePending) fun settled =>
        if !settled then failCode selected .pendingPolicyFailed true
        else .call (.hook .enableOwned) fun _ => .done {}

/-- The body that `Application::start` hands to the board's policy. -/
def startCode (selected : Bool) : Code StartCall Bool StartResult :=
  .call (.hook .maskOwned) fun _ =>
    if selected then
      .call .prepare fun prepared =>
        if !prepared then failCode selected .eventContextFailed false else configureCode selected
    else configureCode selected

/-! ### Run alone -/

section Alone

variable {Task Token Owner Event : Type} [DecidableEq Event] {B : Board Task Token Owner Event}
  (hooks : Hooks B) (current : Token)

/-- What a call answers and does, where nothing happens in between. -/
def answer : StartCall → StartState B → Bool × StartState B
  | .hook h, s => call hooks h s
  | .prepare, s =>
      let r := s.queue.prepare current
      (r.1, { s with queue := r.2 })
  | .stop, s => (true, { s with queue := s.queue.stop })

theorem run_failCode (selected : Bool) (reason : SetupOutcome) (queuePrepared : Bool)
    (s : StartState B) :
    (failCode selected reason queuePrepared).run (answer hooks current) s =
      fail hooks selected reason queuePrepared s := by
  have hcleanup : ∀ s, (cleanupCode reason).run (answer hooks current) s =
      let cleaned := call hooks .cleanup s
      if !cleaned.1 then (⟨.cleanupFailed, reason, .initiated⟩, cleaned.2)
      else (⟨reason, reason, .initiated⟩, cleaned.2) := by
    intro s
    simp only [cleanupCode, Code.run, Code.run_ite]
    rfl
  cases selected <;> cases queuePrepared <;> exact hcleanup _

theorem run_configureCode (selected : Bool) (s : StartState B) :
    (configureCode selected).run (answer hooks current) s =
      let configured := call hooks .configure s
      if !configured.1 then fail hooks selected .configurationFailed true configured.2
      else
        let modules := (call hooks .setupModules configured.2).2
        let installed := call hooks .installBindings modules
        if !installed.1 then fail hooks selected .registrationFailed true installed.2
        else
          let settled := call hooks .settlePending installed.2
          if !settled.1 then fail hooks selected .pendingPolicyFailed true settled.2
          else ({}, (call hooks .enableOwned settled.2).2) := by
  simp only [configureCode, Code.run, Code.run_ite, run_failCode]
  rfl

/-- **Run alone, the code is the body.** -/
theorem run_startCode (selected : Bool) (s : StartState B) :
    (startCode selected).run (answer hooks current) s = startBody hooks current selected s := by
  cases selected with
  | false =>
      show (configureCode false).run _ _ = _
      rw [run_configureCode]
      rfl
  | true =>
      show Code.run _ (if !_ then _ else _) _ = _
      rw [Code.run_ite, run_failCode, run_configureCode]
      rfl

end Alone

/-! ### When it returns -/

/-- What was called and answered when the body has returned `r`. -/
structure Ended (selected : Bool) (log : List (StartCall × Bool)) (r : StartResult) : Prop where
  enabled : r.outcome = .success ↔ ∃ b, (.hook .enableOwned, b) ∈ log
  installed : r.outcome = .success → (.hook .installBindings, true) ∈ log
  prepared : r.outcome = .success → selected = true → (.prepare, true) ∈ log
  stopped : (∃ b, (.stop, b) ∈ log) ↔ r.outcome ≠ .success ∧ (.prepare, true) ∈ log
  after : ∀ before b since, log = before ++ (.stop, b) :: since → (.prepare, true) ∈ before

/-- What a part of the body has called that fails, of a queue that is to be stopped or not. -/
structure Failed (stops : Bool) (log : List (StartCall × Bool)) (r : StartResult) : Prop where
  outcome : r.outcome ≠ .success
  disabled : ∀ b, (.hook .enableOwned, b) ∉ log
  stopped : (∃ b, (.stop, b) ∈ log) ↔ stops = true
  unprepared : ∀ b, (.prepare, b) ∉ log

variable {selected : Bool} {log : List (StartCall × Bool)} {r : StartResult}

/-- One more hook before. -/
theorem Failed.cons {stops : Bool} (h : Failed stops log r) {hook : Hook} (hne : hook ≠ .enableOwned)
    (a : Bool) : Failed stops ((.hook hook, a) :: log) r where
  outcome := h.outcome
  disabled b := by simp [h.disabled b, hne.symm]
  stopped := by simpa using h.stopped
  unprepared b := by simp [h.unprepared b]

theorem cleanupCode_ends {reason : SetupOutcome} (hreason : reason ≠ .success)
    (h : Asked (cleanupCode reason) log (.done r)) : Failed false log r := by
  obtain ⟨cleaned, rest, rfl, hcleaned⟩ := asked_call.mp h
  have hdone : rest = [] ∧ r.outcome ≠ .success := by
    cases cleaned with
    | false =>
        obtain ⟨rfl, rfl⟩ := asked_done.mp hcleaned
        exact ⟨rfl, SetupOutcome.noConfusion⟩
    | true =>
        obtain ⟨rfl, rfl⟩ := asked_done.mp hcleaned
        exact ⟨rfl, hreason⟩
  obtain ⟨rfl, houtcome⟩ := hdone
  exact ⟨houtcome, by simp, by simp, by simp⟩

theorem failCode_ends {reason : SetupOutcome} {queuePrepared : Bool} (hreason : reason ≠ .success)
    (h : Asked (failCode selected reason queuePrepared) log (.done r)) :
    Failed (selected && queuePrepared) log r := by
  obtain ⟨_, rest, rfl, hmasked⟩ := asked_call.mp h
  refine .cons ?_ (by decide) _
  cases hstops : selected && queuePrepared with
  | false =>
      rw [hstops] at hmasked
      exact cleanupCode_ends hreason hmasked
  | true =>
      rw [hstops] at hmasked
      obtain ⟨b, rest, rfl, hstopped⟩ := asked_call.mp hmasked
      have hcleanup := cleanupCode_ends hreason hstopped
      exact ⟨hcleanup.outcome, by simpa using hcleanup.disabled, by simp, by simpa using hcleanup.unprepared⟩

/-- **The body after `prepare` fails, or calls every hook.** -/
theorem configureCode_ends (h : Asked (configureCode selected) log (.done r)) :
    Failed selected log r ∨ r.outcome = .success ∧ ∃ modules enabled, log =
      [(.hook .configure, true), (.hook .setupModules, modules), (.hook .installBindings, true),
        (.hook .settlePending, true), (.hook .enableOwned, enabled)] := by
  have hfailed : ∀ {reason log}, reason ≠ .success →
      Asked (failCode selected reason true) log (.done r) → Failed selected log r := by
    intro reason log hreason h
    have hends := failCode_ends hreason h
    rwa [Bool.and_true] at hends
  obtain ⟨configured, _, rfl, hconfigured⟩ := asked_call.mp h
  cases configured with
  | false => exact .inl ((hfailed (by decide) hconfigured).cons (by decide) _)
  | true =>
      obtain ⟨modules, _, rfl, hmodules⟩ := asked_call.mp hconfigured
      obtain ⟨installed, _, rfl, hinstalled⟩ := asked_call.mp hmodules
      cases installed with
      | false =>
          exact .inl ((((hfailed (by decide) hinstalled).cons (by decide) _).cons (by decide) _).cons
            (by decide) _)
      | true =>
          obtain ⟨settled, _, rfl, hsettled⟩ := asked_call.mp hinstalled
          cases settled with
          | false =>
              exact .inl (((((hfailed (by decide) hsettled).cons (by decide) _).cons (by decide) _).cons
                (by decide) _).cons (by decide) _)
          | true =>
              obtain ⟨enabled, _, rfl, henabled⟩ := asked_call.mp hsettled
              obtain ⟨rfl, rfl⟩ := asked_done.mp henabled
              exact .inr ⟨rfl, modules, enabled, rfl⟩

/-- A `stop` is not among the first two calls. -/
theorem prepared_before_stop {masked b : Bool} {log before since : List (StartCall × Bool)}
    (h : (.hook .maskOwned, masked) :: (.prepare, true) :: log = before ++ (.stop, b) :: since) :
    (.prepare, true) ∈ before := by
  obtain _ | ⟨first, _ | ⟨second, before⟩⟩ := before
  · cases h
  · cases h
  · cases h
    exact List.mem_cons_of_mem _ List.mem_cons_self

/-- **What a start that returns has called.**  It has enabled the interrupts exactly if it succeeds, and
stopped the queue exactly if it fails and had prepared it, after that. -/
theorem startCode_ends (h : Asked (startCode selected) log (.done r)) : Ended selected log r := by
  obtain ⟨masked, _, rfl, hmasked⟩ := asked_call.mp h
  have hnever : ∀ {log : List (StartCall × Bool)}, (¬ ∃ b, (.stop, b) ∈ log) → ∀ before b since,
      log = before ++ (.stop, b) :: since → (.prepare, true) ∈ before :=
    fun hnone before b since hlog => absurd ⟨b, hlog ▸ by simp⟩ hnone
  cases selected with
  | false =>
      rcases configureCode_ends hmasked with hfailed | ⟨hsuccess, modules, enabled, rfl⟩
      · obtain ⟨houtcome, hdisabled, hstopped, hunprepared⟩ := hfailed
        exact ⟨by simp [houtcome, hdisabled], by simp [houtcome], by simp, by
          simpa [hunprepared] using hstopped, hnever (by simpa using hstopped)⟩
      · exact ⟨by simp [hsuccess], by simp, by simp, by simp [hsuccess], hnever (by simp)⟩
  | true =>
      obtain ⟨prepared, _, rfl, hprepared⟩ := asked_call.mp hmasked
      cases prepared with
      | false =>
          obtain ⟨houtcome, hdisabled, hstopped, hunprepared⟩ := failCode_ends (by decide) hprepared
          exact ⟨by simp [houtcome, hdisabled], by simp [houtcome], by simp [houtcome], by
            simpa [hunprepared] using hstopped, hnever (by simpa using hstopped)⟩
      | true =>
          rcases configureCode_ends hprepared with hfailed | ⟨hsuccess, modules, enabled, rfl⟩
          · obtain ⟨houtcome, hdisabled, hstopped, hunprepared⟩ := hfailed
            exact ⟨by simp [houtcome, hdisabled], by simp [houtcome], by simp, by
              simpa [houtcome] using hstopped, fun _ _ _ => prepared_before_stop⟩
          · exact ⟨by simp [hsuccess], by simp, by simp, by simp [hsuccess],
              fun _ _ _ => prepared_before_stop⟩

end Grevir.Interrupt
