import Grevir.Event.Ownership

/-!
# Interrupt — Start

The body of `Application::start`: the board's hooks in order, with an exit after each that can
fail.  A hook may post any events and answer as it likes, whatever was called before and whatever
the queue holds.

* `startBody`: the body; `fail`: what it does before it returns a failure.
* `start_undoes_queue`: what a start that fails, one that is refused and one that succeeds leave.
-/

namespace Grevir.Interrupt

open Event

inductive SetupOutcome where
  | success | eventContextFailed | configurationFailed | registrationFailed
  | pendingPolicyFailed | cleanupFailed | inProgress
  deriving DecidableEq

inductive CallDisposition where
  | initiated | waited | replayed | inProgress
  deriving DecidableEq

structure StartResult where
  outcome : SetupOutcome := .success
  originatingFailure : SetupOutcome := .success
  disposition : CallDisposition := .initiated
  deriving DecidableEq

/-- What the body calls besides the queue. -/
inductive Hook where
  | maskOwned | configure | setupModules | installBindings | settlePending | enableOwned | cleanup
  deriving DecidableEq

/-- The hooks that answer whether they succeeded, and end the start if not. -/
def Hook.fallible : Hook → Bool
  | .configure | .installBindings | .settlePending => true
  | _ => false

/-- A call of a hook as it took place. -/
structure Call (Event : Type) where
  hook : Hook
  posts : List Event
  succeeded : Bool

variable {Task Token Owner Event : Type} [DecidableEq Event] {B : Board Task Token Owner Event}

/-- The events a hook posts, in order, and what it answers, by what was called before and the queue. -/
abbrev Hooks (B : Board Task Token Owner Event) :=
  List (Call Event) → Queue B → Hook → List Event × Bool

/-- The queue and the calls so far. -/
structure StartState (B : Board Task Token Owner Event) where
  queue : Queue B
  calls : List (Call Event)

/-- The queue after some posts. -/
def posted (q : Queue B) (events : List Event) : Queue B :=
  events.foldl (fun q e => (q.postWithGuard e).2) q

section Body

variable (hooks : Hooks B) (current : Token)

def call (hook : Hook) (s : StartState B) : Bool × StartState B :=
  let r := hooks s.calls s.queue hook
  (r.2, ⟨posted s.queue r.1, s.calls ++ [⟨hook, r.1, r.2⟩]⟩)

/-- `fail`. -/
def fail (selected : Bool) (reason : SetupOutcome) (queuePrepared : Bool) (s : StartState B) :
    StartResult × StartState B :=
  let masked := (call hooks .maskOwned s).2
  let stopped :=
    if selected && queuePrepared then { masked with queue := masked.queue.stop } else masked
  let cleaned := call hooks .cleanup stopped
  if !cleaned.1 then (⟨.cleanupFailed, reason, .initiated⟩, cleaned.2)
  else (⟨reason, reason, .initiated⟩, cleaned.2)

/-- `event::prepare`, where the plan selects the deferred context. -/
def prepareQueue (selected : Bool) (s : StartState B) : Bool × StartState B :=
  if selected then
    let r := s.queue.prepare current
    (r.1, { s with queue := r.2 })
  else (true, s)

/-- The body that `Application::start` hands to the board's policy. -/
def startBody (selected : Bool) (s : StartState B) : StartResult × StartState B :=
  let masked := (call hooks .maskOwned s).2
  let prepared := prepareQueue current selected masked
  if !prepared.1 then fail hooks selected .eventContextFailed false prepared.2
  else
    let configured := call hooks .configure prepared.2
    if !configured.1 then fail hooks selected .configurationFailed true configured.2
    else
      let modules := (call hooks .setupModules configured.2).2
      let installed := call hooks .installBindings modules
      if !installed.1 then fail hooks selected .registrationFailed true installed.2
      else
        let settled := call hooks .settlePending installed.2
        if !settled.1 then fail hooks selected .pendingPolicyFailed true settled.2
        else ({}, (call hooks .enableOwned settled.2).2)

end Body

/-! ### Posts -/

/-- A post changes neither owner nor readiness, nor whether the queue is being dispatched. -/
structure SameSession (q q' : Queue B) : Prop where
  ready : q'.ready = q.ready
  dispatching : q'.dispatching = q.dispatching
  owner : q'.owner = q.owner

theorem postWithGuard_sameSession (q : Queue B) (e : Event) :
    SameSession q (q.postWithGuard e).2 := by
  unfold Queue.postWithGuard
  split
  · exact ⟨rfl, rfl, rfl⟩
  · split
    · exact ⟨rfl, rfl, rfl⟩
    · split
      · exact ⟨rfl, rfl, rfl⟩
      · cases B.delivery e <;> exact ⟨rfl, rfl, rfl⟩

theorem posted_sameSession (q : Queue B) (events : List Event) :
    SameSession q (posted q events) := by
  induction events generalizing q with
  | nil => exact ⟨rfl, rfl, rfl⟩
  | cons e events ih =>
      have hpost := postWithGuard_sameSession q e
      have hrest := ih (q.postWithGuard e).2
      exact ⟨hrest.ready.trans hpost.ready, hrest.dispatching.trans hpost.dispatching,
        hrest.owner.trans hpost.owner⟩

theorem posted_notReady {q : Queue B} (h : q.ready = false) (events : List Event) :
    posted q events = q := by
  induction events with
  | nil => rfl
  | cons e events ih =>
      show posted (q.postWithGuard e).2 events = q
      rw [Queue.postWithGuard_notReady h, ih]

theorem posted_append (q : Queue B) (events events' : List Event) :
    posted q (events ++ events') = posted (posted q events) events' := List.foldl_append

theorem posted_represents {q : Queue B} {m : Mailbox Owner Event} (h : Represents q m)
    (events : List Event) : ∃ m', Represents (posted q events) m' := by
  induction events generalizing q m with
  | nil => exact ⟨m, h⟩
  | cons e events ih => exact ih (h.post e).2

/-! ### Calls -/

/-- All that is posted in some calls. -/
def postsOf (calls : List (Call Event)) : List Event := calls.flatMap (·.posts)

/-- The queue is the one at some time with all that was posted since. -/
structure Since (before : List (Call Event)) (q : Queue B) (s : StartState B) : Prop where
  history : before <+: s.calls
  queue : s.queue = posted q (postsOf (s.calls.drop before.length))

section Calls

variable (hooks : Hooks B) (s : StartState B)

@[simp] theorem call_hooks (hook : Hook) :
    (call hooks hook s).2.calls.map (·.hook) = s.calls.map (·.hook) ++ [hook] := by
  simp [call]

/-- A call is recorded with what the hook answered. -/
theorem call_succeeded (hook : Hook) :
    (call hooks hook s).2.calls.map (fun c => (c.hook, c.succeeded)) =
      s.calls.map (fun c => (c.hook, c.succeeded)) ++ [(hook, (call hooks hook s).1)] := by
  simp [call]

theorem call_sameSession (hook : Hook) : SameSession s.queue (call hooks hook s).2.queue :=
  posted_sameSession _ _

theorem since_refl : Since s.calls s.queue s :=
  ⟨List.prefix_refl _, by simp [postsOf, posted]⟩

variable {s} {before : List (Call Event)} {q : Queue B}

theorem Since.call (h : Since before q s) (hook : Hook) :
    Since before q (Interrupt.call hooks hook s).2 := by
  have hlength : before.length ≤ s.calls.length := h.history.length_le
  refine ⟨h.history.trans (List.prefix_append _ _), ?_⟩
  show posted s.queue _ = posted q (postsOf (List.drop before.length (s.calls ++ [_])))
  rw [List.drop_append_of_le_length hlength, postsOf, List.flatMap_append, posted_append,
    ← postsOf, ← h.queue]
  simp

theorem Since.sameSession (h : Since before q s) : SameSession q s.queue :=
  h.queue ▸ posted_sameSession q _

theorem Since.represents (h : Since before q s) {m : Mailbox Owner Event} (hq : Represents q m) :
    ∃ m', Represents s.queue m' :=
  h.queue ▸ posted_represents hq _

end Calls

/-! ### `fail` -/

/-- **The queue as a start that fails leaves it.** -/
structure Undone (B : Board Task Token Owner Event) (q : Queue B) : Prop where
  closed : q.ready = false
  empty : q.held = []
  lowered : ∀ e, q.pending e = false
  reopens : ∀ token, (q.prepare token).1 = true
  refuses : ∀ e, q.postWithGuard e = (.notReady, q)

theorem undone_stop {q : Queue B} {m : Mailbox Owner Event} (h : Represents q m)
    (hdispatching : q.dispatching = false) : Undone B q.stop := by
  have hstop := h.stop
  refine ⟨rfl, ?_, fun e => ?_, fun token => ?_, fun e => ?_⟩
  · rw [hstop.held_eq]
    rfl
  · rw [Bool.eq_false_iff, ne_eq, hstop.pending_iff e]
    intro hwaits
    cases hwaits.2
  · rw [Queue.prepare_granted (show q.stop.ready = false from rfl)
      (show q.stop.dispatching = false from hdispatching)]
  · exact Queue.postWithGuard_notReady rfl

section Fail

variable (hooks : Hooks B) (reason : SetupOutcome) (s : StartState B)

/-- `fail` up to its `cleanup`. -/
def stopped (queuePrepared : Bool) : StartState B :=
  let masked := (call hooks .maskOwned s).2
  if queuePrepared then { masked with queue := masked.queue.stop } else masked

theorem fail_eq (queuePrepared : Bool) :
    fail hooks true reason queuePrepared s =
      let cleaned := call hooks .cleanup (stopped hooks s queuePrepared)
      (⟨if cleaned.1 then reason else .cleanupFailed, reason, .initiated⟩, cleaned.2) := by
  have hunfold : fail hooks true reason queuePrepared s =
      let cleaned := call hooks .cleanup (stopped hooks s queuePrepared)
      if !cleaned.1 then (⟨.cleanupFailed, reason, .initiated⟩, cleaned.2)
      else (⟨reason, reason, .initiated⟩, cleaned.2) := by
    cases queuePrepared <;> rfl
  rw [hunfold]
  cases hcleanup : (call hooks .cleanup (stopped hooks s queuePrepared)).1 <;> simp [hcleanup]

theorem fail_state (queuePrepared : Bool) :
    (fail hooks true reason queuePrepared s).2 =
      (call hooks .cleanup (stopped hooks s queuePrepared)).2 := by
  rw [fail_eq]

variable {reason} in
theorem fail_outcome (queuePrepared : Bool) (h : reason ≠ .success) :
    (fail hooks true reason queuePrepared s).1.outcome ≠ .success := by
  rw [fail_eq]
  dsimp only
  split
  · exact h
  · exact nofun

theorem fail_hooks (queuePrepared : Bool) :
    (fail hooks true reason queuePrepared s).2.calls.map (·.hook) =
      s.calls.map (·.hook) ++ [.maskOwned, .cleanup] := by
  rw [fail_state, call_hooks]
  cases queuePrepared <;> simp [stopped]

/-- A queue this start prepared is stopped, and stays so. -/
theorem fail_stops {m : Mailbox Owner Event} (h : Represents s.queue m)
    (hdispatching : s.queue.dispatching = false) :
    Undone B (fail hooks true reason true s).2.queue := by
  have hmasked := (since_refl s).call hooks .maskOwned
  obtain ⟨m', hm'⟩ := hmasked.represents h
  have hundone := undone_stop hm' (hmasked.sameSession.dispatching.trans hdispatching)
  rw [fail_state]
  show Undone B (posted _ _)
  rw [posted_notReady rfl]
  exact hundone

/-- A queue this start did not prepare is left alone. -/
theorem fail_leaves {before : List (Call Event)} {q : Queue B} (h : Since before q s) :
    Since before q (fail hooks true reason false s).2 := by
  rw [fail_state]
  exact (h.call hooks .maskOwned).call hooks .cleanup

end Fail

/-! ### The body -/

section Ends

variable (hooks : Hooks B) (current : Token) {q : Queue B}

/-- The queue is another start's, or a callback of it runs. -/
theorem startBody_refused (h : q.ready = true ∨ q.dispatching = true) :
    startBody hooks current true ⟨q, []⟩ =
      fail hooks true .eventContextFailed false (call hooks .maskOwned ⟨q, []⟩).2 := by
  have hsame := call_sameSession hooks ⟨q, []⟩ .maskOwned
  have hprepare : (call hooks .maskOwned ⟨q, []⟩).2.queue.prepare current =
      (false, (call hooks .maskOwned ⟨q, []⟩).2.queue) :=
    Queue.prepare_refused (h.imp hsame.ready.trans hsame.dispatching.trans)
  simp [startBody, prepareQueue, hprepare]

/-- The state in which a start that was granted the queue goes on. -/
def opened (q : Queue B) : StartState B :=
  (prepareQueue current true (call hooks .maskOwned ⟨q, []⟩).2).2

variable (hready : q.ready = false) (hdispatching : q.dispatching = false)
include hready hdispatching

theorem prepareQueue_granted :
    prepareQueue current true (call hooks .maskOwned ⟨q, []⟩).2 =
      (true, opened hooks current q) := by
  have hsame := call_sameSession hooks ⟨q, []⟩ .maskOwned
  have hgranted : ((call hooks .maskOwned ⟨q, []⟩).2.queue.prepare current).1 = true := by
    rw [Queue.prepare_granted (hsame.ready.trans hready) (hsame.dispatching.trans hdispatching)]
  simp [opened, prepareQueue, hgranted]

omit hdispatching in
/-- No post is taken before the queue is prepared. -/
theorem opened_queue : (opened hooks current q).queue = (q.prepare current).2 := by
  show ((posted q _).prepare current).2 = _
  rw [posted_notReady hready]

/-- **A start that was granted the queue fails with it prepared, or calls every hook.** -/
theorem startBody_granted :
    (∃ reason s, reason ≠ .success ∧
      Since (opened hooks current q).calls (opened hooks current q).queue s ∧
      .enableOwned ∉ s.calls.map (·.hook) ∧
      startBody hooks current true ⟨q, []⟩ = fail hooks true reason true s) ∨
    (∃ s, Since (opened hooks current q).calls (opened hooks current q).queue s ∧
      (∃ masked modules, s.calls.map (fun c => (c.hook, c.succeeded)) =
        [(.maskOwned, masked), (.configure, true), (.setupModules, modules),
          (.installBindings, true), (.settlePending, true)]) ∧
      startBody hooks current true ⟨q, []⟩ = ({}, (call hooks .enableOwned s).2)) := by
  have hopened : (opened hooks current q).calls.map (·.hook) = [.maskOwned] :=
    call_hooks hooks ⟨q, []⟩ .maskOwned
  have hanswers : ∃ masked, (opened hooks current q).calls.map (fun c => (c.hook, c.succeeded)) =
      [(.maskOwned, masked)] := ⟨_, call_succeeded hooks ⟨q, []⟩ .maskOwned⟩
  have hsince := since_refl (opened hooks current q)
  simp only [startBody, prepareQueue_granted hooks current hready hdispatching]
  generalize opened hooks current q = s at *
  have hconfigured := hsince.call hooks .configure
  cases hconfigure : (call hooks .configure s).1
  · exact .inl ⟨.configurationFailed, _, nofun, hconfigured, by simp [hopened], by simp⟩
  have hmodules := hconfigured.call hooks .setupModules
  have hinstalled := hmodules.call hooks .installBindings
  cases hinstall : (call hooks .installBindings
    (call hooks .setupModules (call hooks .configure s).2).2).1
  · exact .inl ⟨.registrationFailed, _, nofun, hinstalled, by simp [hopened], by simp⟩
  have hsettled := hinstalled.call hooks .settlePending
  cases hsettle : (call hooks .settlePending (call hooks .installBindings
    (call hooks .setupModules (call hooks .configure s).2).2).2).1
  · exact .inl ⟨.pendingPolicyFailed, _, nofun, hsettled, by simp [hopened], by simp⟩
  obtain ⟨masked, hmasked⟩ := hanswers
  refine .inr ⟨_, hsettled,
    ⟨masked, (call hooks .setupModules (call hooks .configure s).2).1, ?_⟩, by simp⟩
  rw [call_succeeded, call_succeeded, call_succeeded, call_succeeded, hmasked, hconfigure,
    hinstall, hsettle]
  rfl

omit hready hdispatching in
theorem granted_iff :
    (prepareQueue current true (call hooks .maskOwned ⟨q, []⟩).2).1 = true ↔
      q.ready = false ∧ q.dispatching = false := by
  have hsame := call_sameSession hooks ⟨q, []⟩ .maskOwned
  show ((call hooks .maskOwned ⟨q, []⟩).2.queue.prepare current).1 = true ↔ _
  rw [Queue.prepare, hsame.ready, hsame.dispatching]
  cases q.ready <;> cases q.dispatching <;> simp

/-- A start that goes on from the prepared queue keeps it a queue that no callback of runs. -/
theorem since_opened {m : Mailbox Owner Event} (hm : Represents q m) {s : StartState B}
    (hsince : Since (opened hooks current q).calls (opened hooks current q).queue s) :
    (∃ m', Represents s.queue m') ∧ s.queue.dispatching = false := by
  have hqueue := opened_queue hooks current hready
  refine ⟨hsince.represents (hqueue ▸ (hm.prepare current).2), ?_⟩
  rw [hsince.sameSession.dispatching, hqueue, Queue.prepare_granted hready hdispatching]
  exact hdispatching

end Ends

/-- **A start that fails undoes the queue it prepared, one that is refused does not touch it, and one
that succeeds enabled the interrupts last.** -/
theorem start_undoes_queue (hooks : Hooks B) (current : Token) {q : Queue B} (h : Reached q) :
    let granted := (prepareQueue current true (call hooks .maskOwned ⟨q, []⟩).2).1
    let r := startBody hooks current true ⟨q, []⟩
    (granted = true ↔ q.ready = false ∧ q.dispatching = false) ∧
    (r.1.outcome ≠ .success →
      (∃ before, r.2.calls.map (·.hook) = before ++ [.maskOwned, .cleanup] ∧
        .enableOwned ∉ before) ∧
      (granted = true → Undone B r.2.queue) ∧
      (granted = false → r.2.queue = posted q (postsOf r.2.calls) ∧ SameSession q r.2.queue)) ∧
    (r.1.outcome = .success →
      granted = true ∧
      r.2.calls.map (·.hook) = [.maskOwned, .configure, .setupModules, .installBindings,
        .settlePending, .enableOwned] ∧
      (∀ c ∈ r.2.calls, c.hook.fallible = true → c.succeeded = true) ∧
      r.2.queue = posted (q.prepare current).2 (postsOf (r.2.calls.drop 1))) := by
  intro granted r
  have hgranted : granted = true ↔ q.ready = false ∧ q.dispatching = false :=
    granted_iff hooks current
  obtain ⟨m, hm⟩ := h.represents
  refine ⟨hgranted, ?_⟩
  by_cases hfree : q.ready = false ∧ q.dispatching = false
  · obtain ⟨hready, hdispatching⟩ := hfree
    have hown : granted = true := hgranted.mpr ⟨hready, hdispatching⟩
    rcases startBody_granted hooks current hready hdispatching with
      ⟨reason, s, hreason, hsince, henable, hr⟩ | ⟨s, hsince, ⟨masked, modules, hanswers⟩, hr⟩
    · have hfails : r = fail hooks true reason true s := hr
      obtain ⟨⟨m', hm'⟩, hidle⟩ := since_opened hooks current hready hdispatching hm hsince
      rw [hfails]
      exact ⟨fun _ => ⟨⟨_, fail_hooks hooks reason s true, henable⟩,
        fun _ => fail_stops hooks reason s hm' hidle,
        fun hrefused => absurd (hrefused.symm.trans hown) nofun⟩,
        fun hsuccess => absurd hsuccess (fail_outcome hooks s true hreason)⟩
    · have hstarts : r = ({}, (call hooks .enableOwned s).2) := hr
      rw [hstarts]
      refine ⟨fun hfails => absurd rfl hfails, fun _ => ⟨hown, ?_, ?_, ?_⟩⟩
      · have hhooks := congrArg (List.map Prod.fst) hanswers
        rw [List.map_map] at hhooks
        rw [call_hooks]
        exact congrArg (· ++ [Hook.enableOwned]) hhooks
      · have hall : ∀ a ∈ (call hooks .enableOwned s).2.calls.map (fun c => (c.hook, c.succeeded)),
            a.1.fallible = true → a.2 = true := by
          rw [call_succeeded, hanswers]
          simp [Hook.fallible]
        intro c hc
        exact hall _ (List.mem_map_of_mem hc)
      · have hqueue := (hsince.call hooks .enableOwned).queue
        rw [opened_queue hooks current hready] at hqueue
        exact hqueue
  · have hrefused : q.ready = true ∨ q.dispatching = true := by
      rw [not_and_or] at hfree
      simpa using hfree
    have hfails : r = fail hooks true .eventContextFailed false (call hooks .maskOwned ⟨q, []⟩).2 :=
      startBody_refused hooks current hrefused
    have hsince : Since [] q r.2 :=
      hfails ▸ fail_leaves hooks _ _ ((since_refl ⟨q, []⟩).call hooks .maskOwned)
    have hlost : granted ≠ true := mt hgranted.mp hfree
    refine ⟨fun _ => ⟨?_, fun hown => absurd hown hlost,
      fun _ => ⟨hsince.queue, hsince.sameSession⟩⟩, fun hsuccess => ?_⟩
    · rw [hfails, fail_hooks, call_hooks]
      exact ⟨[.maskOwned], rfl, by decide⟩
    · rw [hfails] at hsuccess
      exact absurd hsuccess (fail_outcome hooks _ false nofun)

/-- Before `main`, with a board that takes a post while it cannot be configured. -/
theorem start_undoes_queue_unconfigured :
    Undone twoTasks (startBody (fun _ _ hook => ([()], hook ≠ .configure)) true true
      ⟨Queue.initial twoTasks none, []⟩).2.queue :=
  have h := start_undoes_queue (fun _ _ hook => ([()], hook ≠ .configure)) true
    (Reached.initial (B := twoTasks) none)
  (h.2.1 (by decide)).2.1 (h.1.mpr ⟨rfl, rfl⟩)

end Grevir.Interrupt
