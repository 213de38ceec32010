import Grevir.Event.Delivery
import Grevir.Irqgen.FinalPass

/-!
# Irqgen — Firmware

What a compiled image does when it runs.  The board calls the routine of a source when its interrupt
fires, on AVR through the vector, elsewhere once `install_bindings` has installed it; the routine calls
the event's handler, or posts the event to the main-loop queue.  The tasks, and the handlers that are
called, use the queue as they like.

* `exists_schedule`: what an image's run shows of the queue is what a schedule of the queue shows.
* `installed`: `install_bindings` succeeds only if it has installed every routine.
* `interrupt_reaches_handler`: the way from an interrupt to the handler the program declares.
-/

namespace Grevir.Irqgen

open Interrupt Json

variable {Task Token Owner E : Type}

/-! ### The image -/

/-- The routines of an image.  They are the vectors of their sources (`ISR`), or `install_bindings`
installs them. -/
structure Image (E : Type) where
  dispatches : List (Dispatch E)
  vectors : Bool

/-- The image of a unit that was compiled with the outputs of a plan. -/
def Image.ofPlan (plan : Plan) (ds : List (Dispatch E)) : Image E where
  dispatches := ds
  vectors := plan.content.backend = "avr"

/-- What `install_bindings` does for the routines of these sources: whether it succeeds, and what it has
installed.  It reads the guard of each source, and asks the board to install the routine. -/
def installBindings (guards : String → UInt8) (install : String → Bool) :
    List String → Bool × List String
  | [] => (true, [])
  | source :: sources =>
      if guards source ≠ 0 then (false, [])
      else if install source then
        let rest := installBindings guards install sources
        (rest.1, source :: rest.2)
      else (false, [])

/-- A running image: the tasks and the queue, and the sources whose routines are installed. -/
structure Running (B : Event.Board Task Token Owner E) where
  system : Event.System B
  installed : List String

/-- What can happen: a step of a task or a post from a handler, a call of `install_bindings`, and the
interrupt of a source. -/
inductive Signal (Task E : Type) where
  | code (a : Event.Action Task E)
  | installBindings (guards : String → UInt8) (install : String → Bool)
  | interrupt (source : String)

/-- What is shown: what the queue does, a handler called by a routine, and the answer of
`install_bindings`. -/
inductive Shown (Task E : Type) where
  | queue (x : Event.Label Task E)
  | called (e : E) (handling : Handling)
  | installed (success : Bool)
  deriving DecidableEq

namespace Image

variable (image : Image E) {B : Event.Board Task Token Owner E}

/-- The routine the interrupt of a source gets to. -/
def routine (s : Running B) (source : String) : Option (Dispatch E) :=
  if image.vectors || s.installed.contains source then
    image.dispatches.find? fun d => d.source = source
  else none

variable [DecidableEq Task] [DecidableEq E]

/-- What a routine does. -/
def run (s : Running B) (d : Dispatch E) : Running B × Option (Shown Task E) :=
  match d.handling with
  | .postFromIsr =>
      let r := s.system.step (.postFromIsr d.event)
      ({ s with system := r.1 }, r.2.map .queue)
  | handling => (s, some (.called d.event handling))

def step (s : Running B) : Signal Task E → Running B × Option (Shown Task E)
  | .code a =>
      let r := s.system.step a
      ({ s with system := r.1 }, r.2.map .queue)
  | .installBindings guards install =>
      let r := installBindings guards install (image.dispatches.map (·.source))
      ({ s with installed := s.installed ++ r.2 }, some (.installed r.1))
  | .interrupt source => match image.routine s source with
      | none => (s, none)
      | some d => run s d

/-- The image, as a machine. -/
def machine (B : Event.Board Task Token Owner E) :
    Runs.Machine (Running B) (Signal Task E) (Shown Task E) where
  step := image.step

/-- The state and the history of a schedule that starts before `main` does. -/
def after (B : Event.Board Task Token Owner E) (owner : Owner) (as : List (Signal Task E)) :
    Running B × List (Shown Task E) :=
  (image.machine B).run ⟨Event.System.initial B owner, []⟩ as

end Image

/-- What a history shows of the queue. -/
def queueOf (h : List (Shown Task E)) : List (Event.Label Task E) :=
  h.filterMap fun
    | .queue x => some x
    | _ => none

/-! ### The queue of a running image -/

theorem queueOf_append (h h' : List (Shown Task E)) : queueOf (h ++ h') = queueOf h ++ queueOf h' :=
  List.filterMap_append

theorem queueOf_map (x : Option (Event.Label Task E)) : queueOf (x.map Shown.queue).toList = x.toList := by
  cases x with
  | none => rfl
  | some x => rfl

section Runs

variable {B : Event.Board Task Token Owner E} [DecidableEq Task] [DecidableEq E] {image : Image E}
  {owner : Owner} {as : List (Signal Task E)}

/-- What a step can do. -/
inductive Step (image : Image E) (s : Running B) : Running B → Option (Shown Task E) → Prop where
  | idle : Step image s s none
  | queue (a : Event.Action Task E) :
      Step image s { s with system := (s.system.step a).1 } ((s.system.step a).2.map .queue)
  | called (e : E) (handling : Handling) : Step image s s (some (.called e handling))
  | installed (guards : String → UInt8) (install : String → Bool) :
      Step image s
        { s with installed :=
            s.installed ++ (installBindings guards install (image.dispatches.map (·.source))).2 }
        (some (.installed (installBindings guards install (image.dispatches.map (·.source))).1))

theorem step_spec (s : Running B) (a : Signal Task E) :
    Step image s (image.step s a).1 (image.step s a).2 := by
  cases a with
  | code a => exact .queue a
  | installBindings guards install => exact .installed guards install
  | interrupt source =>
      rw [Image.step]
      split
      · exact .idle
      · rename_i d hd
        rw [Image.run]
        split
        · exact .queue (.postFromIsr d.event)
        · exact .called d.event _

/-- **What an image's run shows of the queue is what a schedule of the queue shows.** -/
theorem exists_schedule (image : Image E) (owner : Owner) (as : List (Signal Task E)) :
    ∃ bs, Event.System.after B owner bs =
      ((image.after B owner as).1.system, queueOf (image.after B owner as).2) := by
  refine (image.machine B).run_induct
    (P := fun s h => ∃ bs, Event.System.after B owner bs = (s.system, queueOf h)) ⟨[], rfl⟩
    (fun s h a ⟨bs, hbs⟩ => ?_) as
  have hstep : Step image s ((image.machine B).step s a).1 ((image.machine B).step s a).2 := step_spec s a
  generalize ((image.machine B).step s a).1 = s', ((image.machine B).step s a).2 = x at hstep
  rw [queueOf_append]
  cases hstep with
  | idle => exact ⟨bs, hbs.trans (Prod.ext rfl (List.append_nil _).symm)⟩
  | called e handling => exact ⟨bs, hbs.trans (Prod.ext rfl (List.append_nil _).symm)⟩
  | installed guards install => exact ⟨bs, hbs.trans (Prod.ext rfl (List.append_nil _).symm)⟩
  | queue a =>
      refine ⟨bs ++ [a], (Runs.Machine.run_snoc _ _ _ _).trans ?_⟩
      rw [queueOf_map]
      change (_, (Event.System.after B owner bs).2 ++
        ((Event.System.after B owner bs).1.step a).2.toList) = _
      rw [hbs]
      exact Prod.ext (congrArg (fun z : Event.System B => (z.step a).1) (congrArg Prod.fst hbs)) rfl

/-! ### What is installed -/

theorem installBindings_succeeded {guards : String → UInt8} {install : String → Bool}
    {sources : List String} (h : (installBindings guards install sources).1 = true) :
    (installBindings guards install sources).2 = sources := by
  induction sources with
  | nil => rfl
  | cons source sources ih =>
      rw [installBindings] at h ⊢
      split_ifs at h ⊢
      exact congrArg (source :: ·) (ih h)

/-- **`install_bindings` succeeds only if it has installed every routine.** -/
theorem installed (h : .installed true ∈ (image.after B owner as).2) :
    ∀ d ∈ image.dispatches, d.source ∈ (image.after B owner as).1.installed := by
  revert h
  refine (image.machine B).run_induct (P := fun s h => .installed true ∈ h →
    ∀ d ∈ image.dispatches, d.source ∈ s.installed) (by simp) (fun s h a ih => ?_) as
  have hstep : Step image s ((image.machine B).step s a).1 ((image.machine B).step s a).2 := step_spec s a
  generalize ((image.machine B).step s a).1 = s', ((image.machine B).step s a).2 = x at hstep
  intro hmem d hd
  rw [List.mem_append, Option.mem_toList] at hmem
  cases hstep with
  | idle => exact ih (hmem.resolve_right (by simp)) d hd
  | called e handling => exact ih (hmem.resolve_right (by simp)) d hd
  | queue a => exact ih (hmem.resolve_right (by simp)) d hd
  | installed guards install =>
      rcases hmem with hmem | hmem
      · exact List.mem_append_left _ (ih hmem d hd)
      · have hsuccess := (Shown.installed.inj (Option.some.inj hmem))
        refine List.mem_append_right _ ?_
        rw [installBindings_succeeded hsuccess]
        exact List.mem_map_of_mem hd

end Runs

/-! ### From an interrupt to a handler -/

section Reaches

variable [DecidableEq Task] [DecidableEq E] {m : Nat}

/-- The queue of a unit on a board has the capacity that the board declares and the deliveries that the
unit declares. -/
structure Serves (B : Event.Board Task Token Owner E) (u : TranslationUnit E) (board : AllocatingBoard E m) :
    Prop where
  capacity : ∀ queue ∈ board.queue u, B.eventQueueCapacity = queue.eventQueueCapacity
  elide : ∀ e, u.delivery e = .elide → B.delivery e = .elide
  stream : ∀ e, u.delivery e = .stream → B.delivery e = .stream

/-- The event of a source is handled: its handler is called by the routine, or the event is posted.  A
post that is refused can be told; after any other the handler starts, unless the queue is stopped, once
`dispatch` calls that were let in since and have returned have budgets enough for a full queue and one. -/
structure Reaches (image : Image E) (B : Event.Board Task Token Owner E) (owner : Owner)
    (as : List (Signal Task E)) (u : TranslationUnit E) (source : String) (e : E) (handling : Handling)
    (capacity : Nat) : Prop where
  declared : u.declared e = some handling
  called : handling ≠ .postFromIsr →
    image.step (image.after B owner as).1 (.interrupt source) =
      ((image.after B owner as).1, some (.called e handling))
  posted : handling = .postFromIsr → ∃ r s',
    image.step (image.after B owner as).1 (.interrupt source) =
        (s', some (.queue (.posted none e r))) ∧
      (r = .notReady → (image.after B owner as).1.system.queue.ready = false) ∧
      (r = .full → s'.system.queue.overrun = true) ∧ (r = .coalesced → u.delivery e ≠ .stream) ∧
      (r = .queued ∨ r = .coalesced → ∀ bs l,
        (image.after B owner (as ++ .interrupt source :: bs)).2 =
          (image.after B owner as).2 ++ .queue (.posted none e r) :: l →
        Event.NoStop (queueOf l) → ∀ calls : List (Event.DispatchCall Task), (calls.map (·.call)).Nodup →
          (∀ c ∈ calls, Event.Completed (queueOf (image.after B owner as).2 ++ [.posted none e r])
            (queueOf l) c) →
          capacity + 1 ≤ (calls.map (·.budget)).sum → e ∈ Event.invocations (queueOf l))

omit [DecidableEq Task] in
/-- What a post answers says how the queue was. -/
theorem postWithGuard_tells {B : Event.Board Task Token Owner E} (q : Event.Queue B) (e : E) :
    ((q.postWithGuard e).1 = .notReady → q.ready = false) ∧
      ((q.postWithGuard e).1 = .full → (q.postWithGuard e).2.overrun = true) ∧
      ((q.postWithGuard e).1 = .coalesced → B.delivery e = .elide) := by
  cases hready : q.ready with
  | false => simp [Event.Queue.postWithGuard_notReady hready]
  | true =>
      by_cases hp : B.delivery e = .elide ∧ q.pending e = true
      · simp [Event.Queue.postWithGuard_coalesced hready hp.1 hp.2, hp.1]
      · by_cases hc : q.count.toNat = B.capacity
        · simp [Event.Queue.postWithGuard_full hready hp hc]
        · simp [Event.Queue.postWithGuard_queued hready hp hc]

/-- A routine that an interrupt gets to handles its event. -/
theorem reaches {image : Image E} {B : Event.Board Task Token Owner E} {owner : Owner}
    {as : List (Signal Task E)} {u : TranslationUnit E} {board : AllocatingBoard E m} (hB : Serves B u board)
    {d : Dispatch E} (hdeclared : u.declared d.event = some d.handling)
    (hroutine : image.routine (image.after B owner as).1 d.source = some d) {capacity : Nat}
    (hcapacity : d.handling = .postFromIsr → B.capacity = capacity) :
    Reaches image B owner as u d.source d.event d.handling capacity where
  declared := hdeclared
  called := by
    intro hhandling
    rw [Image.step, hroutine]
    show Image.run _ d = _
    cases hd : d.handling with
    | postFromIsr => exact absurd hd hhandling
    | onInterrupt => rw [Image.run, hd]
    | onEvent => rw [Image.run, hd]
  posted := by
    intro hhandling
    obtain ⟨hready, hfull, hcoalesced⟩ :=
      postWithGuard_tells (image.after B owner as).1.system.queue d.event
    refine ⟨_, { (image.after B owner as).1 with
      system := ((image.after B owner as).1.system.step (.postFromIsr d.event)).1 }, ?_, hready, hfull,
      fun hr hstream => ?_, ?_⟩
    · rw [Image.step, hroutine]
      show Image.run _ d = _
      rw [Image.run, hhandling]
      rfl
    · have helide := hcoalesced hr
      rw [hB.stream d.event hstream] at helide
      cases helide
    · intro hr bs l hshown hl calls hcalls hcompleted hbudget
      obtain ⟨cs, hcs⟩ := exists_schedule (B := B) image owner (as ++ .interrupt d.source :: bs)
      have hhistory := congrArg Prod.snd hcs
      rw [hshown, queueOf_append] at hhistory
      exact Grevir.Event.taken_handled hhistory hr hl hcalls hcompleted (hcapacity hhandling ▸ hbudget)

/-- The capacity of a queue that a plan's demands need is the plan's. -/
theorem capacity_of_deferred {n : Nat} {demands : DemandSummary n} {queue : Option QueueBoard}
    {c : DeferredContext} (h : c ∈ deferredContextPlan demands queue) {d : Demand Text}
    (hd : d ∈ demands.demands) (hcontext : d.context = literal "main_loop") :
    ∃ q ∈ queue, q.eventQueueCapacity.toNat = c.capacity := by
  have hselected : (demands.demands.any fun d => d.context = literal "main_loop") = true :=
    List.any_eq_true.mpr ⟨d, hd, decide_eq_true hcontext⟩
  unfold deferredContextPlan at h
  rw [Option.mem_def, hselected] at h
  cases queue with
  | none => cases h
  | some q =>
      simp only [Option.bind_eq_bind, Option.bind_eq_some_iff, Option.guard_eq_some'] at h
      obtain ⟨-, -, -, -, policy, -, -, -, heq⟩ := h
      obtain rfl := Option.some.inj heq
      exact ⟨q, rfl, rfl⟩

section Outputs

variable {F : Type} {sha256 : List UInt8 → String} {json : Value F → List UInt8} {p : PlanContent String}
  {u : TranslationUnit E} {board : AllocatingBoard E m} {name : Text} {bound : List BoundEvent}
  {rs : List Routine} {events : List Event} {ds : List (Dispatch E)}

omit [DecidableEq Task] in
/-- A unit that compiles with the outputs of a valid plan, and posts an event, has its demand recorded. -/
theorem FinalPass.recorded_deferred (hvalid : Valid p)
    (h : FinalPass (readPlan sha256 json p) u board name bound rs events ds) {e : E} (he : e ∈ u.events)
    (hdeclared : u.declared e = some .postFromIsr) :
    ∃ d ∈ (recordedDemands (readPlan sha256 json p)).demands, d.context = literal "main_loop" := by
  obtain ⟨hprobe, -, -⟩ := u.compile_final_iff.mp h.compile
  have hhandles : u.handles e = true := by
    by_contra hnone
    simp only [TranslationUnit.handles, Bool.or_eq_true, decide_eq_true_iff, not_or] at hnone
    rw [TranslationUnit.declared, if_neg hnone.1, if_neg hnone.2] at hdeclared
    cases hdeclared
  obtain ⟨c, hc, -⟩ := u.exists_chosen hprobe he
  refine ⟨c.demand (u.key e), ?_, u.context_of_deferred hc hdeclared⟩
  rw [recordedDemands_demands hvalid.demands]
  show _ ∈ p.demands.map (Demand.map Utf8.bytes)
  rw [← (h.agrees hvalid).1]
  exact (live_demands_perm events).mem_iff.mpr
    ((u.mem_handled_iff hprobe).mpr ⟨e, he, c, hc, hhandles, rfl⟩)

omit [DecidableEq Task] in
/-- Its queue has the plan's capacity. -/
theorem FinalPass.capacity {B : Event.Board Task Token Owner E} (hB : Serves B u board) (hvalid : Valid p)
    (h : FinalPass (readPlan sha256 json p) u board name bound rs events ds) {e : E} (he : e ∈ u.events)
    (hdeclared : u.declared e = some .postFromIsr) : B.capacity = p.capacity := by
  obtain ⟨d, hd, hcontext⟩ := h.recorded_deferred hvalid he hdeclared
  obtain ⟨deferred, hdeferred, hcapacity⟩ := h.asserted .capacity (by simp [assertions, applicationAssertions])
  obtain ⟨q, hq, hqueue⟩ := capacity_of_deferred hdeferred hd hcontext
  rw [Event.Board.capacity, hB.capacity q hq, hqueue, hcapacity]
  rfl

end Outputs

omit [DecidableEq Task] [DecidableEq E] in
/-- The interrupt of a source gets to its routine, if that is a vector or is installed. -/
theorem routine_eq {image : Image E} {B : Event.Board Task Token Owner E} {s : Running B}
    (hdistinct : (image.dispatches.map (·.source)).Nodup)
    (hinstalled : image.vectors = true ∨ ∀ d ∈ image.dispatches, d.source ∈ s.installed) {d : Dispatch E}
    (hd : d ∈ image.dispatches) : image.routine s d.source = some d := by
  have hreached : (image.vectors || s.installed.contains d.source) = true := by
    rw [Bool.or_eq_true, List.contains_iff_mem]
    exact hinstalled.imp_right fun h => h d hd
  rw [Image.routine, if_pos hreached]
  have hsome : (image.dispatches.find? fun d' => d'.source = d.source).isSome := by
    rw [List.find?_isSome]
    exact ⟨d, hd, decide_eq_true rfl⟩
  obtain ⟨d', hd'⟩ := Option.isSome_iff_exists.mp hsome
  have hsource : d'.source = d.source := by simpa using List.find?_some hd'
  rw [hd', List.inj_on_of_nodup_map hdistinct (List.mem_of_find?_eq_some hd') hd hsource]

/-- Where every routine is a vector or is installed, the source of a handled event leads to its handler. -/
theorem FinalPass.reaches {F : Type} {sha256 : List UInt8 → String} {json : Value F → List UInt8}
    {p : PlanContent String} {u : TranslationUnit E} {board : AllocatingBoard E m} {name : Text}
    {bound : List BoundEvent} {rs : List Routine} {events : List Event} {ds : List (Dispatch E)}
    (h : FinalPass (readPlan sha256 json p) u board name bound rs events ds) (hvalid : Valid p)
    {B : Event.Board Task Token Owner E} (hB : Serves B u board) {image : Image E}
    (hdispatches : image.dispatches = ds) {owner : Owner} {as : List (Signal Task E)}
    (hinstalled : image.vectors = true ∨ .installed true ∈ (image.after B owner as).2) {e : E}
    (he : e ∈ u.events) (hhandles : u.handles e = true) : ∃ source handling,
      (literal source, u.key e) ∈ (board.selected u events).held.map (fun b => (b.source, b.event)) ∧
        Reaches image B owner as u source e handling p.capacity := by
  subst hdispatches
  obtain ⟨-, hrouted⟩ := h.routed hvalid
  obtain ⟨d, hd, rfl⟩ := List.mem_map.mp
    (hrouted.handled.mem_iff.mpr (List.mem_filter.mpr ⟨he, hhandles⟩))
  refine ⟨d.source, d.handling, hrouted.selected.mem_iff.mp (List.mem_map_of_mem hd), ?_⟩
  have hdeclared := hrouted.declared d hd
  refine Irqgen.reaches hB hdeclared
    (routine_eq hrouted.distinct (hinstalled.imp_right fun hshown => installed hshown) hd) ?_
  exact fun hhandling => h.capacity hB hvalid he (hhandling ▸ hdeclared)

variable (F : Type) [PyFloat F] [FloatText F] (sha256 : List UInt8 → String)

/-- **An interrupt reaches the handler the program declares**, whatever the tasks and other interrupts
do.  In an image of a unit that compiles with the outputs of a plan, once `install_bindings` has
succeeded, the source that the board selects for an event that is handled leads to its handler, and the
interrupt of no other source does anything. -/
theorem interrupt_reaches_handler {u : TranslationUnit E} {board : AllocatingBoard E m} {name : Text}
    {record : List UInt8} {plan : Plan} (hplan : generatedPlan F sha256 record = .ok plan)
    {ds : List (Dispatch E)} (hfinal : finalPass plan u board name = some ds)
    {B : Event.Board Task Token Owner E} (hB : Serves B u board) (owner : Owner)
    (as : List (Signal Task E))
    (hinstalled : plan.content.backend = "avr" ∨
      .installed true ∈ ((Image.ofPlan plan ds).after B owner as).2) :
    ∃ events, u.compile .probe = some events ∧
      (∀ e ∈ u.events, u.handles e → ∃ source handling,
        (literal source, u.key e) ∈ (board.selected u events).held.map (fun b => (b.source, b.event)) ∧
          Reaches (Image.ofPlan plan ds) B owner as u source e handling plan.content.capacity) ∧
      ∀ source, literal source ∉ (board.selected u events).held.map (·.source) →
        (Image.ofPlan plan ds).step ((Image.ofPlan plan ds).after B owner as).1 (.interrupt source) =
          (((Image.ofPlan plan ds).after B owner as).1, none) := by
  obtain ⟨p, -, -, hvalid, rfl⟩ := (generatedPlan_eq_ok F sha256 .bits32).mp hplan
  obtain ⟨bound, rs, events, h⟩ := finalPass_eq_some.mp hfinal
  obtain ⟨hprobe, hrouted⟩ := h.routed hvalid
  refine ⟨events, hprobe, fun e he hhandles => ?_, fun source hsource => ?_⟩
  · exact h.reaches hvalid hB rfl (hinstalled.imp_left fun h => decide_eq_true h) he hhandles
  · have hnone : (Image.ofPlan (readPlan sha256 (jsonBytes : Value F → _) p) ds).routine
        ((Image.ofPlan (readPlan sha256 (jsonBytes : Value F → _) p) ds).after B owner as).1 source = none := by
      rw [Image.routine]
      split
      · refine List.find?_eq_none.mpr fun d hd heq => hsource ?_
        have hselected := hrouted.selected.mem_iff.mp (List.mem_map_of_mem hd)
        rw [of_decide_eq_true heq] at hselected
        obtain ⟨b, hb, hpair⟩ := List.mem_map.mp hselected
        exact List.mem_map.mpr ⟨b, hb, congrArg Prod.fst hpair⟩
      · rfl
    rw [Image.step, hnone]

end Reaches

/-- The image of the timer's program whose event is deferred. -/
def deferredImage : Image Unit := ⟨[⟨"timer1_ovf", (), .postFromIsr⟩], true⟩

/-- A `dispatch` call of the task that prepared the queue, and what it shows of one queued event. -/
def dispatchOnce : List (Signal Bool Unit) :=
  [.code (.dispatch true 2), .code (.advance true), .code (.advance true), .code (.advance true),
    .code (.finish true), .code (.advance true), .code (.advance true)]

def dispatchedOnce : List (Event.Label Bool Unit) :=
  [.called true 0 2, .entered true 0, .removed true 0 ⟨some (), some ()⟩, .invoked true 0 (),
    .resumed true 0, .drained true 0, .returned true 0 1]

theorem completed_dispatchedOnce (before : List (Event.Label Bool Unit)) :
    Event.Completed before dispatchedOnce ⟨true, 0, 2⟩ :=
  ⟨[.called true 0 2, .entered true 0, .removed true 0 ⟨some (), some ()⟩, .invoked true 0 (),
    .resumed true 0, .drained true 0], 1, [], rfl, by simp, by simp⟩

theorem noStop_dispatchedOnce : Event.NoStop dispatchedOnce := by simp [Event.NoStop, dispatchedOnce]

theorem serves_deferred : Serves Event.twoNotified deferredUnit deferredBoard where
  capacity := by
    intro queue hqueue
    cases hqueue
    rfl
  elide _ _ := rfl
  stream _ h := by cases h

/-- The queue is prepared and the timer's interrupt fires: the event is queued, and handled by a
`dispatch` that returns. -/
theorem interrupt_reaches_handler_timer :
    finalPass (readPlan (fun _ => "") (jsonBytes : Value Empty → _) deferredPlan) deferredUnit deferredBoard
        timer.application = some deferredImage.dispatches ∧
      (deferredImage.step (deferredImage.after Event.twoNotified none [.code (.prepare true)]).1
        (.interrupt "timer1_ovf")).2 = some (.queue (.posted none () .queued)) ∧
      () ∈ Event.invocations dispatchedOnce := by
  obtain ⟨events, -, hreaches, -⟩ := interrupt_reaches_handler Empty (fun _ => "") (generatedPlan_deferred _)
    finalPass_deferred serves_deferred none [.code (.prepare true)] (.inl rfl)
  obtain ⟨source, handling, hselected, h⟩ := hreaches () (by decide) (by decide)
  obtain rfl : .postFromIsr = handling := Option.some.inj h.declared
  obtain rfl : source = "timer1_ovf" :=
    Utf8.bytes_injective (Prod.mk.inj (List.mem_singleton.mp hselected)).1
  obtain ⟨r, s', hstep, -, -, -, hhandled⟩ := h.posted rfl
  have hqueued : (deferredImage.step (deferredImage.after Event.twoNotified none [.code (.prepare true)]).1
      (.interrupt "timer1_ovf")).2 = some (.queue (.posted none () .queued)) := by
    decide +kernel
  obtain rfl : .queued = r := by
    have hsame := hqueued.symm.trans (congrArg Prod.snd hstep)
    cases hsame
    rfl
  have hhistory : (deferredImage.after Event.twoNotified none
      ([.code (.prepare true)] ++ .interrupt "timer1_ovf" :: dispatchOnce)).2 =
      (deferredImage.after Event.twoNotified none [.code (.prepare true)]).2 ++
        .queue (.posted none () .queued) :: dispatchedOnce.map Shown.queue := by
    decide +kernel
  exact ⟨finalPass_deferred, hqueued, hhandled (.inl rfl) dispatchOnce _ hhistory
    noStop_dispatchedOnce [⟨true, 0, 2⟩] (List.nodup_singleton 0)
    (List.forall_mem_singleton.mpr (completed_dispatchedOnce _)) (Nat.le_refl 2)⟩

end Grevir.Irqgen
