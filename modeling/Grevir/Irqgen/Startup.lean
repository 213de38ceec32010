import Grevir.Interrupt.StartCode
import Grevir.Interrupt.StartPolicy
import Grevir.Irqgen.Firmware

/-!
# Irqgen — Startup

`Application::start` in a running image.  A task calls it under `SingleThreadStartPolicy`; between two
calls of its body the tasks run, its own hooks included, and interrupts fire.

* `Stage`: the body has not begun, is somewhere in its code, or has returned.
* `exists_signals`: whatever the start does, what is shown of the image is a run of the image.
* `Opened`, `Closed`: the queue since the start's own `prepare`, and since its own `stop`.
* `start_brings_up`: what a start that succeeds, and one that fails, leaves.
-/

namespace Grevir.Irqgen

open Interrupt Json Dialogue

variable {Task Token Owner E : Type}

/-! ### The start of an image -/

/-- A running image with the members of its start policy and what is left of the start's body. -/
structure Startup (B : Event.Board Task Token Owner E) where
  running : Running B
  policy : SingleThreadStartPolicy
  body : Option (Code StartCall Bool StartResult)

/-- What can happen: something in the image, a call of `Application::start`, and the next call that the
body makes, or its return.  A hook answers whether it succeeded. -/
inductive Happening (Task E : Type) where
  | image (a : Signal Task E)
  | start
  | next (succeeded : Bool) (guards : String → UInt8) (install : String → Bool)

inductive Noted (Task E : Type) where
  | image (x : Shown Task E)
  | called (c : StartCall) (answer : Bool)
  | returned (r : StartResult)
  | replayed (r : StartResult)
  deriving DecidableEq

/-- What the image shows of a call the body makes. -/
def shownOf (t : Task) (b : Bool) : StartCall → Option (Shown Task E)
  | .prepare => some (.queue (.prepared t b))
  | .stop => some (.queue (.stopped t))
  | .hook .installBindings => some (.installed b)
  | .hook _ => none

/-- What is shown of the image. -/
def imageOf (t : Task) (h : List (Noted Task E)) : List (Shown Task E) :=
  h.filterMap fun
    | .image x => some x
    | .called c b => shownOf t b c
    | _ => none

/-- The calls the body made, with their answers. -/
def asked (h : List (Noted Task E)) : List (StartCall × Bool) :=
  h.filterMap fun
    | .called c b => some (c, b)
    | _ => none

/-- What the body returned. -/
def returns (h : List (Noted Task E)) : List StartResult :=
  h.filterMap fun
    | .returned r => some r
    | _ => none

section Image

variable [DecidableEq Task] [DecidableEq E] (image : Image E) (selected : Bool) (t : Task)
  {B : Event.Board Task Token Owner E}

/-- A call the body makes from the task `t`: its answer and what it does. -/
def Image.call (s : Running B) (succeeded : Bool) (guards : String → UInt8) (install : String → Bool) :
    StartCall → Bool × Running B
  | .prepare =>
      ((s.system.queue.prepare (B.context.currentToken t)).1, (image.step s (.code (.prepare t))).1)
  | .stop => (true, (image.step s (.code (.stop t))).1)
  | .hook .installBindings =>
      ((installBindings guards install (image.dispatches.map (·.source))).1,
        (image.step s (.installBindings guards install)).1)
  | .hook _ => (succeeded, s)

/-- A step.  The body goes on only while the code of `t` runs. -/
def Startup.step (s : Startup B) : Happening Task E → Startup B × Option (Noted Task E)
  | .image a =>
      let r := image.step s.running a
      ({ s with running := r.1 }, r.2.map .image)
  | .start =>
      if s.policy.started then (s, some (.replayed s.policy.replay))
      else ({ s with policy := { s.policy with started := true }, body := some (startCode selected) }, none)
  | .next succeeded guards install => match s.body with
      | none => (s, none)
      | some (.done r) =>
          ({ s with policy := { s.policy with result := r }, body := none }, some (.returned r))
      | some (.call c next) =>
          if s.running.system.userCode t then
            let r := image.call t s.running succeeded guards install c
            ({ s with running := r.2, body := some (next r.1) }, some (.called c r.1))
          else (s, none)

/-- The image and its start, as a machine. -/
def startMachine (B : Event.Board Task Token Owner E) :
    Runs.Machine (Startup B) (Happening Task E) (Noted Task E) where
  step := Startup.step image selected t

/-- The state and the history of a schedule that starts before `main` does. -/
def started (B : Event.Board Task Token Owner E) (owner : Owner) (as : List (Happening Task E)) :
    Startup B × List (Noted Task E) :=
  (startMachine image selected t B).run ⟨⟨Event.System.initial B owner, []⟩, {}, none⟩ as

/-! ### What a step can do -/

variable {image selected t}

/-- What a step does. -/
inductive StartStep (image : Image E) (selected : Bool) (t : Task) (s : Startup B) :
    Startup B → Option (Noted Task E) → Prop where
  | idle : StartStep image selected t s s none
  | image (a : Signal Task E) :
      StartStep image selected t s { s with running := (image.step s.running a).1 }
        ((image.step s.running a).2.map .image)
  | replay (r : StartResult) : StartStep image selected t s s (some (.replayed r))
  | begin (hs : s.policy.started = false) :
      StartStep image selected t s
        { s with policy := { s.policy with started := true }, body := some (startCode selected) } none
  | call (c : StartCall) (next : Bool → Code StartCall Bool StartResult) (b : Bool) (running : Running B)
      (hbody : s.body = some (.call c next))
      (hrunning : (running = s.running ∧ shownOf (E := E) t b c = none) ∨
        ∃ a, image.step s.running a = (running, shownOf t b c)) :
      StartStep image selected t s { s with running := running, body := some (next b) }
        (some (.called c b))
  | finish (r : StartResult) (hbody : s.body = some (.done r)) :
      StartStep image selected t s { s with policy := { s.policy with result := r }, body := none }
        (some (.returned r))

/-- A call of the body is nothing to the image, or a step of it. -/
theorem call_spec {s : Running B} (hu : s.system.userCode t = true) (succeeded : Bool)
    (guards : String → UInt8) (install : String → Bool) (c : StartCall) :
    let r := image.call t s succeeded guards install c
    (r.2 = s ∧ shownOf (E := E) t r.1 c = none) ∨ ∃ a, image.step s a = (r.2, shownOf t r.1 c) := by
  cases c with
  | prepare =>
      refine .inr ⟨.code (.prepare t), Prod.ext rfl ?_⟩
      simp only [Image.step, Event.System.step, if_pos hu]
      rfl
  | stop =>
      refine .inr ⟨.code (.stop t), Prod.ext rfl ?_⟩
      simp only [Image.step, Event.System.step, if_pos hu]
      rfl
  | hook h =>
      cases h with
      | installBindings => exact .inr ⟨.installBindings guards install, rfl⟩
      | _ => exact .inl ⟨rfl, rfl⟩

theorem startStep_spec (s : Startup B) (a : Happening Task E) :
    StartStep image selected t s (s.step image selected t a).1 (s.step image selected t a).2 := by
  cases a with
  | image a => exact .image a
  | start =>
      rw [Startup.step]
      split
      · exact .replay _
      · next hs => exact .begin (by simpa using hs)
  | next succeeded guards install =>
      rw [Startup.step]
      split
      · exact .idle
      · next r hbody => exact .finish r hbody
      · next c next hbody =>
        split
        · next hu => exact .call c next _ _ hbody (call_spec hu succeeded guards install c)
        · exact .idle

/-! ### What a run shows -/

omit [DecidableEq Task] [DecidableEq E] in
theorem imageOf_append (h h' : List (Noted Task E)) : imageOf t (h ++ h') = imageOf t h ++ imageOf t h' :=
  List.filterMap_append

omit [DecidableEq Task] [DecidableEq E] in
theorem imageOf_map (x : Option (Shown Task E)) : imageOf t (x.map Noted.image).toList = x.toList := by
  cases x with
  | none => rfl
  | some x => rfl

omit [DecidableEq Task] [DecidableEq E] in
theorem imageOf_called (c : StartCall) (b : Bool) :
    imageOf (E := E) t [.called c b] = (shownOf t b c).toList := by
  cases hshown : shownOf (E := E) t b c <;> simp [imageOf, hshown]

variable (image selected t) in
/-- **What is shown of the image is a run of the image**, whatever the start does. -/
theorem exists_signals (owner : Owner) (as : List (Happening Task E)) :
    ∃ bs, image.after B owner bs = ((started image selected t B owner as).1.running,
      imageOf t (started image selected t B owner as).2) := by
  refine (startMachine image selected t B).run_induct
    (P := fun s h => ∃ bs, image.after B owner bs = (s.running, imageOf t h)) ⟨[], rfl⟩
    (fun s h a ⟨bs, hbs⟩ => ?_) as
  have hstep : StartStep image selected t s ((startMachine image selected t B).step s a).1
    ((startMachine image selected t B).step s a).2 := startStep_spec s a
  generalize ((startMachine image selected t B).step s a).1 = s',
    ((startMachine image selected t B).step s a).2 = x at hstep
  have hsnoc : ∀ a, image.after B owner (bs ++ [a]) =
      ((image.step s.running a).1, imageOf t h ++ (image.step s.running a).2.toList) := by
    intro a
    refine (Runs.Machine.run_snoc _ _ _ _).trans ?_
    change ((image.step (image.after B owner bs).1 a).1,
      (image.after B owner bs).2 ++ (image.step (image.after B owner bs).1 a).2.toList) = _
    rw [hbs]
  rw [imageOf_append]
  cases hstep with
  | idle => exact ⟨bs, hbs.trans (Prod.ext rfl (List.append_nil _).symm)⟩
  | replay r => exact ⟨bs, hbs.trans (Prod.ext rfl (List.append_nil _).symm)⟩
  | begin hs => exact ⟨bs, hbs.trans (Prod.ext rfl (List.append_nil _).symm)⟩
  | finish r hbody => exact ⟨bs, hbs.trans (Prod.ext rfl (List.append_nil _).symm)⟩
  | image a => exact ⟨bs ++ [a], by rw [hsnoc, imageOf_map]⟩
  | call c next b running hbody hrunning =>
      rw [Option.toList_some, imageOf_called]
      rcases hrunning with ⟨rfl, hnone⟩ | ⟨a, ha⟩
      · rw [hnone]
        exact ⟨bs, hbs.trans (Prod.ext rfl (List.append_nil _).symm)⟩
      · exact ⟨bs ++ [a], by rw [hsnoc, ha]⟩

/-- How far the start is. -/
inductive Stage (selected : Bool) (s : Startup B) (h : List (Noted Task E)) : Prop where
  | before (hs : s.policy.started = false) (hbody : s.body = none) (ha : asked h = [])
      (hr : returns h = [])
  | running (code : Code StartCall Bool StartResult) (hs : s.policy.started = true)
      (hbody : s.body = some code) (ha : Asked (startCode selected) (asked h) code) (hr : returns h = [])
  | finished (r : StartResult) (hs : s.policy.started = true) (hbody : s.body = none)
      (ha : Asked (startCode selected) (asked h) (.done r)) (hr : returns h = [r])

variable (image selected t) in
/-- **The body is run once.** -/
theorem stage (owner : Owner) (as : List (Happening Task E)) :
    Stage selected (started image selected t B owner as).1 (started image selected t B owner as).2 := by
  refine (startMachine image selected t B).run_induct (P := Stage selected) (.before rfl rfl rfl rfl)
    (fun s h a ih => ?_) as
  have hstep : StartStep image selected t s ((startMachine image selected t B).step s a).1
    ((startMachine image selected t B).step s a).2 := startStep_spec s a
  generalize ((startMachine image selected t B).step s a).1 = s',
    ((startMachine image selected t B).step s a).2 = x at hstep
  have hasked : ∀ l, asked (h ++ l) = asked h ++ asked l := fun _ => List.filterMap_append
  have hreturns : ∀ l, returns (h ++ l) = returns h ++ returns l := fun _ => List.filterMap_append
  -- a step that neither calls nor returns
  have hquiet : ∀ {s' : Startup B} {x : Option (Noted Task E)}, s'.policy.started = s.policy.started →
      s'.body = s.body → asked x.toList = [] → returns x.toList = [] → Stage selected s' (h ++ x.toList) := by
    intro s' x hstarted hsame ha hr
    have ha' : asked (h ++ x.toList) = asked h := by rw [hasked, ha, List.append_nil]
    have hr' : returns (h ++ x.toList) = returns h := by rw [hreturns, hr, List.append_nil]
    cases ih with
    | before hs hbody hasked hreturned =>
        exact .before (hstarted.trans hs) (hsame.trans hbody) (ha'.trans hasked) (hr'.trans hreturned)
    | running code hs hbody hasked hreturned =>
        exact .running code (hstarted.trans hs) (hsame.trans hbody) (ha'.symm ▸ hasked) (hr'.trans hreturned)
    | finished r hs hbody hasked hreturned =>
        exact .finished r (hstarted.trans hs) (hsame.trans hbody) (ha'.symm ▸ hasked) (hr'.trans hreturned)
  cases hstep with
  | idle => exact hquiet rfl rfl rfl rfl
  | replay r => exact hquiet rfl rfl rfl rfl
  | image a =>
      refine hquiet rfl rfl ?_ ?_
      · cases (image.step s.running a).2 <;> rfl
      · cases (image.step s.running a).2 <;> rfl
  | begin hs =>
      cases ih with
      | before _ _ ha hr =>
          refine .running (startCode selected) rfl rfl ?_ ?_
          · rw [Option.toList_none, List.append_nil, ha]
            exact .nil _
          · rwa [Option.toList_none, List.append_nil]
      | running _ hs' => exact absurd (hs.symm.trans hs') Bool.false_ne_true
      | finished _ hs' => exact absurd (hs.symm.trans hs') Bool.false_ne_true
  | call c next b running hbody hrunning =>
      cases ih with
      | before _ hnone => exact absurd (hnone.symm.trans hbody) (by simp)
      | finished _ _ hnone => exact absurd (hnone.symm.trans hbody) (by simp)
      | running code hs hcode ha hr =>
          obtain rfl := Option.some.inj (hcode.symm.trans hbody)
          refine .running (next b) hs rfl ?_ ?_
          · rw [hasked]
            exact ha.snoc b
          · rw [hreturns, hr]
            rfl
  | finish r hbody =>
      cases ih with
      | before _ hnone => exact absurd (hnone.symm.trans hbody) (by simp)
      | finished _ _ hnone => exact absurd (hnone.symm.trans hbody) (by simp)
      | running code hs hcode ha hr =>
          obtain rfl := Option.some.inj (hcode.symm.trans hbody)
          refine .finished r hs rfl ?_ ?_
          · rw [hasked]
            exact (List.append_nil (asked h)).symm ▸ ha
          · rw [hreturns, hr]
            rfl

/-! ### What a start leaves -/

omit [DecidableEq Task] [DecidableEq E] in
theorem mem_asked {h : List (Noted Task E)} {c : StartCall} {b : Bool} :
    (c, b) ∈ asked h ↔ .called c b ∈ h := by
  rw [asked, List.mem_filterMap]
  constructor
  · rintro ⟨x, hx, heq⟩
    cases x <;> cases heq
    exact hx
  · exact fun hmem => ⟨_, hmem, rfl⟩

/-- **What a start that has returned has called.** -/
theorem ended {owner : Owner} {as : List (Happening Task E)} {r : StartResult}
    (h : .returned r ∈ (started image selected t B owner as).2) :
    Ended selected (asked (started image selected t B owner as).2) r := by
  have hmem : r ∈ returns (started image selected t B owner as).2 :=
    List.mem_filterMap.mpr ⟨_, h, rfl⟩
  cases stage image selected t owner as with
  | before _ _ _ hr => rw [hr] at hmem; cases hmem
  | running _ _ _ _ hr => rw [hr] at hmem; cases hmem
  | finished r' _ _ ha hr =>
      rw [hr] at hmem
      obtain rfl := List.mem_singleton.mp hmem
      exact startCode_ends ha

omit [DecidableEq Task] [DecidableEq E] in
/-- What the body called of the image is shown of it. -/
theorem mem_imageOf {h : List (Noted Task E)} {c : StartCall} {b : Bool} {x : Shown Task E}
    (hcalled : .called c b ∈ h) (hshown : shownOf t b c = some x) : x ∈ imageOf t h :=
  List.mem_filterMap.mpr ⟨_, hcalled, hshown⟩

/-- The start prepared the queue, which is ready unless it was stopped since. -/
structure Opened (t : Task) (h : List (Noted Task E)) (q : Event.Queue B) : Prop where
  prepared : .called .prepare true ∈ h
  ready : ∀ before since, h = before ++ .called .prepare true :: since →
    Event.NoStop (queueOf (imageOf t since)) → q.ready = true

/-- The start stopped the queue that it had prepared, which is down unless it was prepared since.  From the
stop to the next `prepare` no post is taken, and at most the one event that was already removed is
handled. -/
structure Closed (t : Task) (h : List (Noted Task E)) (q : Event.Queue B) : Prop where
  stopped : ∃ b, .called .stop b ∈ h
  prepared : ∀ before b since, h = before ++ .called .stop b :: since → .called .prepare true ∈ before
  down : ∀ before b since, h = before ++ .called .stop b :: since →
    Event.NoPrepare (queueOf (imageOf t since)) → q.ready = false
  quiet : ∀ before b since rest, h = before ++ .called .stop b :: (since ++ rest) →
    Event.NoPrepare (queueOf (imageOf t since)) → Event.queuedPosts (queueOf (imageOf t since)) = [] ∧
      (Event.invocations (queueOf (imageOf t since))).length ≤ 1

section Leaves

variable {owner : Owner} {as : List (Happening Task E)}

variable (image selected t owner as) in
/-- What is shown of the queue is a run of the queue. -/
theorem exists_queue_schedule : ∃ cs, Event.System.after B owner cs =
    ((started image selected t B owner as).1.running.system,
      queueOf (imageOf t (started image selected t B owner as).2)) := by
  obtain ⟨bs, hbs⟩ := exists_signals (B := B) image selected t owner as
  obtain ⟨cs, hcs⟩ := exists_schedule (B := B) image owner bs
  exact ⟨cs, by rw [hcs, hbs]⟩

variable (image selected t owner as) in
/-- The history of the queue, against the queue. -/
theorem exists_accounts :
    ∃ m o, Event.Tracks (started image selected t B owner as).1.running.system m o ∧
      Event.Accounts B (queueOf (imageOf t (started image selected t B owner as).2)) m o := by
  obtain ⟨cs, hcs⟩ := exists_queue_schedule (B := B) image selected t owner as
  obtain ⟨m, o, ht, ha⟩ := Event.accounts (B := B) owner cs
  rw [hcs] at ht ha
  exact ⟨m, o, ht, ha⟩

omit [DecidableEq Task] [DecidableEq E] in
/-- What is shown of the queue where the body called `stop`. -/
theorem shown_stop {h before since : List (Noted Task E)} {b : Bool}
    (hsplit : h = before ++ .called .stop b :: since) :
    queueOf (imageOf t h) = queueOf (imageOf t before) ++ .stopped t :: queueOf (imageOf t since) := by
  rw [hsplit, imageOf_append, queueOf_append]
  rfl

theorem opened (h : .called .prepare true ∈ (started image selected t B owner as).2) :
    Opened t (started image selected t B owner as).2
      (started image selected t B owner as).1.running.system.queue where
  prepared := h
  ready := by
    intro before since hsplit hsince
    obtain ⟨m, o, ht, ha⟩ := exists_accounts (B := B) image selected t owner as
    have hshown : queueOf (imageOf t (started image selected t B owner as).2) =
        queueOf (imageOf t before) ++ .prepared t true :: queueOf (imageOf t since) := by
      rw [hsplit, imageOf_append, queueOf_append]
      rfl
    exact ht.represents.ready_eq.trans (ha.session _ t _ hshown hsince).1

theorem closed {r : StartResult} (hended : Ended selected (asked (started image selected t B owner as).2) r)
    (hfailure : r.outcome ≠ .success)
    (hprepared : .called .prepare true ∈ (started image selected t B owner as).2) :
    Closed t (started image selected t B owner as).2
      (started image selected t B owner as).1.running.system.queue where
  stopped := by
    obtain ⟨b, hb⟩ := hended.stopped.mpr ⟨hfailure, mem_asked.mpr hprepared⟩
    exact ⟨b, mem_asked.mp hb⟩
  prepared := by
    intro before b since hsplit
    have hasked : asked (started image selected t B owner as).2 = asked before ++ (.stop, b) :: asked since := by
      rw [hsplit]
      exact List.filterMap_append
    exact mem_asked.mp (hended.after _ b _ hasked)
  down := by
    intro before b since hsplit hsince
    obtain ⟨m, o, ht, ha⟩ := exists_accounts (B := B) image selected t owner as
    exact ht.represents.ready_eq.trans (ha.stopped _ t _ (shown_stop hsplit) hsince).1
  quiet := by
    intro before b since rest hsplit hsince
    obtain ⟨cs, hcs⟩ := exists_queue_schedule (B := B) image selected t owner as
    have hshown : (Event.System.after B owner cs).2 = queueOf (imageOf t before) ++
        .stopped t :: (queueOf (imageOf t since) ++ queueOf (imageOf t rest)) := by
      rw [hcs, shown_stop hsplit, imageOf_append, queueOf_append]
    exact Event.quiet_since_stop hshown hsince

end Leaves

end Image

section Outputs

variable [DecidableEq Task] [DecidableEq E] {m : Nat} (F : Type) [PyFloat F] [FloatText F]
  (sha256 : List UInt8 → String)

/-- **A start brings the program up or leaves it down**, whatever the tasks and the interrupts do
meanwhile.  In an image of a unit that compiles with the outputs of a plan, a start that has returned
has enabled the interrupts exactly if it succeeded.  Then the source of each handled event leads to its
handler, and the queue is prepared for those that are posted.  If it failed, the queue it had prepared is
stopped. -/
theorem start_brings_up {u : TranslationUnit E} {board : AllocatingBoard E m} {name : Text}
    {record : List UInt8} {plan : Plan} (hplan : generatedPlan F sha256 record = .ok plan)
    {ds : List (Dispatch E)} (hfinal : finalPass plan u board name = some ds)
    {B : Event.Board Task Token Owner E} (hB : Serves B u board) (owner : Owner) (t : Task)
    (as : List (Happening Task E)) {r : StartResult}
    (hreturned : .returned r ∈ (started (Image.ofPlan plan ds) (recordedDemands plan).deferredSelected t
      B owner as).2) :
    let s := (started (Image.ofPlan plan ds) (recordedDemands plan).deferredSelected t B owner as).1
    let h := (started (Image.ofPlan plan ds) (recordedDemands plan).deferredSelected t B owner as).2
    (r.outcome = .success ↔ ∃ b, .called (.hook .enableOwned) b ∈ h) ∧
    (r.outcome = .success → ∃ events bs, u.compile .probe = some events ∧
      (Image.ofPlan plan ds).after B owner bs = (s.running, imageOf t h) ∧
      ∀ e ∈ u.events, u.handles e → ∃ source handling,
        (literal source, u.key e) ∈ (board.selected u events).held.map (fun b => (b.source, b.event)) ∧
          Reaches (Image.ofPlan plan ds) B owner bs u source e handling plan.content.capacity ∧
          (handling = .postFromIsr → Opened t h s.running.system.queue)) ∧
    (r.outcome ≠ .success → .called .prepare true ∈ h →
      Closed t h s.running.system.queue) := by
  obtain ⟨p, -, -, hvalid, rfl⟩ := (generatedPlan_eq_ok F sha256 .bits32).mp hplan
  obtain ⟨bound, rs, events, hpass⟩ := finalPass_eq_some.mp hfinal
  intro s h
  have hended := ended hreturned
  refine ⟨hended.enabled.trans (exists_congr fun b => mem_asked), fun hsuccess => ?_,
    fun hfailure hprepared => ?_⟩
  · obtain ⟨hprobe, -⟩ := hpass.routed hvalid
    obtain ⟨bs, hbs⟩ : ∃ bs, (Image.ofPlan (readPlan sha256 (jsonBytes : Value F → _) p) ds).after B owner bs =
        (s.running, imageOf t h) := exists_signals _ _ t owner as
    refine ⟨events, bs, hprobe, hbs, fun e he hhandles => ?_⟩
    have hinstalled : .installed true ∈
        ((Image.ofPlan (readPlan sha256 (jsonBytes : Value F → _) p) ds).after B owner bs).2 := by
      rw [hbs]
      exact mem_imageOf (mem_asked.mp (hended.installed hsuccess)) rfl
    obtain ⟨source, handling, hselected, hreaches⟩ := hpass.reaches hvalid hB rfl (.inr hinstalled) he hhandles
    refine ⟨source, handling, hselected, hreaches, fun hhandling => opened (mem_asked.mp ?_)⟩
    obtain ⟨d, hd, hcontext⟩ := hpass.recorded_deferred hvalid he (hhandling ▸ hreaches.declared)
    exact hended.prepared hsuccess (List.any_eq_true.mpr ⟨d, hd, decide_eq_true hcontext⟩)
  · exact closed hended hfailure hprepared

end Outputs

/-! ### The timer's start -/

/-- A start of the timer's program whose event is deferred.  The timer's interrupt fires once the queue is
prepared; the hook `configure` answers as is said, and all others succeed. -/
def interruptedStart (configured : Bool) : List (Happening Bool Unit) :=
  let next (succeeded : Bool) : Happening Bool Unit := .next succeeded (fun _ => 0) fun _ => true
  [.start, next true, next true, .image (.interrupt "timer1_ovf"), next configured, next true, next true,
    next true, next true, next true]

def timerStarted (configured : Bool) : Startup Event.twoNotified × List (Noted Bool Unit) :=
  let plan := readPlan (fun _ => "") (jsonBytes : Value Empty → _) deferredPlan
  started (Image.ofPlan plan deferredImage.dispatches) (recordedDemands plan).deferredSelected true
    Event.twoNotified none (interruptedStart configured)

/-- The post is taken in both; the queue is ready after the start that succeeds, and not after the one
that fails. -/
theorem start_brings_up_timer :
    (∀ configured, .image (.queue (.posted none () .queued)) ∈ (timerStarted configured).2) ∧
      (.returned {} ∈ (timerStarted true).2 ∧
        (∃ b, .called (.hook .enableOwned) b ∈ (timerStarted true).2) ∧
        (timerStarted true).1.running.system.queue.ready = true) ∧
      .returned ⟨.configurationFailed, .configurationFailed, .initiated⟩ ∈ (timerStarted false).2 ∧
        (¬ ∃ b, .called (.hook .enableOwned) b ∈ (timerStarted false).2) ∧
        (timerStarted false).1.running.system.queue.ready = false := by
  have hup : .returned {} ∈ (timerStarted true).2 := by decide +kernel
  have hdown : .returned ⟨.configurationFailed, .configurationFailed, .initiated⟩ ∈ (timerStarted false).2 := by
    decide +kernel
  obtain ⟨henabled, hsucceeds, -⟩ := start_brings_up Empty (fun _ => "") (generatedPlan_deferred _)
    finalPass_deferred serves_deferred none true (interruptedStart true) hup
  obtain ⟨hdisabled, -, hfails⟩ := start_brings_up Empty (fun _ => "") (generatedPlan_deferred _)
    finalPass_deferred serves_deferred none true (interruptedStart false) hdown
  obtain ⟨events, bs, -, -, hreaches⟩ := hsucceeds rfl
  obtain ⟨source, handling, -, hreach, hopened⟩ := hreaches () (by decide) (by decide)
  obtain rfl : .postFromIsr = handling := Option.some.inj hreach.declared
  have hready : (timerStarted true).1.running.system.queue.ready = true := by
    refine (hopened rfl).ready ((timerStarted true).2.take 1) ((timerStarted true).2.drop 2) ?_ ?_
    · show (timerStarted true).2 = _
      decide +kernel
    · show ∀ t : Bool, _ ∉ _
      decide +kernel
  have hclosed := hfails (by decide) (by decide +kernel)
  have hstopped : (timerStarted false).1.running.system.queue.ready = false := by
    refine hclosed.down ((timerStarted false).2.take 5) true ((timerStarted false).2.drop 6) ?_ ?_
    · show (timerStarted false).2 = _
      decide +kernel
    · show ∀ t : Bool, _ ∉ _
      decide +kernel
  exact ⟨by decide +kernel, ⟨hup, henabled.mp rfl, hready⟩, hdown, fun h => absurd (hdisabled.mpr h) (by decide),
    hstopped⟩

end Grevir.Irqgen
