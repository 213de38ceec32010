import Grevir.Support.Runs
import Grevir.Event.Mailbox

/-!
# Event — Tasks

Any number of tasks and interrupt handlers over one queue.  A task is the stack of its `dispatch`
calls, innermost first; its own code runs when the stack is empty or the innermost call is inside a
callback, and there it may call any operation.  Between two actions of one task any other task may
act and any interrupt may post: only the sections are atomic.

Each `dispatch` call carries a number no other call has, so that a history can tell calls apart.
The numbers are for statements only; no section reads one.

* `System.step` runs one action.  An action the state does not allow does nothing.
* `Step` lists what a step can do, one constructor a case, and `step_cases` says it is all.
-/

namespace Grevir.Event

/-- Where a `dispatch` call stands between its sections. -/
inductive Point (Event : Type) where
  /-- called, before the first section -/
  | enter
  /-- before the section of the loop -/
  | loop
  /-- `record` is removed, and the callback has not started -/
  | invoke (record : DispatchRecord Event)
  /-- inside `record.invoke(record.argument)` -/
  | callback
  /-- the loop is over, before the last section -/
  | leave
  deriving DecidableEq

/-- One `dispatch` call: its number, its argument, its local `handled`, and where it stands. -/
structure Activation (Event : Type) where
  call : Nat
  budget : Nat
  handled : Nat
  point : Point Event
  deriving DecidableEq

/-- The call is between setting and clearing `dispatching_`. -/
def Activation.inProgress {Event : Type} (a : Activation Event) : Bool :=
  match a.point with
  | .enter => false
  | _ => true

/-- The test of the loop, `handled < budget`. -/
def Activation.next {Event : Type} (a : Activation Event) : Point Event :=
  if a.handled < a.budget then .loop else .leave

/-- What a step shows.  A post by an interrupt handler names no task. -/
inductive Label (Task Event : Type) where
  | prepared (t : Task) (ok : Bool)
  | stopped (t : Task)
  | posted (t : Option Task) (e : Event) (r : PostResult)
  | overrunRead (t : Task) (b : Bool)
  | overrunCleared (t : Task)
  | called (t : Task) (call budget : Nat)
  | entered (t : Task) (call : Nat)
  | removed (t : Task) (call : Nat) (record : DispatchRecord Event)
  | invoked (t : Task) (call : Nat) (e : Event)
  | invokedNull (t : Task) (call : Nat)
  | resumed (t : Task) (call : Nat)
  | drained (t : Task) (call : Nat)
  | returned (t : Task) (call handled : Nat)
  deriving DecidableEq

/-- What a schedule chooses: a call by a task's own code, a post by an interrupt handler, the next
section of a task's innermost `dispatch`, or the return of the callback a task runs. -/
inductive Action (Task Event : Type) where
  | prepare (t : Task)
  | stop (t : Task)
  | post (t : Task) (e : Event)
  | postFromIsr (e : Event)
  | overrun (t : Task)
  | clearOverrun (t : Task)
  | dispatch (t : Task) (budget : Nat)
  | advance (t : Task)
  | finish (t : Task)

variable {Task Token Owner Event : Type}

structure System (B : Board Task Token Owner Event) where
  queue : Queue B
  frames : Task → List (Activation Event)
  calls : Nat

namespace System

variable {B : Board Task Token Owner Event}

/-- Before `main` starts: no call is open. -/
def initial (B : Board Task Token Owner Event) (owner : Owner) : System B where
  queue := Queue.initial B owner
  frames _ := []
  calls := 0

/-- The code of `t` that is not `dispatch` itself runs: its own, or a callback's. -/
def userCode (s : System B) (t : Task) : Bool :=
  match s.frames t with
  | [] => true
  | a :: _ => match a.point with
    | .callback => true
    | _ => false

variable [DecidableEq Task] [DecidableEq Event]

/-- The stack of `t`, replaced. -/
def setFrames (s : System B) (t : Task) (stack : List (Activation Event)) : System B :=
  { s with frames := Function.update s.frames t stack }

/-- The next section of the innermost call `a` of `t`, over the calls below it. -/
def advance (s : System B) (t : Task) (a : Activation Event) (below : List (Activation Event)) :
    System B × Option (Label Task Event) :=
  match a.point with
  | .enter =>
      if a.budget = 0 then (s.setFrames t below, some (.returned t a.call 0))
      else match s.queue.dispatchEnter (B.context.currentToken t) with
        | none => (s.setFrames t below, some (.returned t a.call 0))
        | some q => ({ s.setFrames t ({ a with point := a.next } :: below) with queue := q },
            some (.entered t a.call))
  | .loop => match s.queue.dispatchRemove with
      | none => (s.setFrames t ({ a with point := .leave } :: below), some (.drained t a.call))
      | some (record, q) =>
          ({ s.setFrames t ({ a with point := .invoke record } :: below) with queue := q },
            some (.removed t a.call record))
  | .invoke record => match record.invoke with
      | some e => (s.setFrames t ({ a with point := .callback } :: below),
          some (.invoked t a.call e))
      | none => (s, some (.invokedNull t a.call))
  | .callback => (s, none)
  | .leave => ({ s.setFrames t below with queue := s.queue.dispatchLeave },
      some (.returned t a.call a.handled))

/-- The callback of the innermost call `a` of `t` returns. -/
def finish (s : System B) (t : Task) (a : Activation Event) (below : List (Activation Event)) :
    System B × Option (Label Task Event) :=
  match a.point with
  | .callback =>
      let a := { a with handled := a.handled + 1 }
      (s.setFrames t ({ a with point := a.next } :: below), some (.resumed t a.call))
  | _ => (s, none)

def step (s : System B) : Action Task Event → System B × Option (Label Task Event)
  | .prepare t =>
      if s.userCode t then
        let r := s.queue.prepare (B.context.currentToken t)
        ({ s with queue := r.2 }, some (.prepared t r.1))
      else (s, none)
  | .stop t =>
      if s.userCode t then ({ s with queue := s.queue.stop }, some (.stopped t)) else (s, none)
  | .post t e =>
      if s.userCode t then
        let r := s.queue.postWithGuard e
        ({ s with queue := r.2 }, some (.posted (some t) e r.1))
      else (s, none)
  | .postFromIsr e =>
      let r := s.queue.postWithGuard e
      ({ s with queue := r.2 }, some (.posted none e r.1))
  | .overrun t =>
      if s.userCode t then (s, some (.overrunRead t s.queue.overrun)) else (s, none)
  | .clearOverrun t =>
      if s.userCode t then ({ s with queue := s.queue.clearOverrun }, some (.overrunCleared t))
      else (s, none)
  | .dispatch t budget =>
      if s.userCode t then
        ({ s.setFrames t (⟨s.calls, budget, 0, .enter⟩ :: s.frames t) with calls := s.calls + 1 },
          some (.called t s.calls budget))
      else (s, none)
  | .advance t => match s.frames t with
      | [] => (s, none)
      | a :: below => s.advance t a below
  | .finish t => match s.frames t with
      | [] => (s, none)
      | a :: below => s.finish t a below

/-- The tasks, the interrupt handlers and the queue, as a machine. -/
def machine (B : Board Task Token Owner Event) :
    Runs.Machine (System B) (Action Task Event) (Label Task Event) where
  step := step

/-- The state and the history of a schedule that starts before `main` does. -/
abbrev after (B : Board Task Token Owner Event) (owner : Owner)
    (as : List (Action Task Event)) : System B × List (Label Task Event) :=
  (machine B).run (initial B owner) as

/-! ### What a step can do -/

/-- What a step shows and does. -/
inductive Step (s : System B) : Label Task Event → System B → Prop where
  | prepare (t : Task) (hu : s.userCode t = true) :
      Step s (.prepared t (s.queue.prepare (B.context.currentToken t)).1)
        { s with queue := (s.queue.prepare (B.context.currentToken t)).2 }
  | stop (t : Task) (hu : s.userCode t = true) :
      Step s (.stopped t) { s with queue := s.queue.stop }
  | post (t : Option Task) (e : Event) :
      Step s (.posted t e (s.queue.postWithGuard e).1)
        { s with queue := (s.queue.postWithGuard e).2 }
  | overrun (t : Task) : Step s (.overrunRead t s.queue.overrun) s
  | clearOverrun (t : Task) :
      Step s (.overrunCleared t) { s with queue := s.queue.clearOverrun }
  | dispatch (t : Task) (budget : Nat) (hu : s.userCode t = true) :
      Step s (.called t s.calls budget)
        { s.setFrames t (⟨s.calls, budget, 0, .enter⟩ :: s.frames t) with calls := s.calls + 1 }
  | refuse (t : Task) (a : Activation Event) (below : List (Activation Event))
      (hs : s.frames t = a :: below) (ha : a.point = .enter)
      (hr : a.budget = 0 ∨ s.queue.dispatchEnter (B.context.currentToken t) = none) :
      Step s (.returned t a.call 0) (s.setFrames t below)
  | enter (t : Task) (a : Activation Event) (below : List (Activation Event)) (q : Queue B)
      (hs : s.frames t = a :: below) (ha : a.point = .enter) (hb : a.budget ≠ 0)
      (hq : s.queue.dispatchEnter (B.context.currentToken t) = some q) :
      Step s (.entered t a.call)
        { s.setFrames t ({ a with point := a.next } :: below) with queue := q }
  | drain (t : Task) (a : Activation Event) (below : List (Activation Event))
      (hs : s.frames t = a :: below) (ha : a.point = .loop) (hq : s.queue.dispatchRemove = none) :
      Step s (.drained t a.call) (s.setFrames t ({ a with point := .leave } :: below))
  | remove (t : Task) (a : Activation Event) (below : List (Activation Event))
      (record : DispatchRecord Event) (q : Queue B) (hs : s.frames t = a :: below)
      (ha : a.point = .loop) (hq : s.queue.dispatchRemove = some (record, q)) :
      Step s (.removed t a.call record)
        { s.setFrames t ({ a with point := .invoke record } :: below) with queue := q }
  | invoke (t : Task) (a : Activation Event) (below : List (Activation Event))
      (record : DispatchRecord Event) (e : Event) (hs : s.frames t = a :: below)
      (ha : a.point = .invoke record) (he : record.invoke = some e) :
      Step s (.invoked t a.call e) (s.setFrames t ({ a with point := .callback } :: below))
  | invokeNull (t : Task) (a : Activation Event) (below : List (Activation Event))
      (record : DispatchRecord Event) (hs : s.frames t = a :: below)
      (ha : a.point = .invoke record) (he : record.invoke = none) :
      Step s (.invokedNull t a.call) s
  | resume (t : Task) (a : Activation Event) (below : List (Activation Event))
      (hs : s.frames t = a :: below) (ha : a.point = .callback) :
      Step s (.resumed t a.call)
        (s.setFrames t
          (⟨a.call, a.budget, a.handled + 1,
            if a.handled + 1 < a.budget then .loop else .leave⟩ :: below))
  | leave (t : Task) (a : Activation Event) (below : List (Activation Event))
      (hs : s.frames t = a :: below) (ha : a.point = .leave) :
      Step s (.returned t a.call a.handled)
        { s.setFrames t below with queue := s.queue.dispatchLeave }

theorem advance_cases (s : System B) (t : Task) {a : Activation Event}
    {below : List (Activation Event)} (hs : s.frames t = a :: below) :
    s.advance t a below = (s, none) ∨
      ∃ x s', s.advance t a below = (s', some x) ∧ Step s x s' := by
  unfold advance
  cases ha : a.point with
  | enter =>
      by_cases hb : a.budget = 0
      · exact .inr ⟨_, _, if_pos hb, .refuse t a below hs ha (.inl hb)⟩
      · simp only [hb, if_false]
        cases hq : s.queue.dispatchEnter (B.context.currentToken t) with
        | none => exact .inr ⟨_, _, rfl, .refuse t a below hs ha (.inr hq)⟩
        | some q => exact .inr ⟨_, _, rfl, .enter t a below q hs ha hb hq⟩
  | loop =>
      cases hq : s.queue.dispatchRemove with
      | none => exact .inr ⟨_, _, rfl, .drain t a below hs ha hq⟩
      | some p => exact .inr ⟨_, _, rfl, .remove t a below p.1 p.2 hs ha hq⟩
  | invoke record =>
      cases he : record.invoke with
      | none => exact .inr ⟨_, _, by simp [he], .invokeNull t a below record hs ha he⟩
      | some e => exact .inr ⟨_, _, by simp [he], .invoke t a below record e hs ha he⟩
  | callback => exact .inl rfl
  | leave => exact .inr ⟨_, _, rfl, .leave t a below hs ha⟩

/-- **A step does nothing, or is one of `Step`.** -/
theorem step_cases (s : System B) (c : Action Task Event) :
    s.step c = (s, none) ∨ ∃ x s', s.step c = (s', some x) ∧ Step s x s' := by
  cases c with
  | prepare t =>
      by_cases hu : s.userCode t = true
      · exact .inr ⟨_, _, if_pos hu, .prepare t hu⟩
      · exact .inl (if_neg hu)
  | stop t =>
      by_cases hu : s.userCode t = true
      · exact .inr ⟨_, _, if_pos hu, .stop t hu⟩
      · exact .inl (if_neg hu)
  | post t e =>
      by_cases hu : s.userCode t = true
      · exact .inr ⟨_, _, if_pos hu, .post (some t) e⟩
      · exact .inl (if_neg hu)
  | postFromIsr e => exact .inr ⟨_, _, rfl, .post none e⟩
  | overrun t =>
      by_cases hu : s.userCode t = true
      · exact .inr ⟨_, _, if_pos hu, .overrun t⟩
      · exact .inl (if_neg hu)
  | clearOverrun t =>
      by_cases hu : s.userCode t = true
      · exact .inr ⟨_, _, if_pos hu, .clearOverrun t⟩
      · exact .inl (if_neg hu)
  | dispatch t budget =>
      by_cases hu : s.userCode t = true
      · exact .inr ⟨_, _, if_pos hu, .dispatch t budget hu⟩
      · exact .inl (if_neg hu)
  | advance t =>
      cases hs : s.frames t with
      | nil => left; simp [step, hs]
      | cons a below => simpa [step, hs] using s.advance_cases t hs
  | finish t =>
      cases hs : s.frames t with
      | nil => left; simp [step, hs]
      | cons a below =>
          cases ha : a.point with
          | callback =>
              exact .inr ⟨_, _, by simp [step, hs, finish, ha]; rfl, .resume t a below hs ha⟩
          | _ => left; simp [step, hs, finish, ha]

end System

end Grevir.Event
