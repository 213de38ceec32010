import Grevir.Event.Ownership

/-!
# Event — Desk

The tasks over the mailbox itself.  A `Desk` has the tasks' `dispatch` calls, as `System` has, and a
`Mailbox` in the place of the queue: no ring, no index type, no flags.

* `Matches.step`: a step of the tasks over the queue and the same step over the mailbox show the same.
* `queue_refines_mailbox`: nobody can tell the queue from the mailbox, in any interleaving.
* `target_unobservable`: nor one target's queue from another's.
-/

namespace Grevir.Event

variable {Task Token Owner Event : Type}

structure Desk (Task Owner Event : Type) where
  mailbox : Mailbox Owner Event
  frames : Task → List (Activation Event)
  calls : Nat

namespace Desk

/-- Before `main` starts. -/
def initial (owner : Owner) : Desk Task Owner Event where
  mailbox := ⟨[], false, false, false, owner⟩
  frames _ := []
  calls := 0

/-- The code of `t` that is not `dispatch` itself runs. -/
def userCode (d : Desk Task Owner Event) (t : Task) : Bool :=
  match d.frames t with
  | [] => true
  | a :: _ => match a.point with
    | .callback => true
    | _ => false

variable [DecidableEq Task] [DecidableEq Event] (B : Board Task Token Owner Event)

/-- The stack of `t`, replaced. -/
def setFrames (d : Desk Task Owner Event) (t : Task) (stack : List (Activation Event)) :
    Desk Task Owner Event :=
  { d with frames := Function.update d.frames t stack }

/-- The next part of the innermost call `a` of `t`, over the calls below it. -/
def advance (d : Desk Task Owner Event) (t : Task) (a : Activation Event)
    (below : List (Activation Event)) : Desk Task Owner Event × Option (Label Task Event) :=
  match a.point with
  | .enter =>
      if a.budget = 0 then (d.setFrames t below, some (.returned t a.call 0))
      else match d.mailbox.enter B (B.context.currentToken t) with
        | none => (d.setFrames t below, some (.returned t a.call 0))
        | some m => ({ d.setFrames t ({ a with point := a.next } :: below) with mailbox := m },
            some (.entered t a.call))
  | .loop => match d.mailbox.remove with
      | none => (d.setFrames t ({ a with point := .leave } :: below), some (.drained t a.call))
      | some (e, m) =>
          ({ d.setFrames t ({ a with point := .invoke (B.recordFor e) } :: below) with mailbox := m },
            some (.removed t a.call (B.recordFor e)))
  | .invoke record => match record.invoke with
      | some e => (d.setFrames t ({ a with point := .callback } :: below),
          some (.invoked t a.call e))
      | none => (d, some (.invokedNull t a.call))
  | .callback => (d, none)
  | .leave => ({ d.setFrames t below with mailbox := d.mailbox.leave },
      some (.returned t a.call a.handled))

/-- The callback of the innermost call `a` of `t` returns. -/
def finish (d : Desk Task Owner Event) (t : Task) (a : Activation Event)
    (below : List (Activation Event)) : Desk Task Owner Event × Option (Label Task Event) :=
  match a.point with
  | .callback =>
      let a := { a with handled := a.handled + 1 }
      (d.setFrames t ({ a with point := a.next } :: below), some (.resumed t a.call))
  | _ => (d, none)

def step (d : Desk Task Owner Event) :
    Action Task Event → Desk Task Owner Event × Option (Label Task Event)
  | .prepare t =>
      if d.userCode t then
        let r := d.mailbox.prepare B (B.context.currentToken t)
        ({ d with mailbox := r.2 }, some (.prepared t r.1))
      else (d, none)
  | .stop t =>
      if d.userCode t then ({ d with mailbox := d.mailbox.stop }, some (.stopped t)) else (d, none)
  | .post t e =>
      if d.userCode t then
        let r := d.mailbox.post B e
        ({ d with mailbox := r.2 }, some (.posted (some t) e r.1))
      else (d, none)
  | .postFromIsr e =>
      let r := d.mailbox.post B e
      ({ d with mailbox := r.2 }, some (.posted none e r.1))
  | .overrun t =>
      if d.userCode t then (d, some (.overrunRead t d.mailbox.overrun)) else (d, none)
  | .clearOverrun t =>
      if d.userCode t then ({ d with mailbox := d.mailbox.clearOverrun }, some (.overrunCleared t))
      else (d, none)
  | .dispatch t budget =>
      if d.userCode t then
        ({ d.setFrames t (⟨d.calls, budget, 0, .enter⟩ :: d.frames t) with calls := d.calls + 1 },
          some (.called t d.calls budget))
      else (d, none)
  | .advance t => match d.frames t with
      | [] => (d, none)
      | a :: below => d.advance B t a below
  | .finish t => match d.frames t with
      | [] => (d, none)
      | a :: below => d.finish t a below

/-- The tasks, the interrupt handlers and the mailbox, as a machine. -/
def machine : Runs.Machine (Desk Task Owner Event) (Action Task Event) (Label Task Event) where
  step := step B

/-- The state and the history of a schedule that starts before `main` does. -/
def after (owner : Owner) (as : List (Action Task Event)) :
    Desk Task Owner Event × List (Label Task Event) :=
  (machine B).run (initial owner) as

end Desk

/-! ### The queue and the mailbox -/

variable {B : Board Task Token Owner Event}

/-- The same calls, over a queue and over the mailbox it represents. -/
structure Matches [DecidableEq Event] (s : System B) (d : Desk Task Owner Event) : Prop where
  represents : Represents s.queue d.mailbox
  frames : s.frames = d.frames
  calls : s.calls = d.calls

namespace Matches

variable [DecidableEq Event] {s : System B} {d : Desk Task Owner Event}

theorem userCode (h : Matches s d) (t : Task) : s.userCode t = d.userCode t := by
  rewrite [System.userCode, Desk.userCode, h.frames]
  rfl

/-- A step that leaves the calls alone. -/
theorem queue_step (h : Matches s d) {q : Queue B} {m : Mailbox Owner Event} (hq : Represents q m) :
    Matches { s with queue := q } { d with mailbox := m } :=
  { h with represents := hq }

variable [DecidableEq Task]

/-- A step that replaces the stack of one task. -/
theorem setFrames (h : Matches s d) (t : Task) (stack : List (Activation Event)) :
    Matches (s.setFrames t stack) (d.setFrames t stack) where
  represents := h.represents
  frames := by
    show Function.update s.frames t stack = Function.update d.frames t stack
    rw [h.frames]
  calls := h.calls

/-- The innermost call takes the same part over the queue and over the mailbox. -/
theorem advance (h : Matches s d) (t : Task) (a : Activation Event) (below : List (Activation Event)) :
    (s.advance t a below).2 = (d.advance B t a below).2 ∧
      Matches (s.advance t a below).1 (d.advance B t a below).1 := by
  unfold System.advance Desk.advance
  cases a.point with
  | enter =>
      by_cases hb : a.budget = 0
      · simp only [hb, if_true]
        exact ⟨trivial, h.setFrames t below⟩
      · simp only [hb, if_false]
        cases hq : s.queue.dispatchEnter (B.context.currentToken t) with
        | none =>
            rw [h.represents.enter_refused hq]
            exact ⟨rfl, h.setFrames t below⟩
        | some q =>
            obtain ⟨m, hm, hqm⟩ := h.represents.enter hq
            rw [hm]
            exact ⟨rfl, (h.setFrames t _).queue_step hqm⟩
  | loop =>
      cases hq : s.queue.dispatchRemove with
      | none =>
          rw [h.represents.remove_none hq]
          exact ⟨rfl, h.setFrames t _⟩
      | some p =>
          obtain ⟨record, q⟩ := p
          obtain ⟨e, m, rfl, hm, hqm⟩ := h.represents.remove hq
          rw [hm]
          exact ⟨rfl, (h.setFrames t _).queue_step hqm⟩
  | invoke record =>
      cases he : record.invoke with
      | none =>
          simp only [he]
          exact ⟨trivial, h⟩
      | some e =>
          simp only [he]
          exact ⟨trivial, h.setFrames t _⟩
  | callback => exact ⟨rfl, h⟩
  | leave => exact ⟨rfl, (h.setFrames t below).queue_step h.represents.leave⟩

theorem finish (h : Matches s d) (t : Task) (a : Activation Event) (below : List (Activation Event)) :
    (s.finish t a below).2 = (d.finish t a below).2 ∧
      Matches (s.finish t a below).1 (d.finish t a below).1 := by
  unfold System.finish Desk.finish
  cases a.point with
  | callback => exact ⟨rfl, h.setFrames t _⟩
  | enter | loop | invoke record | leave => exact ⟨rfl, h⟩

/-- **A step over the queue and the same step over the mailbox show the same.** -/
theorem step (h : Matches s d) (c : Action Task Event) :
    (s.step c).2 = (d.step B c).2 ∧ Matches (s.step c).1 (d.step B c).1 := by
  cases c with
  | prepare t =>
      obtain ⟨hok, hq⟩ := h.represents.prepare (B.context.currentToken t)
      simp only [System.step, Desk.step, h.userCode t, hok]
      split
      · exact ⟨rfl, h.queue_step hq⟩
      · exact ⟨rfl, h⟩
  | stop t =>
      simp only [System.step, Desk.step, h.userCode t]
      split
      · exact ⟨rfl, h.queue_step h.represents.stop⟩
      · exact ⟨rfl, h⟩
  | post t e =>
      obtain ⟨hr, hq⟩ := h.represents.post e
      simp only [System.step, Desk.step, h.userCode t, hr]
      split
      · exact ⟨rfl, h.queue_step hq⟩
      · exact ⟨rfl, h⟩
  | postFromIsr e =>
      obtain ⟨hr, hq⟩ := h.represents.post e
      simp only [System.step, Desk.step, hr]
      exact ⟨trivial, h.queue_step hq⟩
  | overrun t =>
      simp only [System.step, Desk.step, h.userCode t, h.represents.overrun_eq]
      split
      · exact ⟨rfl, h⟩
      · exact ⟨rfl, h⟩
  | clearOverrun t =>
      simp only [System.step, Desk.step, h.userCode t]
      split
      · exact ⟨rfl, h.queue_step h.represents.clearOverrun⟩
      · exact ⟨rfl, h⟩
  | dispatch t budget =>
      simp only [System.step, Desk.step, h.userCode t, h.calls, h.frames]
      split
      · exact ⟨rfl, { h.setFrames t _ with calls := rfl }⟩
      · exact ⟨rfl, h⟩
  | advance t =>
      simp only [System.step, Desk.step, h.frames]
      cases d.frames t with
      | nil => exact ⟨rfl, h⟩
      | cons a below => exact h.advance t a below
  | finish t =>
      simp only [System.step, Desk.step, h.frames]
      cases d.frames t with
      | nil => exact ⟨rfl, h⟩
      | cons a below => exact h.finish t a below

end Matches

/-! ### Whole runs -/

variable [DecidableEq Task] [DecidableEq Event]

/-- After every schedule the queue represents the mailbox, and the histories are the same. -/
theorem desk_matches (B : Board Task Token Owner Event) (owner : Owner) (as : List (Action Task Event)) :
    (System.after B owner as).2 = (Desk.after B owner as).2 ∧
      Matches (System.after B owner as).1 (Desk.after B owner as).1 :=
  (System.machine B).run_matches ⟨.initial owner, rfl, rfl⟩ (fun _ _ c h => h.step c) as

/-- **Nobody can tell the queue from a mailbox**: every schedule of the tasks and the interrupt handlers
shows the same over either. -/
theorem queue_refines_mailbox (B : Board Task Token Owner Event) (owner : Owner)
    (as : List (Action Task Event)) : (System.after B owner as).2 = (Desk.after B owner as).2 :=
  (desk_matches B owner as).1

/-- **Nobody can tell the target**: with the same capacity, context and routes, every schedule shows the
same whatever the width of `int` is.  The index type is the one that the capacity selects, on every
target the same. -/
theorem target_unobservable (B B' : Board Task Token Owner Event)
    (hcapacity : B.eventQueueCapacity = B'.eventQueueCapacity) (hcontext : B.context = B'.context)
    (hdelivery : B.delivery = B'.delivery) (owner : Owner) (as : List (Action Task Event)) :
    (System.after B owner as).2 = (System.after B' owner as).2 := by
  rw [(desk_matches B owner as).1, (desk_matches B' owner as).1]
  obtain ⟨capacity, _, context, delivery, _, _⟩ := B
  obtain ⟨capacity', _, context', delivery', _, _⟩ := B'
  cases hcapacity
  cases hcontext
  cases hdelivery
  rfl

/-- The board on a target with another `int`. -/
def Board.onTarget (B : Board Task Token Owner Event) (bits : Nat) (h : bits = 16 ∨ bits = 32) :
    Board Task Token Owner Event :=
  { B with intBits := bits, intBits_eq := h }

theorem target_unobservable_twoTasks :
    let as := [.prepare true, .post false (), .post false (), .dispatch true 1, .advance true]
    (System.after twoTasks none as).2 = (System.after (twoTasks.onTarget 32 (.inr rfl)) none as).2 :=
  target_unobservable twoTasks (twoTasks.onTarget 32 (.inr rfl)) rfl rfl rfl none _

end Grevir.Event
