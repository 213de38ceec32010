import Grevir.Event.Ownership
import Grevir.Event.Elide
import Mathlib.Algebra.BigOperators.Group.List.Basic
import Mathlib.Algebra.Order.BigOperators.Group.List
import Mathlib.Algebra.Order.Group.Nat

/-!
# Event — Delivery

What a task gets from `dispatch`, whatever the other tasks and the interrupt handlers do.

* `dispatch_wait_free`: a call takes a bounded number of sections and callbacks of its own, and its
  next one is never in its way.
* `backlog_started`: what was queued is handled once the calls that are let in since have budgets
  enough for it.
* `queued_event_delivered`: so an event that was queued is handled, after those before it.
* `coalesced_event_delivered`: and one whose post was elided is handled after the post.
-/

namespace Grevir.Event

variable {Task Token Owner Event : Type} [DecidableEq Task] [DecidableEq Event]
variable {B : Board Task Token Owner Event}

/-! ### The steps of a call -/

/-- How many labels of a history are of call `d`. -/
def labelsOf (d : Nat) (h : List (Label Task Event)) : Nat := h.countP fun x => x.call = some d

/-- How many labels a call shows until it stands where it does. -/
def Activation.spent (a : Activation Event) : Nat :=
  match a.point with
  | .enter => 1
  | .loop => 2 + 3 * a.handled
  | .invoke _ => 3 + 3 * a.handled
  | .callback => 4 + 3 * a.handled
  | .leave => if a.handled < a.budget then 3 + 3 * a.handled else 2 + 3 * a.handled

omit [DecidableEq Task] [DecidableEq Event] in
theorem labelsOf_snoc (d : Nat) (h : List (Label Task Event)) (x : Label Task Event) :
    labelsOf d (h ++ [x]) = labelsOf d h + if x.call = some d then 1 else 0 := by
  rw [labelsOf, List.countP_append, ← labelsOf]
  by_cases hx : x.call = some d
  · simp [hx]
  · simp [hx]

/-- What the calls of a history cost. -/
structure Bill (frames : Task → List (Activation Event)) (h : List (Label Task Event)) : Prop where
  spent : ∀ t, ∀ a ∈ frames t, labelsOf a.call h = a.spent
  bounded : ∀ t d b, .called t d b ∈ h → labelsOf d h ≤ 3 * b + 3

section Bill

variable {frames : Task → List (Activation Event)} {calls : Nat} {h : List (Label Task Event)}
variable {x : Label Task Event} {t : Task} {a : Activation Event}

omit [DecidableEq Task] [DecidableEq Event] in
theorem Bill.initial : Bill (fun _ => []) ([] : List (Label Task Event)) where
  spent t a ha := by cases ha
  bounded t d b hm := by cases hm

omit [DecidableEq Task] [DecidableEq Event] in
/-- A label of no call. -/
theorem Bill.quiet (hb : Bill frames h) (hx : x.call = none) : Bill frames (h ++ [x]) := by
  have hsame : ∀ d, labelsOf d (h ++ [x]) = labelsOf d h := by
    intro d
    rw [labelsOf_snoc, hx]
    rfl
  refine ⟨fun t a ha => (hsame _).trans (hb.spent t a ha), fun t d b hm => ?_⟩
  rw [hsame]
  rcases List.mem_append.mp hm with hm | hm
  · exact hb.bounded t d b hm
  · rw [← List.mem_singleton.mp hm] at hx
    cases hx

omit [DecidableEq Event] in
/-- A new call has shown that it was called. -/
theorem Bill.push (hb : Bill frames h) (hl : Ledger frames calls h) (t : Task) (budget : Nat) :
    Bill (Function.update frames t (⟨calls, budget, 0, .enter⟩ :: frames t))
      (h ++ [.called t calls budget]) := by
  have hnone : labelsOf calls h = 0 := by
    refine List.countP_eq_zero.mpr fun y hy => ?_
    intro hcall
    exact lt_irrefl _ (hl.known y hy calls (of_decide_eq_true hcall))
  have hother : ∀ d, d ≠ calls → labelsOf d (h ++ [.called t calls budget]) = labelsOf d h := by
    intro d hd
    rw [labelsOf_snoc, Label.call, if_neg fun e => hd (Option.some.inj e).symm, Nat.add_zero]
  have hnew : labelsOf calls (h ++ [.called t calls budget]) = 1 := by
    rw [labelsOf_snoc, hnone, Label.call, if_pos rfl]
  have hold : ∀ u, ∀ b ∈ frames u, labelsOf b.call (h ++ [.called t calls budget]) = b.spent :=
    fun u b hu => (hother _ (hl.entries u b hu).1.ne).trans (hb.spent u b hu)
  refine ⟨fun u b hu => ?_, fun u d b hm => ?_⟩
  · by_cases htu : u = t
    · subst htu
      rw [Function.update_self] at hu
      rcases List.mem_cons.mp hu with rfl | hu
      · exact hnew
      · exact hold u b hu
    · rw [Function.update_of_ne htu] at hu
      exact hold u b hu
  · by_cases hd : d = calls
    · subst hd
      rw [hnew]
      omega
    · rw [hother d hd]
      rcases List.mem_append.mp hm with hm | hm
      · exact hb.bounded u d b hm
      · cases List.mem_singleton.mp hm
        exact absurd rfl hd

omit [DecidableEq Event] in
/-- The innermost call shows one label more, and moves on or returns. -/
theorem Bill.top (hb : Bill frames h) (hl : Ledger frames calls h)
    {below F : List (Activation Event)} (hs : frames t = a :: below) (hx : x.call = some a.call)
    (hcalled : ∀ u b, x ≠ .called u a.call b) (hle : a.spent + 1 ≤ 3 * a.budget + 3)
    (hF : F = below ∨ ∃ a', F = a' :: below ∧ a'.call = a.call ∧ a'.spent = a.spent + 1) :
    Bill (Function.update frames t F) (h ++ [x]) := by
  have ha : a ∈ frames t := hs ▸ List.mem_cons_self
  have hmore : labelsOf a.call (h ++ [x]) = a.spent + 1 := by
    rw [labelsOf_snoc, if_pos hx, hb.spent t a ha]
  have hother : ∀ d, d ≠ a.call → labelsOf d (h ++ [x]) = labelsOf d h := by
    intro d hd
    rw [labelsOf_snoc, hx, if_neg fun e => hd (Option.some.inj e).symm, Nat.add_zero]
  have hstacked := hl.stacked t
  rw [hs, List.pairwise_cons] at hstacked
  have hbelow : ∀ b ∈ below, labelsOf b.call (h ++ [x]) = b.spent := fun b hm =>
    (hother _ (hstacked.1 b hm).ne).trans (hb.spent t b (hs ▸ List.mem_cons_of_mem _ hm))
  refine ⟨fun u b hu => ?_, fun u d b hm => ?_⟩
  · by_cases htu : u = t
    · subst htu
      rw [Function.update_self] at hu
      rcases hF with rfl | ⟨a', rfl, hcall, hspent⟩
      · exact hbelow b hu
      · rcases List.mem_cons.mp hu with rfl | hu
        · rw [hcall, hmore, hspent]
        · exact hbelow b hu
    · rw [Function.update_of_ne htu] at hu
      rw [hother _ fun e => htu (hl.one_stack u t b hu a ha e), hb.spent u b hu]
  · have hm' : .called u d b ∈ h := by
      rcases List.mem_append.mp hm with hm | hm
      · exact hm
      · rw [← List.mem_singleton.mp hm] at hx hcalled
        exact absurd (by rw [Option.some.inj hx]) (hcalled u b)
    by_cases hd : d = a.call
    · subst hd
      rw [hmore, (((hl.entries t a ha).2.called u b).mp hm').2]
      exact hle
    · rw [hother d hd]
      exact hb.bounded u d b hm'

/-- **A step keeps the bill.** -/
theorem Bill.step {s s' : System B} (hb : Bill s.frames h) (hl : Ledger s.frames s.calls h)
    (hs : s.Step x s') (hnull : ∀ t d, x ≠ .invokedNull t d) : Bill s'.frames (h ++ [x]) := by
  cases hs with
  | prepare t hu | stop t hu | post t e | overrun t | clearOverrun t => exact hb.quiet rfl
  | dispatch t budget hu => exact hb.push hl t budget
  | invokeNull t a below record hf ha he => exact absurd rfl (hnull t a.call)
  | refuse t a below hf ha hr =>
      have hspent : a.spent = 1 := by rw [Activation.spent, ha]
      exact hb.top hl hf rfl (by simp) (by omega) (.inl rfl)
  | enter t a below q hf ha hbudget hq =>
      obtain ⟨-, he⟩ := hl.entries t a (hf ▸ List.mem_cons_self)
      have hspent : a.spent = 1 := by rw [Activation.spent, ha]
      have hnext : a.next = .loop := by
        rw [Activation.next, he.unentered ha, if_pos (Nat.pos_of_ne_zero hbudget)]
      refine hb.top hl hf rfl (by simp) (by omega) (.inr ⟨_, rfl, rfl, ?_⟩)
      rw [hspent, Activation.spent, hnext, he.unentered ha]
  | drain t a below hf ha hq =>
      obtain ⟨-, he⟩ := hl.entries t a (hf ▸ List.mem_cons_self)
      have hlt := he.running (by simp [Activation.inProgress, ha]) (by simp [ha])
      have hspent : a.spent = 2 + 3 * a.handled := by rw [Activation.spent, ha]
      refine hb.top hl hf rfl (by simp) (by omega) (.inr ⟨_, rfl, rfl, ?_⟩)
      rw [hspent, Activation.spent]
      dsimp only
      rw [if_pos hlt]
      omega
  | remove t a below record q hf ha hq =>
      obtain ⟨-, he⟩ := hl.entries t a (hf ▸ List.mem_cons_self)
      have hlt := he.running (by simp [Activation.inProgress, ha]) (by simp [ha])
      have hspent : a.spent = 2 + 3 * a.handled := by rw [Activation.spent, ha]
      refine hb.top hl hf rfl (by simp) (by omega) (.inr ⟨_, rfl, rfl, ?_⟩)
      rw [hspent, Activation.spent]
      dsimp only
      omega
  | invoke t a below record e hf ha hr =>
      obtain ⟨-, he⟩ := hl.entries t a (hf ▸ List.mem_cons_self)
      have hlt := he.running (by simp [Activation.inProgress, ha]) (by simp [ha])
      have hspent : a.spent = 3 + 3 * a.handled := by rw [Activation.spent, ha]
      refine hb.top hl hf rfl (by simp) (by omega) (.inr ⟨_, rfl, rfl, ?_⟩)
      rw [hspent, Activation.spent]
      dsimp only
      omega
  | resume t a below hf ha =>
      obtain ⟨-, he⟩ := hl.entries t a (hf ▸ List.mem_cons_self)
      have hlt := he.running (by simp [Activation.inProgress, ha]) (by simp [ha])
      have hspent : a.spent = 4 + 3 * a.handled := by rw [Activation.spent, ha]
      refine hb.top hl hf rfl (by simp) (by omega) (.inr ⟨_, rfl, rfl, ?_⟩)
      rw [hspent, Activation.spent]
      by_cases hn : a.handled + 1 < a.budget
      · rw [if_pos hn]
        dsimp only
        omega
      · rw [if_neg hn]
        dsimp only
        rw [if_neg hn]
        omega
  | leave t a below hf ha =>
      obtain ⟨-, he⟩ := hl.entries t a (hf ▸ List.mem_cons_self)
      have hhandled := he.handled_le
      refine hb.top hl hf rfl (by simp) ?_ (.inl rfl)
      rw [Activation.spent, ha]
      dsimp only
      split
      · omega
      · omega

end Bill

/-- A record that is removed is that of an event, so its handler is not null. -/
theorem not_invokedNull {s s' : System B} {m : Mailbox Owner Event}
    {o : Option (Task × Activation Event)} {h : List (Label Task Event)} (ht : Tracks s m o)
    (ha : Accounts B h m o) {x : Label Task Event} (hs : s.Step x s') (t : Task) (d : Nat) :
    x ≠ .invokedNull t d := by
  cases hs with
  | invokeNull u a below record hf har he =>
      have ho := ht.eq_of_inProgress (hf ▸ List.mem_cons_self)
        (show a.inProgress = true by simp [Activation.inProgress, har])
      obtain ⟨e, rfl, -⟩ := ha.in_flight ho har
      cases he
  | _ => simp

theorem bill (owner : Owner) (as : List (Action Task Event)) :
    Bill (System.after B owner as).1.frames (System.after B owner as).2 := by
  induction as using List.reverseRecOn with
  | nil => exact .initial
  | append_singleton as c ih =>
      obtain ⟨m, o, ht, ha⟩ := accounts (B := B) owner as
      rw [System.after, Runs.Machine.run_snoc]
      show Bill ((System.after B owner as).1.step c).1.frames
        ((System.after B owner as).2 ++ ((System.after B owner as).1.step c).2.toList)
      rcases (System.after B owner as).1.step_cases c with hn | ⟨x, s', hx, hs⟩
      · rw [hn]
        simpa using ih
      · rw [hx]
        exact ih.step (ledger owner as) hs (not_invokedNull ht ha hs)

/-- The innermost call of a task has a next step, whatever the queue holds. -/
theorem Tracks.next_step {s : System B} {m : Mailbox Owner Event}
    {o : Option (Task × Activation Event)} {h : List (Label Task Event)} (ht : Tracks s m o)
    (ha : Accounts B h m o) {t : Task} {a : Activation Event} {below : List (Activation Event)}
    (hf : s.frames t = a :: below) :
    ∃ x, x.call = some a.call ∧
      (a.point ≠ .callback ∧ (s.step (.advance t)).2 = some x ∨
        a.point = .callback ∧ (s.step (.finish t)).2 = some x) := by
  have hadvance : s.step (.advance t) = s.advance t a below := by simp only [System.step, hf]
  rw [hadvance, System.advance]
  cases hp : a.point with
  | enter =>
      by_cases hb : a.budget = 0
      · exact ⟨.returned t a.call 0, rfl, .inl ⟨by simp, by simp [hb]⟩⟩
      · cases hq : s.queue.dispatchEnter (B.context.currentToken t) with
        | none => exact ⟨.returned t a.call 0, rfl, .inl ⟨by simp, by simp [hb]⟩⟩
        | some q => exact ⟨.entered t a.call, rfl, .inl ⟨by simp, by simp [hb]⟩⟩
  | loop =>
      cases hq : s.queue.dispatchRemove with
      | none => exact ⟨.drained t a.call, rfl, .inl ⟨by simp, by simp⟩⟩
      | some r => exact ⟨.removed t a.call r.1, rfl, .inl ⟨by simp, by simp⟩⟩
  | invoke r =>
      have ho := ht.eq_of_inProgress (hf ▸ List.mem_cons_self)
        (show a.inProgress = true by simp [Activation.inProgress, hp])
      obtain ⟨e, rfl, -⟩ := ha.in_flight ho hp
      exact ⟨.invoked t a.call e, rfl, .inl ⟨by simp, rfl⟩⟩
  | callback =>
      exact ⟨.resumed t a.call, rfl, .inr ⟨rfl, by simp [System.step, hf, System.finish, hp]⟩⟩
  | leave => exact ⟨.returned t a.call a.handled, rfl, .inl ⟨by simp, rfl⟩⟩

/-- **`dispatch` is wait-free**: after every schedule a call has taken a bounded number of sections
and callbacks of its own, and one that has not returned has its next one. -/
theorem dispatch_wait_free (B : Board Task Token Owner Event) (owner : Owner)
    (as : List (Action Task Event)) :
    let s := (System.after B owner as).1
    let h := (System.after B owner as).2
    (∀ t d b, .called t d b ∈ h → labelsOf d h ≤ 3 * b + 3) ∧
    (∀ t a below, s.frames t = a :: below → ∃ x, x.call = some a.call ∧
      (a.point ≠ .callback ∧ (s.step (.advance t)).2 = some x ∨
        a.point = .callback ∧ (s.step (.finish t)).2 = some x)) := by
  obtain ⟨m, o, ht, ha⟩ := accounts (B := B) owner as
  exact ⟨(bill owner as).bounded, fun t a below hf => ht.next_step ha hf⟩

/-! ### What a call has handled -/

section History

variable {owner : Owner} {as : List (Action Task Event)} {h₁ l : List (Label Task Event)}

omit [DecidableEq Task] [DecidableEq Event] in
theorem startedBy_append (d : Nat) (h h' : List (Label Task Event)) :
    startedBy d (h ++ h') = startedBy d h + startedBy d h' := List.countP_append

/-- A label of a history was shown by a step. -/
theorem exists_step {x : Label Task Event} (e : (System.after B owner as).2 = h₁ ++ x :: l) :
    ∃ (as₁ : List (Action Task Event)) (s' : System B), (System.after B owner as₁).2 = h₁ ∧
      (System.after B owner as₁).1.Step x s' := by
  obtain ⟨as₁, c, hh, hc⟩ := (System.machine B).run_split e
  exact ⟨as₁, _, hh, System.step_some (Prod.ext rfl hc)⟩

/-- A history up to a label it shows is that of some schedule. -/
theorem exists_prefix {x : Label Task Event} (e : (System.after B owner as).2 = h₁ ++ x :: l) :
    ∃ as₁ : List (Action Task Event), (System.after B owner as₁).2 = h₁ ++ [x] :=
  (System.machine B).run_begins (e.trans (List.append_assoc h₁ [x] l).symm)

/-- A call that is let in has not been before, and has started nothing. -/
theorem entered_first {t : Task} {d : Nat}
    (e : (System.after B owner as).2 = h₁ ++ .entered t d :: l) :
    .entered t d ∉ h₁ ∧ startedBy d h₁ = 0 := by
  obtain ⟨as₁, s', rfl, hs⟩ := exists_step e
  generalize hx : Label.entered t d = x at hs
  cases hs with
  | enter u a below q hf ha hb hq =>
      obtain ⟨rfl, rfl⟩ := Label.entered.inj hx
      obtain ⟨-, he⟩ := (ledger owner as₁).entries t a (hf ▸ List.mem_cons_self)
      refine ⟨fun hm => ?_, ?_⟩
      · have hp := he.entered.mp hm
        simp [Activation.inProgress, ha] at hp
      · simp [he.started, he.unentered ha, Activation.inside, ha]
  | _ => cases hx

/-- A call that has drained the queue was let in before, and nothing is then left to start. -/
theorem drained_nothing {t : Task} {d : Nat}
    (e : (System.after B owner as).2 = h₁ ++ .drained t d :: l) :
    .entered t d ∈ h₁ ∧ ∃ m o, Accounts B h₁ m o ∧ inFlight o = [] ∧
      (m.ready = false ∨ m.waiting = []) := by
  obtain ⟨as₁, s', rfl, hs⟩ := exists_step e
  obtain ⟨m, o, ht, ha⟩ := accounts (B := B) owner as₁
  generalize hx : Label.drained t d = x at hs
  cases hs with
  | drain u a below hf hp hq =>
      obtain ⟨rfl, rfl⟩ := Label.drained.inj hx
      have hm := hf ▸ List.mem_cons_self
      have hin : a.inProgress = true := by simp [Activation.inProgress, hp]
      obtain ⟨-, he⟩ := (ledger owner as₁).entries t a hm
      refine ⟨he.entered.mpr hin, m, o, ha, ?_, Mailbox.remove_none.mp (ht.represents.remove_none hq)⟩
      rw [ht.eq_of_inProgress hm hin, inFlight_some, hp]
  | _ => cases hx

/-- A call that was let in, and that found nothing left, or did not get so far, has started as many
callbacks as its budget is. -/
theorem returned_budget {t : Task} {d n b : Nat}
    (e : (System.after B owner as).2 = h₁ ++ .returned t d n :: l) (hcalled : .called t d b ∈ h₁)
    (hentered : .entered t d ∈ h₁) : .drained t d ∈ h₁ ∨ startedBy d h₁ = b := by
  obtain ⟨as₁, s', rfl, hs⟩ := exists_step e
  obtain ⟨hstarted, b', hb', hle, hdrained⟩ := (ledger owner as₁).returned hs
  obtain ⟨-, rfl⟩ := (hb' t b).mp hcalled
  rcases Nat.lt_or_ge n b with hlt | hge
  · exact .inl ((hdrained hentered).2 hlt)
  · exact .inr (hstarted.trans (Nat.le_antisymm hle hge))

end History

/-! ### Several calls -/

omit [DecidableEq Task] [DecidableEq Event] in
theorem length_invocations_cons (x : Label Task Event) (h : List (Label Task Event)) :
    (invocations (x :: h)).length = (invocations [x]).length + (invocations h).length := by
  rw [← List.singleton_append, invocations_append, List.length_append]

omit [DecidableEq Task] [DecidableEq Event] in
/-- A callback is started by one call only. -/
theorem sum_startedBy_single {calls : List Nat} (hcalls : calls.Nodup) (x : Label Task Event) :
    (calls.map fun d => startedBy d [x]).sum ≤ (invocations [x]).length := by
  induction calls with
  | nil => exact Nat.zero_le _
  | cons d calls ih =>
      obtain ⟨hd, hcalls⟩ := List.nodup_cons.mp hcalls
      rw [List.map_cons, List.sum_cons]
      by_cases hx : ∃ t e, x = .invoked t d e
      · obtain ⟨t, e, rfl⟩ := hx
        have hrest : (calls.map fun d' => startedBy d' [.invoked t d e]).sum = 0 := by
          refine List.sum_eq_zero fun n hn => ?_
          obtain ⟨d', hd', rfl⟩ := List.mem_map.mp hn
          refine startedBy_single fun u e' heq => hd ?_
          cases heq
          exact hd'
        rw [hrest]
        simp [startedBy, invocations]
      · rw [startedBy_single fun t e heq => hx ⟨t, e, heq⟩, Nat.zero_add]
        exact ih hcalls

omit [DecidableEq Task] [DecidableEq Event] in
/-- What some calls have started is no more than all that was started. -/
theorem sum_startedBy_le {calls : List Nat} (hcalls : calls.Nodup) (h : List (Label Task Event)) :
    (calls.map fun d => startedBy d h).sum ≤ (invocations h).length := by
  induction h with
  | nil => simp [startedBy]
  | cons x h ih =>
      have hsplit : (calls.map fun d => startedBy d (x :: h)).sum =
          (calls.map fun d => startedBy d [x]).sum + (calls.map fun d => startedBy d h).sum := by
        rw [← List.sum_map_add]
        exact congrArg List.sum (List.map_congr_left fun d _ => startedBy_append d [x] h)
      rw [hsplit, length_invocations_cons]
      exact Nat.add_le_add (sum_startedBy_single hcalls x) ih

/-- A `dispatch` call: its task, its number and its budget. -/
structure DispatchCall (Task : Type) where
  task : Task
  call : Nat
  budget : Nat

/-- **The call was let in and has returned since**: `before` is the history until then, `l` what has
been shown since. -/
def Completed (before l : List (Label Task Event)) (c : DispatchCall Task) : Prop :=
  ∃ l₁ n l₂, l = l₁ ++ .returned c.task c.call n :: l₂ ∧
    .called c.task c.call c.budget ∈ before ++ l₁ ∧ .entered c.task c.call ∈ l₁

/-- A call that is let in and returns has used its budget, or has found nothing left. -/
theorem Completed.served {owner : Owner} {as : List (Action Task Event)}
    {before l : List (Label Task Event)} {c : DispatchCall Task} (hc : Completed before l c)
    (e : (System.after B owner as).2 = before ++ l) :
    .drained c.task c.call ∈ l ∨ c.budget ≤ startedBy c.call l := by
  obtain ⟨l₁, n, l₂, rfl, hcalled, hentered⟩ := hc
  obtain ⟨z₁, z₂, rfl⟩ := List.append_of_mem hentered
  have hin : (System.after B owner as).2 = (before ++ z₁) ++ .entered c.task c.call ::
      (z₂ ++ .returned c.task c.call n :: l₂) := by rw [e]; simp
  have hout : (System.after B owner as).2 = (before ++ (z₁ ++ .entered c.task c.call :: z₂)) ++
      .returned c.task c.call n :: l₂ := by rw [e]; simp
  have hfirst := entered_first hin
  rcases returned_budget hout hcalled (List.mem_append_right _ hentered) with hdrained | hstarted
  · rcases List.mem_append.mp hdrained with hbefore | hl
    · -- it was let in before it found nothing left, so not before `l`
      obtain ⟨x, y, rfl⟩ := List.append_of_mem hbefore
      rw [List.append_assoc, List.cons_append] at e
      have hentered' := (drained_nothing e).1
      exact absurd (List.mem_append_left _ (List.mem_append_left _ hentered')) hfirst.1
    · exact .inl (List.mem_append_left _ hl)
  · have hnone := hfirst.2
    rw [startedBy_append] at hnone hstarted
    rw [startedBy_append]
    omega

/-! ### An event that was queued -/

omit [DecidableEq Task] [DecidableEq Event] in
/-- In a session the callbacks are started for what was queued first. -/
theorem Accounts.invocations_prefix {m : Mailbox Owner Event} {o : Option (Task × Activation Event)}
    {h h₁ l : List (Label Task Event)} {t : Task} (ha : Accounts B h m o)
    (e : h = h₁ ++ .prepared t true :: l) (hl : NoStop l) :
    invocations l <+: queuedPosts l ∧
      (queuedPosts l).length = (invocations l).length + (inFlight o).length + m.waiting.length := by
  obtain ⟨-, hqueued, hremoved⟩ := ha.session h₁ t l e hl
  rw [hremoved] at hqueued
  refine ⟨(List.prefix_map_iff_of_injective (Board.recordFor_injective (B := B))).mp ?_, ?_⟩
  · exact ⟨inFlight o ++ m.waiting.map B.recordFor, by rw [hqueued, List.append_assoc]⟩
  · have hlength := congrArg List.length hqueued
    simpa [Nat.add_assoc] using hlength

omit [DecidableEq Task] in
/-- A post that is queued found room. -/
theorem Effect.room {m m' : Mailbox Owner Event} {o o' : Option (Task × Activation Event)}
    {p : Option Task} {e : Event} (he : Effect B m o (.posted p e .queued) m' o') :
    m.waiting.length ≠ B.capacity := by
  generalize hx : Label.posted p e .queued = x at he
  cases he with
  | post p' e' =>
      obtain ⟨-, -, hr⟩ := Label.posted.inj hx
      unfold Mailbox.post at hr
      split_ifs at hr with h₁ h₂ h₃
      exact h₃
  | _ => cases hx

/-- **What was queued is handled**, in order, once the calls that were let in since and have returned
have budgets that add up to what of it had not been started. -/
theorem backlog_started {owner : Owner} {as : List (Action Task Event)}
    {h₀ l₁ l : List (Label Task Event)} {u : Task} (hhistory : (System.after B owner as).2 =
      h₀ ++ .prepared u true :: (l₁ ++ l)) (hnostop : NoStop (l₁ ++ l)) {calls : List (DispatchCall Task)}
    (hcalls : (calls.map (·.call)).Nodup)
    (hcompleted : ∀ c ∈ calls, Completed (h₀ ++ .prepared u true :: l₁) l c)
    (hbudget : (queuedPosts l₁).length ≤ (invocations l₁).length + (calls.map (·.budget)).sum) :
    queuedPosts l₁ <+: invocations (l₁ ++ l) := by
  obtain ⟨m, o, -, ha⟩ := accounts (B := B) owner as
  obtain ⟨hlead, -⟩ := ha.invocations_prefix hhistory hnostop
  refine List.prefix_of_prefix_length_le ⟨queuedPosts l, (queuedPosts_append l₁ l).symm⟩ hlead ?_
  rw [invocations_append, List.length_append]
  by_cases hdrained : ∃ t d, .drained t d ∈ l
  · -- a call found nothing left, so all that was queued had been started
    obtain ⟨t, d, hmem⟩ := hdrained
    obtain ⟨z₁, z₂, rfl⟩ := List.append_of_mem hmem
    have hz₁ : NoStop (l₁ ++ z₁) := by
      intro v hv
      refine hnostop v ?_
      rw [← List.append_assoc]
      exact List.mem_append_left _ hv
    have hdrain : (System.after B owner as).2 =
        (h₀ ++ .prepared u true :: (l₁ ++ z₁)) ++ .drained t d :: z₂ := by rw [hhistory]; simp
    obtain ⟨-, m₁, o₁, ha₁, hflight, hempty⟩ := drained_nothing hdrain
    have hwaiting : m₁.waiting = [] := by
      refine hempty.resolve_left fun hclosed => ?_
      rw [(ha₁.session _ _ _ rfl hz₁).1] at hclosed
      cases hclosed
    have hcount := (ha₁.invocations_prefix rfl hz₁).2
    rw [queuedPosts_append, invocations_append, hflight, hwaiting] at hcount
    simp only [List.length_append, List.length_nil, Nat.add_zero] at hcount
    rw [invocations_append, List.length_append]
    omega
  · have hserved : ∀ c ∈ calls, c.budget ≤ startedBy c.call l := by
      intro c hc
      have hparts : (System.after B owner as).2 = (h₀ ++ .prepared u true :: l₁) ++ l := by
        rw [hhistory]; simp
      exact ((hcompleted c hc).served hparts).resolve_left fun hmem => hdrained ⟨_, _, hmem⟩
    have hsum : (calls.map (·.budget)).sum ≤ (invocations l).length := by
      refine (List.sum_le_sum hserved).trans ?_
      have hle := sum_startedBy_le hcalls l
      rwa [List.map_map] at hle
    omega

/-- **An event that was queued is handled** once the calls that were let in since and have returned
have budgets that add up to what was queued until then and not yet started: never more than the
capacity and one. -/
theorem queued_event_delivered (B : Board Task Token Owner Event) (owner : Owner)
    (as : List (Action Task Event)) {h₀ l₀ l : List (Label Task Event)} {u : Task} {p : Option Task}
    {e : Event} (hhistory : (System.after B owner as).2 =
      h₀ ++ .prepared u true :: (l₀ ++ .posted p e .queued :: l)) (hl₀ : NoStop l₀) (hl : NoStop l) :
    (queuedPosts l₀).length + 1 ≤ (invocations l₀).length + (B.capacity + 1) ∧
    ∀ calls : List (DispatchCall Task), (calls.map (·.call)).Nodup →
      (∀ c ∈ calls, Completed (h₀ ++ .prepared u true :: (l₀ ++ [.posted p e .queued])) l c) →
      (queuedPosts l₀).length + 1 ≤ (invocations l₀).length + (calls.map (·.budget)).sum →
      queuedPosts l₀ ++ [e] <+: invocations (l₀ ++ .posted p e .queued :: l) := by
  have hqueued : queuedPosts (l₀ ++ [.posted p e .queued]) = queuedPosts l₀ ++ [e] := queuedPosts_append _ _
  have hinvoked : invocations (l₀ ++ [.posted p e .queued]) = invocations l₀ :=
    (invocations_append _ _).trans (List.append_nil _)
  refine ⟨?_, fun calls hcalls hcompleted hbudget => ?_⟩
  · have hpost : (System.after B owner as).2 =
        (h₀ ++ .prepared u true :: l₀) ++ .posted p e .queued :: l := by rw [hhistory]; simp
    obtain ⟨as₁, s', hh, hs⟩ := exists_step hpost
    obtain ⟨m, o, ht, ha⟩ := accounts (B := B) owner as₁
    obtain ⟨m', o', he, -⟩ := ht.step hs
    have hcount := (ha.invocations_prefix hh hl₀).2
    have hflight := length_inFlight_le o
    have hbounded := lt_of_le_of_ne ht.represents.bounded he.room
    omega
  · have hsplit : l₀ ++ .posted p e .queued :: l = (l₀ ++ [.posted p e .queued]) ++ l := by simp
    rw [hsplit] at hhistory ⊢
    rw [← hqueued]
    refine backlog_started hhistory (fun v hv => ?_) hcalls hcompleted ?_
    · rw [← hsplit] at hv
      rcases List.mem_append.mp hv with hv | hv
      · exact hl₀ v hv
      · exact hl v ((List.mem_cons.mp hv).resolve_left nofun)
    · rwa [hqueued, hinvoked, List.length_append, List.length_singleton]

/-- The second task posts, and the first handles the event in a call with a budget of one. -/
theorem queued_event_delivered_twoTasks :
    [()] <+: invocations [Label.posted (some false) () .queued, .called true 0 1, .entered true 0,
      .removed true 0 ⟨some (), none⟩, .invoked true 0 (), .resumed true 0, .returned true 0 1] :=
  have hhistory : (System.after twoTasks none [.prepare true, .post false (), .dispatch true 1,
      .advance true, .advance true, .advance true, .finish true, .advance true]).2 =
      [] ++ .prepared true true :: ([] ++ .posted (some false) () .queued :: [.called true 0 1,
        .entered true 0, .removed true 0 ⟨some (), none⟩, .invoked true 0 (), .resumed true 0,
        .returned true 0 1]) := rfl
  (queued_event_delivered twoTasks none _ hhistory nofun (by simp [NoStop])).2 [⟨true, 0, 1⟩]
    (List.nodup_singleton 0)
    (List.forall_mem_singleton.mpr ⟨[.called true 0 1, .entered true 0,
      .removed true 0 ⟨some (), none⟩, .invoked true 0 (), .resumed true 0], 1, [], rfl, by simp,
      by simp⟩) (Nat.le_refl 1)

/-! ### An event whose post was taken -/

omit [DecidableEq Task] in
/-- The event of a post that was elided waited before. -/
theorem Effect.elided {m m' : Mailbox Owner Event} {o o' : Option (Task × Activation Event)}
    {p : Option Task} {e : Event} (he : Effect B m o (.posted p e .coalesced) m' o') : e ∈ m.waiting := by
  generalize hx : Label.posted p e .coalesced = x at he
  cases he with
  | post p' e' =>
      obtain ⟨-, rfl, hr⟩ := Label.posted.inj hx
      unfold Mailbox.post at hr
      split_ifs at hr with h₁ h₂ h₃
      exact h₂.2
  | _ => cases hx

omit [DecidableEq Task] [DecidableEq Event] in
/-- In a session what was queued has been started, is in flight, or waits. -/
theorem Accounts.backlog {m : Mailbox Owner Event} {o : Option (Task × Activation Event)}
    {h h₁ l : List (Label Task Event)} {t : Task} (ha : Accounts B h m o)
    (e : h = h₁ ++ .prepared t true :: l) (hl : NoStop l) :
    ∃ rest, queuedPosts l = invocations l ++ rest ∧
      rest.map B.recordFor = inFlight o ++ m.waiting.map B.recordFor := by
  obtain ⟨⟨rest, hrest⟩, -⟩ := ha.invocations_prefix e hl
  obtain ⟨-, hqueued, hremoved⟩ := ha.session h₁ t l e hl
  rw [hremoved, ← hrest, List.map_append, List.append_assoc, List.append_cancel_left_eq] at hqueued
  exact ⟨rest, hrest.symm, hqueued⟩

/-- **The handler of an event whose post was taken starts after the post**, once the calls that were let
in since and have returned have budgets that add up to what had been queued and not yet started. -/
theorem taken_started {owner : Owner} {as : List (Action Task Event)}
    {h₀ l₀ l : List (Label Task Event)} {u : Task} {p : Option Task} {e : Event} {r : PostResult}
    (hhistory : (System.after B owner as).2 = h₀ ++ .prepared u true :: (l₀ ++ .posted p e r :: l))
    (hr : r = .queued ∨ r = .coalesced) (hl₀ : NoStop l₀) (hl : NoStop l)
    {calls : List (DispatchCall Task)} (hcalls : (calls.map (·.call)).Nodup)
    (hcompleted : ∀ c ∈ calls,
      Completed (h₀ ++ .prepared u true :: (l₀ ++ [.posted p e r])) l c)
    (hbudget : (queuedPosts (l₀ ++ [.posted p e r])).length ≤
      (invocations l₀).length + (calls.map (·.budget)).sum) :
    e ∈ invocations l := by
  have hpost : (System.after B owner as).2 =
      (h₀ ++ .prepared u true :: l₀) ++ .posted p e r :: l := by rw [hhistory]; simp
  obtain ⟨as₁, s', hh, hs⟩ := exists_step hpost
  obtain ⟨m, o, ht, ha⟩ := accounts (B := B) owner as₁
  obtain ⟨m', o', he, -⟩ := ht.step hs
  obtain ⟨rest, hrest, hwaiting⟩ := ha.backlog hh hl₀
  -- the event is in what is left to start: it was queued last, or it waited
  obtain ⟨left, hleft, hmem⟩ : ∃ left, queuedPosts (l₀ ++ [.posted p e r]) = invocations l₀ ++ left ∧
      e ∈ left := by
    rcases hr with rfl | rfl
    · refine ⟨rest ++ [e], ?_, List.mem_append_right _ (List.mem_singleton_self e)⟩
      rw [queuedPosts_append, hrest, List.append_assoc]
      rfl
    · refine ⟨rest, (queuedPosts_append _ _).trans ((List.append_nil _).trans hrest), ?_⟩
      refine (List.mem_map_of_injective (Board.recordFor_injective (B := B))).mp ?_
      rw [hwaiting]
      exact List.mem_append_right _ (List.mem_map_of_mem he.elided)
  have hinvoked : invocations (l₀ ++ [.posted p e r]) = invocations l₀ :=
    (invocations_append _ _).trans (List.append_nil _)
  have hsplit : l₀ ++ .posted p e r :: l = (l₀ ++ [.posted p e r]) ++ l := by simp
  rw [hsplit] at hhistory
  have hstarted : queuedPosts (l₀ ++ [.posted p e r]) <+: invocations l₀ ++ invocations l := by
    rw [← hinvoked, ← invocations_append]
    refine backlog_started hhistory (fun v hv => ?_) hcalls hcompleted (by rwa [hinvoked])
    rw [← hsplit] at hv
    rcases List.mem_append.mp hv with hv | hv
    · exact hl₀ v hv
    · exact hl v ((List.mem_cons.mp hv).resolve_left nofun)
  rw [hleft, List.prefix_append_right_inj] at hstarted
  exact hstarted.mem hmem

/-- What is queued and not yet started is bounded. -/
theorem backlog_le {owner : Owner} {as : List (Action Task Event)} {h₀ l₀ : List (Label Task Event)}
    {u : Task} (hhistory : (System.after B owner as).2 = h₀ ++ .prepared u true :: l₀) (hl₀ : NoStop l₀) :
    (queuedPosts l₀).length ≤ (invocations l₀).length + (B.capacity + 1) := by
  obtain ⟨m, o, ht, ha⟩ := accounts (B := B) owner as
  have hcount := (ha.invocations_prefix hhistory hl₀).2
  have hflight := length_inFlight_le o
  have hbounded := ht.represents.bounded
  omega

omit [DecidableEq Task] in
/-- A post is taken in a session only. -/
theorem Effect.taken_ready {m m' : Mailbox Owner Event} {o o' : Option (Task × Activation Event)}
    {p : Option Task} {e : Event} {r : PostResult} (he : Effect B m o (.posted p e r) m' o')
    (hr : r = .queued ∨ r = .coalesced) : m.ready = true := by
  generalize hx : Label.posted p e r = x at he
  cases he with
  | post p' e' =>
      obtain ⟨-, -, rfl⟩ := Label.posted.inj hx
      by_contra hready
      rw [Bool.not_eq_true] at hready
      simp [Mailbox.post, hready] at hr
  | _ => cases hx

/-- **The handler of an event whose post was taken starts after the post**, once the calls that were let
in since and have returned have budgets that add up to the capacity and one. -/
theorem taken_handled {owner : Owner} {as : List (Action Task Event)} {h l : List (Label Task Event)}
    {p : Option Task} {e : Event} {r : PostResult}
    (hhistory : (System.after B owner as).2 = h ++ .posted p e r :: l) (hr : r = .queued ∨ r = .coalesced)
    (hl : NoStop l) {calls : List (DispatchCall Task)} (hcalls : (calls.map (·.call)).Nodup)
    (hcompleted : ∀ c ∈ calls, Completed (h ++ [.posted p e r]) l c)
    (hbudget : B.capacity + 1 ≤ (calls.map (·.budget)).sum) : e ∈ invocations l := by
  obtain ⟨as₁, s', rfl, hs⟩ := exists_step hhistory
  obtain ⟨m, o, ht, ha⟩ := accounts (B := B) owner as₁
  obtain ⟨m', o', he, -⟩ := ht.step hs
  obtain ⟨h₀, u, l₀, hh, hl₀⟩ := ha.opened (he.taken_ready hr)
  obtain ⟨as₂, hpost⟩ := exists_prefix hhistory
  rw [hh, List.append_assoc, List.cons_append] at hhistory hcompleted hpost
  have hnostop : NoStop (l₀ ++ [.posted p e r]) := by
    intro v hv
    exact hl₀ v ((List.mem_append.mp hv).resolve_right (by simp))
  have hbacklog := backlog_le hpost hnostop
  have hinvoked : invocations (l₀ ++ [.posted p e r]) = invocations l₀ :=
    (invocations_append _ _).trans (List.append_nil _)
  rw [hinvoked] at hbacklog
  exact taken_started hhistory hr hl₀ hl hcalls hcompleted
    (hbacklog.trans (Nat.add_le_add_left hbudget _))

/-- **The handler of an event whose post was elided starts after the post**, once the calls that were
let in since and have returned have budgets that add up to what was queued until then and not yet
started. -/
theorem coalesced_event_delivered (B : Board Task Token Owner Event) (owner : Owner)
    (as : List (Action Task Event)) {h₀ l₀ l : List (Label Task Event)} {u : Task} {p : Option Task}
    {e : Event} (hhistory : (System.after B owner as).2 =
      h₀ ++ .prepared u true :: (l₀ ++ .posted p e .coalesced :: l)) (hl₀ : NoStop l₀) (hl : NoStop l) :
    (queuedPosts l₀).length ≤ (invocations l₀).length + (B.capacity + 1) ∧
    ∀ calls : List (DispatchCall Task), (calls.map (·.call)).Nodup →
      (∀ c ∈ calls, Completed (h₀ ++ .prepared u true :: (l₀ ++ [.posted p e .coalesced])) l c) →
      (queuedPosts l₀).length ≤ (invocations l₀).length + (calls.map (·.budget)).sum →
      e ∈ invocations l := by
  have hpost : (System.after B owner as).2 =
      (h₀ ++ .prepared u true :: l₀) ++ .posted p e .coalesced :: l := by rw [hhistory]; simp
  obtain ⟨as₁, s', hh, -⟩ := exists_step hpost
  refine ⟨backlog_le hh hl₀, fun calls hcalls hcompleted hbudget => ?_⟩
  have hqueued : queuedPosts (l₀ ++ [.posted p e .coalesced]) = queuedPosts l₀ :=
    (queuedPosts_append _ _).trans (List.append_nil _)
  exact taken_started hhistory (.inr rfl) hl₀ hl hcalls hcompleted (by rwa [hqueued])

/-- Two tasks with an event that is elided while it waits. -/
def twoNotified : Board Bool Bool (Option Bool) Unit := { twoTasks with delivery := fun _ => .elide }

/-- Before the first session no flag is up. -/
theorem step_prepare_twoNotified :
    (System.machine twoNotified).step (System.initial twoNotified none) (.prepare true) =
      ({ System.initial twoNotified none with
          queue := { Queue.initial twoNotified none with ready := true, owner := some true } },
        some (.prepared true true)) := by
  have hpending : (Queue.initial twoNotified none).clearRecords.pending = fun _ => false :=
    funext fun e => (Represents.initial none).clearRecords_pending e
  have hprepare : (Queue.initial twoNotified none).prepare true =
      (true, { Queue.initial twoNotified none with ready := true, owner := some true }) := by
    rw [Queue.prepare_granted rfl rfl]
    exact congrArg (fun pending => (true, (⟨_, _, _, _, _, _, pending, _⟩ : Queue twoNotified))) hpending
  exact congrArg (fun r : Bool × Queue twoNotified => (({ System.initial twoNotified none with
    queue := r.2 } : System twoNotified), some (Label.prepared true r.1))) hprepare

/-- The second task posts twice, the second post is elided, and the handler starts after it. -/
theorem coalesced_event_delivered_twoNotified :
    () ∈ invocations [Label.called true 0 1, .entered true 0, .removed true 0 ⟨some (), some ()⟩,
      .invoked true 0 (), .resumed true 0, .returned true 0 1] := by
  have hhistory : (System.after twoNotified none [.prepare true, .post false (), .post false (),
      .dispatch true 1, .advance true, .advance true, .advance true, .finish true, .advance true]).2 =
      [] ++ .prepared true true :: ([.posted (some false) () .queued] ++
        .posted (some false) () .coalesced :: [.called true 0 1, .entered true 0,
        .removed true 0 ⟨some (), some ()⟩, .invoked true 0 (), .resumed true 0, .returned true 0 1]) := by
    rw [System.after, Runs.Machine.run_cons, step_prepare_twoNotified]
    rfl
  have hcompleted : Completed ([] ++ .prepared true true :: ([.posted (some false) () .queued] ++
      [.posted (some false) () .coalesced])) [.called true 0 1, .entered true 0,
        .removed true 0 ⟨some (), some ()⟩, .invoked true 0 (), .resumed true 0, .returned true 0 1]
      ⟨true, 0, 1⟩ :=
    ⟨[.called true 0 1, .entered true 0, .removed true 0 ⟨some (), some ()⟩, .invoked true 0 (),
      .resumed true 0], 1, [], rfl, by simp, by simp⟩
  exact (coalesced_event_delivered twoNotified none _ hhistory (by simp [NoStop]) (by simp [NoStop])).2
    [⟨true, 0, 1⟩] (List.nodup_singleton 0) (List.forall_mem_singleton.mpr hcompleted) (Nat.le_refl 1)

end Grevir.Event
