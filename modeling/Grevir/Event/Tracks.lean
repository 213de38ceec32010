import Grevir.Event.Tasks

/-!
# Event — Tracks

The invariant of the tasks and the queue.  At most one `dispatch` call is between setting and
clearing `dispatching_`: `Tracks s m o` says that the queue of `s` represents the mailbox `m`, that
`o` is that call with its task, and that every call below another waits inside its callback.

A call inside `dispatch` finds `dispatching_` set, so a nested call goes no further than its first
section; this is why the call in progress has no other call in progress above or below it.

* `Tracks.step`: a step keeps the invariant, at the mailbox and call that `Effect` names.
* `tracks_induct`: what every `Effect` keeps holds after every schedule.
-/

namespace Grevir.Event

variable {Task Token Owner Event : Type} [DecidableEq Task] [DecidableEq Event]
variable {B : Board Task Token Owner Event}

/-- The calls of `u` in progress, when `o` is the only one. -/
def activeOf (o : Option (Task × Activation Event)) (u : Task) : List (Activation Event) :=
  match o with
  | none => []
  | some (t, a) => if u = t then [a] else []

structure Tracks (s : System B) (m : Mailbox Owner Event) (o : Option (Task × Activation Event)) :
    Prop where
  represents : Represents s.queue m
  sole : ∀ u, (s.frames u).filter Activation.inProgress = activeOf o u
  dispatching : m.dispatching = o.isSome
  suspended : ∀ u a below, s.frames u = a :: below → ∀ b ∈ below, b.point = .callback
  fresh : ∀ u, ∀ a ∈ s.frames u, a.call < s.calls

/-- What a step does to the mailbox and to the call in progress. -/
inductive Effect (B : Board Task Token Owner Event) (m : Mailbox Owner Event)
    (o : Option (Task × Activation Event)) :
    Label Task Event → Mailbox Owner Event → Option (Task × Activation Event) → Prop where
  | prepare (t : Task) :
      Effect B m o (.prepared t (m.prepare B (B.context.currentToken t)).1)
        (m.prepare B (B.context.currentToken t)).2 o
  | stop (t : Task) : Effect B m o (.stopped t) m.stop o
  | post (t : Option Task) (e : Event) :
      Effect B m o (.posted t e (m.post B e).1) (m.post B e).2 o
  | overrun (t : Task) : Effect B m o (.overrunRead t m.overrun) m o
  | clearOverrun (t : Task) : Effect B m o (.overrunCleared t) m.clearOverrun o
  | dispatch (t : Task) (call budget : Nat) : Effect B m o (.called t call budget) m o
  | refuse (t : Task) (call : Nat) : Effect B m o (.returned t call 0) m o
  | enter (t : Task) (a : Activation Event) (ho : o = none) (hb : a.budget ≠ 0)
      (hr : m.ready = true) (hw : B.context.isOwner (B.context.currentToken t) m.owner = true) :
      Effect B m o (.entered t a.call) { m with dispatching := true }
        (some (t, { a with point := a.next }))
  | drain (t : Task) (a : Activation Event) (ho : o = some (t, a)) (ha : a.point = .loop)
      (hm : m.ready = false ∨ m.waiting = []) :
      Effect B m o (.drained t a.call) m (some (t, { a with point := .leave }))
  | remove (t : Task) (a : Activation Event) (e : Event) (rest : List Event)
      (ho : o = some (t, a)) (ha : a.point = .loop) (hr : m.ready = true)
      (hw : m.waiting = e :: rest) :
      Effect B m o (.removed t a.call (B.recordFor e)) { m with waiting := rest }
        (some (t, { a with point := .invoke (B.recordFor e) }))
  | invoke (t : Task) (a : Activation Event) (r : DispatchRecord Event) (e : Event)
      (ho : o = some (t, a)) (ha : a.point = .invoke r) (he : r.invoke = some e) :
      Effect B m o (.invoked t a.call e) m (some (t, { a with point := .callback }))
  | invokeNull (t : Task) (a : Activation Event) (r : DispatchRecord Event)
      (ho : o = some (t, a)) (ha : a.point = .invoke r) (he : r.invoke = none) :
      Effect B m o (.invokedNull t a.call) m o
  | resume (t : Task) (a : Activation Event) (ho : o = some (t, a)) (ha : a.point = .callback) :
      Effect B m o (.resumed t a.call) m
        (some (t, ⟨a.call, a.budget, a.handled + 1,
          if a.handled + 1 < a.budget then .loop else .leave⟩))
  | leave (t : Task) (a : Activation Event) (ho : o = some (t, a)) (ha : a.point = .leave) :
      Effect B m o (.returned t a.call a.handled) m.leave none

namespace Tracks

variable {s : System B} {m : Mailbox Owner Event} {o : Option (Task × Activation Event)}

theorem initial (owner : Owner) :
    Tracks (System.initial B owner) ⟨[], false, false, false, owner⟩ none where
  represents := .initial owner
  sole _ := rfl
  dispatching := rfl
  suspended _ _ _ h := by simp [System.initial] at h
  fresh _ _ h := by simp [System.initial] at h

omit [DecidableEq Task] [DecidableEq Event] in
theorem inProgress_of_callback {b : Activation Event} (h : b.point = .callback) :
    b.inProgress = true := by simp [Activation.inProgress, h]

/-- A call in progress at the top of its stack is the only one, and has no call below it. -/
theorem top_eq (h : Tracks s m o) {t : Task} {a : Activation Event}
    {below : List (Activation Event)} (hs : s.frames t = a :: below)
    (ha : a.inProgress = true) : o = some (t, a) ∧ below = [] := by
  have hsole := h.sole t
  rw [hs, List.filter_cons_of_pos ha] at hsole
  have hb : below = [] := by
    cases below with
    | nil => rfl
    | cons b rest =>
        have hbp := inProgress_of_callback (h.suspended t a _ hs b (by simp))
        rw [List.filter_cons_of_pos hbp] at hsole
        cases o with
        | none => simp [activeOf] at hsole
        | some p => by_cases e : t = p.1 <;> simp [activeOf, e] at hsole
  subst hb
  refine ⟨?_, rfl⟩
  cases o with
  | none => simp [activeOf] at hsole
  | some p =>
      by_cases e : t = p.1
      · simp only [activeOf, e, if_true, List.filter_nil, List.cons.injEq, and_true] at hsole
        rw [hsole, e]
      · simp [activeOf, e] at hsole

/-- A call in progress is the one `o` names. -/
theorem eq_of_inProgress (h : Tracks s m o) {t : Task} {a : Activation Event}
    (hm : a ∈ s.frames t) (ha : a.inProgress = true) : o = some (t, a) := by
  have : a ∈ activeOf o t := by rw [← h.sole t]; exact List.mem_filter.mpr ⟨hm, ha⟩
  cases o with
  | none => simp [activeOf] at this
  | some p =>
      by_cases e : t = p.1
      · simp only [activeOf, e, if_true, List.mem_singleton] at this
        rw [this, e]
      · simp [activeOf, e] at this

theorem mem_of_eq_some (h : Tracks s m o) {t : Task} {a : Activation Event}
    (ho : o = some (t, a)) : a ∈ s.frames t ∧ a.inProgress = true := by
  have : a ∈ (s.frames t).filter Activation.inProgress := by rw [h.sole t, ho]; simp [activeOf]
  exact List.mem_filter.mp this

/-- There is a call in progress when some stack has one. -/
theorem isSome_iff (h : Tracks s m o) :
    o.isSome = true ↔ ∃ t, ∃ a ∈ s.frames t, a.inProgress = true := by
  constructor
  · intro ho
    obtain ⟨p, hp⟩ := Option.isSome_iff_exists.mp ho
    exact ⟨p.1, p.2, h.mem_of_eq_some hp⟩
  · rintro ⟨t, a, hm, ha⟩
    rw [h.eq_of_inProgress hm ha]
    rfl

theorem countP_le (h : Tracks s m o) (t : Task) :
    (s.frames t).countP Activation.inProgress ≤ 1 := by
  rw [List.countP_eq_length_filter, h.sole t]
  cases o with
  | none => simp [activeOf]
  | some p => by_cases e : t = p.1 <;> simp [activeOf, e]

/-- While a record waits to be started no callback runs. -/
theorem not_callback (h : Tracks s m o) {t : Task} {a : Activation Event}
    {r : DispatchRecord Event} (ho : o = some (t, a)) (ha : a.point = .invoke r) (u : Task) :
    ∀ b ∈ s.frames u, b.point ≠ .callback := by
  intro b hb hcb
  have hsame := h.eq_of_inProgress hb (inProgress_of_callback hcb)
  rw [ho] at hsame
  cases hsame
  rw [ha] at hcb
  cases hcb

/-- A step that leaves the calls alone. -/
theorem queue_step (h : Tracks s m o) {q : Queue B} {m' : Mailbox Owner Event}
    (hq : Represents q m') (hd : m'.dispatching = m.dispatching) :
    Tracks { s with queue := q } m' o :=
  { h with represents := hq, dispatching := hd.trans h.dispatching }

/-- A step that replaces the stack of one task. -/
theorem setFrames (h : Tracks s m o) {t : Task} {F : List (Activation Event)} {q : Queue B}
    {c : Nat} {m' : Mailbox Owner Event} {o' : Option (Task × Activation Event)}
    (hq : Represents q m') (hc : s.calls ≤ c)
    (hsole : F.filter Activation.inProgress = activeOf o' t)
    (hother : ∀ u, u ≠ t → activeOf o' u = activeOf o u) (hd : m'.dispatching = o'.isSome)
    (hsus : ∀ a below, F = a :: below → ∀ b ∈ below, b.point = .callback)
    (hfresh : ∀ a ∈ F, a.call < c) :
    Tracks ⟨q, Function.update s.frames t F, c⟩ m' o' where
  represents := hq
  sole u := by
    by_cases e : u = t
    · subst e; simpa using hsole
    · simpa [Function.update_of_ne e, hother u e] using h.sole u
  dispatching := hd
  suspended u a below hu := by
    by_cases e : u = t
    · subst e; exact hsus a below (by simpa using hu)
    · exact h.suspended u a below (by simpa [Function.update_of_ne e] using hu)
  fresh u a ha := by
    by_cases e : u = t
    · subst e; exact hfresh a (by simpa using ha)
    · exact (h.fresh u a (by simpa [Function.update_of_ne e] using ha)).trans_le hc

/-- A new call goes on top of a stack whose own code runs. -/
theorem push (h : Tracks s m o) {t : Task} (hu : s.userCode t = true) (budget : Nat) :
    Tracks ⟨s.queue, Function.update s.frames t (⟨s.calls, budget, 0, .enter⟩ :: s.frames t),
      s.calls + 1⟩ m o := by
  refine h.setFrames h.represents (Nat.le_succ _) (h.sole t) (fun _ _ => rfl) h.dispatching
    (fun a below hF => ?_) (fun a ha => ?_)
  · obtain ⟨-, rfl⟩ := List.cons.inj hF
    intro b hb
    cases hf : s.frames t with
    | nil => simp [hf] at hb
    | cons d rest =>
        rw [hf, List.mem_cons] at hb
        rcases hb with rfl | hb
        · -- the innermost call so far: its callback runs
          simp only [System.userCode, hf] at hu
          split at hu
          · assumption
          · cases hu
        · exact h.suspended t d rest hf b hb
  · rcases List.mem_cons.mp ha with rfl | ha
    · exact Nat.lt_succ_self _
    · exact Nat.lt_succ_of_lt (h.fresh t a ha)

/-- A call that set nothing goes off the top of its stack. -/
theorem pop (h : Tracks s m o) {t : Task} {a : Activation Event} {below : List (Activation Event)}
    (hs : s.frames t = a :: below) (ha : a.point = .enter) :
    Tracks (s.setFrames t below) m o := by
  have hsole := h.sole t
  rw [hs, List.filter_cons_of_neg (by simp [Activation.inProgress, ha])] at hsole
  refine h.setFrames h.represents le_rfl hsole (fun _ _ => rfl) h.dispatching
    (fun b rest hF c hc => ?_) (fun b hb => h.fresh t b (by simp [hs, hb]))
  exact h.suspended t a below hs c (by simp [hF, hc])

/-- The innermost call, in progress or about to be, is the only one in progress afterwards. -/
theorem move (h : Tracks s m o) {t : Task} {a : Activation Event}
    {below : List (Activation Event)} (a' : Activation Event) (hs : s.frames t = a :: below)
    (ho : o = none ∨ o = some (t, a)) (ha : a'.inProgress = true) (hc : a'.call = a.call)
    {q : Queue B} {m' : Mailbox Owner Event} (hq : Represents q m')
    (hd : m'.dispatching = true) :
    Tracks { s.setFrames t (a' :: below) with queue := q } m' (some (t, a')) := by
  have hbelow : below = [] := by
    cases below with
    | nil => rfl
    | cons b rest =>
        have hb : b.inProgress = true :=
          inProgress_of_callback (h.suspended t a _ hs b (by simp))
        have hab := h.eq_of_inProgress (t := t) (a := b) (by rw [hs]; simp) hb
        rcases ho with rfl | rfl
        · cases hab
        · -- `a` and `b` are both in progress, so they are one call and stand in one place
          have hsole := h.sole t
          obtain rfl : a = b := by simpa using hab
          rw [hs, List.filter_cons_of_pos hb, List.filter_cons_of_pos hb] at hsole
          simp [activeOf] at hsole
  subst hbelow
  refine h.setFrames hq le_rfl (by simp [activeOf, ha]) (fun u hu => ?_) (by simp [hd])
    (fun b rest hF => ?_) (fun b hb => ?_)
  · rcases ho with rfl | rfl <;> simp [activeOf, hu]
  · obtain ⟨-, rfl⟩ := List.cons.inj hF
    simp
  · obtain rfl := List.mem_singleton.mp hb
    rw [hc]
    exact h.fresh t a (by simp [hs])

/-- The call in progress ends. -/
theorem finish (h : Tracks s m o) {t : Task} {a : Activation Event}
    {below : List (Activation Event)} (hs : s.frames t = a :: below) (ha : a.inProgress = true)
    {q : Queue B} {m' : Mailbox Owner Event} (hq : Represents q m')
    (hd : m'.dispatching = false) :
    Tracks { s.setFrames t below with queue := q } m' none := by
  obtain ⟨rfl, rfl⟩ := h.top_eq hs ha
  refine h.setFrames hq le_rfl rfl (fun u hu => ?_) (by simp [hd]) (fun b rest hF => ?_)
    (fun b hb => ?_)
  · simp [activeOf, hu]
  · cases hF
  · cases hb

/-- **A step keeps the invariant.** -/
theorem step (h : Tracks s m o) {x : Label Task Event} {s' : System B} (hs : s.Step x s') :
    ∃ m' o', Effect B m o x m' o' ∧ Tracks s' m' o' := by
  cases hs with
  | prepare t hu =>
      obtain ⟨he, hq⟩ := h.represents.prepare (B.context.currentToken t)
      rw [he]
      refine ⟨_, _, .prepare t, h.queue_step hq ?_⟩
      unfold Mailbox.prepare
      split <;> rfl
  | stop t hu => exact ⟨_, _, .stop t, h.queue_step h.represents.stop rfl⟩
  | post t e =>
      obtain ⟨he, hq⟩ := h.represents.post e
      rw [he]
      refine ⟨_, _, .post t e, h.queue_step hq ?_⟩
      unfold Mailbox.post
      split_ifs <;> rfl
  | overrun t =>
      rw [h.represents.overrun_eq]
      exact ⟨_, _, .overrun t, h⟩
  | clearOverrun t => exact ⟨_, _, .clearOverrun t, h.queue_step h.represents.clearOverrun rfl⟩
  | dispatch t budget hu => exact ⟨_, _, .dispatch t s.calls budget, h.push hu budget⟩
  | refuse t a below hs ha hr => exact ⟨_, _, .refuse t a.call, h.pop hs ha⟩
  | enter t a below q hs ha hb hq =>
      obtain ⟨m', hm, hq'⟩ := h.represents.enter hq
      obtain ⟨hr, hd, hw, rfl⟩ := Mailbox.enter_some.mp hm
      have ho : o = none := by
        have := h.dispatching
        rw [hd] at this
        exact Option.isNone_iff_eq_none.mp (by simpa using this.symm)
      refine ⟨_, _, .enter t a ho hb hr hw, h.move { a with point := a.next } hs (.inl ho) ?_ rfl hq' rfl⟩
      by_cases hn : a.handled < a.budget <;> simp [Activation.inProgress, Activation.next, hn]
  | drain t a below hs ha hq =>
      obtain ⟨ho, rfl⟩ := h.top_eq hs (by simp [Activation.inProgress, ha])
      have hd : m.dispatching = true := by rw [h.dispatching, ho]; rfl
      exact ⟨_, _, .drain t a ho ha (Mailbox.remove_none.mp (h.represents.remove_none hq)),
        h.move { a with point := .leave } hs (.inr ho) rfl rfl h.represents hd⟩
  | remove t a below record q hs ha hq =>
      obtain ⟨ho, rfl⟩ := h.top_eq hs (by simp [Activation.inProgress, ha])
      have hd : m.dispatching = true := by rw [h.dispatching, ho]; rfl
      obtain ⟨e, m', rfl, hm, hq'⟩ := h.represents.remove hq
      obtain ⟨rest, hr, hw, rfl⟩ := Mailbox.remove_some.mp hm
      exact ⟨_, _, .remove t a e rest ho ha hr hw,
        h.move { a with point := .invoke (B.recordFor e) } hs (.inr ho) rfl rfl hq' hd⟩
  | invoke t a below record e hs ha he =>
      obtain ⟨ho, rfl⟩ := h.top_eq hs (by simp [Activation.inProgress, ha])
      have hd : m.dispatching = true := by rw [h.dispatching, ho]; rfl
      exact ⟨_, _, .invoke t a record e ho ha he,
        h.move { a with point := .callback } hs (.inr ho) rfl rfl h.represents hd⟩
  | invokeNull t a below record hs ha he =>
      obtain ⟨ho, -⟩ := h.top_eq hs (by simp [Activation.inProgress, ha])
      exact ⟨_, _, .invokeNull t a record ho ha he, h⟩
  | resume t a below hs ha =>
      obtain ⟨ho, rfl⟩ := h.top_eq hs (by simp [Activation.inProgress, ha])
      have hd : m.dispatching = true := by rw [h.dispatching, ho]; rfl
      refine ⟨_, _, .resume t a ho ha,
        h.move ⟨a.call, a.budget, a.handled + 1, _⟩ hs (.inr ho) ?_ rfl h.represents hd⟩
      by_cases hn : a.handled + 1 < a.budget <;> simp [Activation.inProgress, hn]
  | leave t a below hs ha =>
      have hp : a.inProgress = true := by simp [Activation.inProgress, ha]
      obtain ⟨ho, -⟩ := h.top_eq hs hp
      exact ⟨_, _, .leave t a ho ha, h.finish hs hp h.represents.leave rfl⟩

end Tracks

/-- **The tasks and the queue after a schedule.**  A property of history, mailbox and call in
progress that holds at the start and is kept by every `Effect` holds after every schedule, at the
mailbox and call the state tracks. -/
theorem tracks_induct
    {P : List (Label Task Event) → Mailbox Owner Event → Option (Task × Activation Event) → Prop}
    (owner : Owner) (h0 : P [] ⟨[], false, false, false, owner⟩ none)
    (hs : ∀ h m o x m' o', P h m o → m'.dispatching = o'.isSome →
      (m'.ready = false → m'.waiting = []) → Effect B m o x m' o' → P (h ++ [x]) m' o')
    (as : List (Action Task Event)) :
    ∃ m o, Tracks (System.after B owner as).1 m o ∧ P (System.after B owner as).2 m o := by
  refine (System.machine B).run_induct (P := fun s h => ∃ m o, Tracks s m o ∧ P h m o)
    ⟨_, _, .initial owner, h0⟩ (fun s h c ⟨m, o, ht, hp⟩ => ?_) as
  show ∃ m o, Tracks (s.step c).1 m o ∧ P (h ++ (s.step c).2.toList) m o
  rcases s.step_cases c with hn | ⟨x, s', hx, hstep⟩
  · rw [hn]
    exact ⟨m, o, ht, by simpa using hp⟩
  · rw [hx]
    obtain ⟨m', o', he, ht'⟩ := ht.step hstep
    exact ⟨m', o', ht', hs h m o x m' o' hp ht'.dispatching
      (fun hr => (ht'.represents.closed hr).1) he⟩

end Grevir.Event
