import Grevir.Event.Tracks

/-!
# Event — Fifo

The queue is an exactly-once bounded FIFO.  A session is the part of a history from a `prepare` that
returned true to the next `stop`.

* Within a session the records `dispatch` removed, followed by the records the ring holds, are the
  records of the posts that returned `queued`, in posting order.
* The callbacks started, followed by the one record removed but not yet started, are the records
  removed: each removal starts its own event's handler, once.
* After a `stop` nothing is removed until the next session, so at most one callback, already
  removed, may still start; and no session opens while the call that removed it is in progress.

`Accounts` is these facts of a history, and `Effect.account` is what one step adds to them.
-/

namespace Grevir.Event

variable {Task Token Owner Event : Type}

/-! ### What a history says -/

/-- The events whose posts returned `queued`. -/
def queuedPosts (l : List (Label Task Event)) : List Event :=
  l.filterMap fun
    | .posted _ e .queued => some e
    | _ => none

/-- The records removed. -/
def removals (l : List (Label Task Event)) : List (DispatchRecord Event) :=
  l.filterMap fun
    | .removed _ _ r => some r
    | _ => none

/-- The events whose handler was started. -/
def invocations (l : List (Label Task Event)) : List Event :=
  l.filterMap fun
    | .invoked _ _ e => some e
    | _ => none

/-- No `stop` since. -/
def NoStop (l : List (Label Task Event)) : Prop := ∀ u, .stopped u ∉ l

/-- No `prepare` that returned true since. -/
def NoPrepare (l : List (Label Task Event)) : Prop := ∀ u, .prepared u true ∉ l

@[simp] theorem queuedPosts_append (l l' : List (Label Task Event)) :
    queuedPosts (l ++ l') = queuedPosts l ++ queuedPosts l' := List.filterMap_append

@[simp] theorem removals_append (l l' : List (Label Task Event)) :
    removals (l ++ l') = removals l ++ removals l' := List.filterMap_append

@[simp] theorem invocations_append (l l' : List (Label Task Event)) :
    invocations (l ++ l') = invocations l ++ invocations l' := List.filterMap_append

/-- The record the call in progress removed and has not started. -/
def inFlight (o : Option (Task × Activation Event)) : List (DispatchRecord Event) :=
  match o with
  | some (_, ⟨_, _, _, .invoke r⟩) => [r]
  | _ => []

/-- `rs` are the records removed and not started, over all tasks. -/
def System.Unstarted {B : Board Task Token Owner Event} (s : System B)
    (rs : List (DispatchRecord Event)) : Prop :=
  rs.length ≤ 1 ∧ ∀ r, r ∈ rs ↔ ∃ t, ∃ a ∈ s.frames t, a.point = .invoke r

variable [DecidableEq Task] [DecidableEq Event] {B : Board Task Token Owner Event}
variable {s : System B} {m m' : Mailbox Owner Event} {o o' : Option (Task × Activation Event)}
variable {h : List (Label Task Event)} {x : Label Task Event}

omit [DecidableEq Task] [DecidableEq Event] in
theorem inFlight_some (t : Task) (a : Activation Event) :
    inFlight (some (t, a)) = match a.point with | .invoke r => [r] | _ => [] := by
  obtain ⟨c, b, n, p⟩ := a
  cases p <;> rfl

/-- The record in flight is the one a call of the system stands at. -/
theorem Tracks.unstarted (ht : Tracks s m o) : s.Unstarted (inFlight o) := by
  constructor
  · unfold inFlight
    split <;> simp
  · intro r
    constructor
    · intro hr
      cases o with
      | none => simp [inFlight] at hr
      | some p =>
          rw [inFlight_some] at hr
          obtain ⟨hm, -⟩ := ht.mem_of_eq_some (t := p.1) (a := p.2) rfl
          refine ⟨p.1, p.2, hm, ?_⟩
          split at hr <;> simp_all
    · rintro ⟨t, a, hm, ha⟩
      have := ht.eq_of_inProgress hm (by simp [Activation.inProgress, ha])
      rw [this, inFlight_some, ha]
      simp

/-! ### What one step adds -/

/-- What a step adds to the posts queued, the records removed and the callbacks started. -/
structure Account (B : Board Task Token Owner Event) (m : Mailbox Owner Event)
    (o : Option (Task × Activation Event)) (x : Label Task Event) (m' : Mailbox Owner Event)
    (o' : Option (Task × Activation Event)) : Prop where
  stays_open : m.ready = true → (∀ u, x ≠ .stopped u) → m'.ready = true ∧
    (m.waiting ++ queuedPosts [x]).map B.recordFor = removals [x] ++ m'.waiting.map B.recordFor
  stays_closed : m.ready = false → (∀ u, x ≠ .prepared u true) →
    m'.ready = false ∧ removals [x] = [] ∧ queuedPosts [x] = []
  flight : (∀ r ∈ inFlight o, ∃ e, r = B.recordFor e) →
    inFlight o ++ removals [x] = (invocations [x]).map B.recordFor ++ inFlight o' ∧
      ∀ r ∈ inFlight o', ∃ e, r = B.recordFor e

omit [DecidableEq Task] [DecidableEq Event] in
/-- A step that queues, removes and starts nothing. -/
theorem Account.quiet (hq : queuedPosts [x] = []) (hr : removals [x] = [])
    (hi : invocations [x] = []) (hw : m'.waiting = m.waiting) (hm : m'.ready = m.ready)
    (ho : inFlight o' = inFlight o) : Account B m o x m' o' where
  stays_open h _ := ⟨hm.trans h, by rw [hq, hr, hw]; simp⟩
  stays_closed h _ := ⟨hm.trans h, hr, hq⟩
  flight h := ⟨by rw [hr, hi, ho]; simp, ho ▸ h⟩

omit [DecidableEq Task] in
theorem Effect.account (he : Effect B m o x m' o') : Account B m o x m' o' := by
  cases he with
  | prepare t =>
      by_cases hp : (m.ready || m.dispatching) = true
      · simp only [Mailbox.prepare, if_pos hp]
        exact .quiet rfl rfl rfl rfl rfl rfl
      · simp only [Mailbox.prepare, if_neg hp]
        exact ⟨fun hr _ => by simp [hr] at hp, fun _ hx => absurd rfl (hx t),
          fun hrec => ⟨by simp [removals, invocations], hrec⟩⟩
  | stop t =>
      exact ⟨fun _ hx => absurd rfl (hx t), fun _ _ => ⟨rfl, rfl, rfl⟩,
        fun hrec => ⟨by simp [removals, invocations], hrec⟩⟩
  | post t e =>
      unfold Mailbox.post
      split_ifs with h1 h2 h3
      · exact .quiet rfl rfl rfl rfl rfl rfl
      · exact .quiet rfl rfl rfl rfl rfl rfl
      · exact .quiet rfl rfl rfl rfl rfl rfl
      · exact ⟨fun hr _ => ⟨hr, by simp [queuedPosts, removals]⟩, fun hr _ => by simp [hr] at h1,
          fun hrec => ⟨by simp [removals, invocations], hrec⟩⟩
  | overrun t | clearOverrun t | dispatch t call budget | refuse t call | invokeNull t a r =>
      exact .quiet rfl rfl rfl rfl rfl rfl
  | enter t a ho hb hr hw =>
      refine .quiet rfl rfl rfl rfl rfl ?_
      rw [ho, inFlight_some]
      unfold Activation.next
      split_ifs <;> rfl
  | drain t a ho ha hm =>
      refine .quiet rfl rfl rfl rfl rfl ?_
      rw [ho, inFlight_some, inFlight_some, ha]
  | remove t a e rest ho ha hr hw =>
      refine ⟨fun _ _ => ⟨hr, by simp [queuedPosts, removals, hw]⟩,
        fun hf => absurd hr (by simp [hf]), fun _ => ?_⟩
      rw [ho, inFlight_some, inFlight_some, ha]
      exact ⟨rfl, fun r hr => ⟨e, List.mem_singleton.mp hr⟩⟩
  | invoke t a r e ho ha he =>
      refine ⟨fun hr _ => ⟨hr, by simp [queuedPosts, removals]⟩, fun hr _ => ⟨hr, rfl, rfl⟩,
        fun hrec => ?_⟩
      rw [ho, inFlight_some, ha] at hrec ⊢
      obtain ⟨e', rfl⟩ := hrec r (by simp)
      obtain rfl : e' = e := by simpa [Board.recordFor] using he
      exact ⟨rfl, by simp [inFlight_some]⟩
  | resume t a ho ha =>
      refine .quiet rfl rfl rfl rfl rfl ?_
      rw [ho, inFlight_some, inFlight_some, ha]
      split_ifs <;> rfl
  | leave t a ho ha =>
      refine .quiet rfl rfl rfl rfl rfl ?_
      rw [ho, inFlight_some, ha]
      rfl

omit [DecidableEq Task] in
/-- A `prepare` that returns true finds no session open and no call in progress, and leaves the
mailbox empty. -/
theorem Effect.opens {t : Task} (ht : m.dispatching = o.isSome)
    (he : Effect B m o (.prepared t true) m' o') :
    m.ready = false ∧ o = none ∧ o' = none ∧ m'.ready = true ∧ m'.waiting = [] ∧
      m'.overrun = false := by
  generalize hx : Label.prepared t true = x at he
  cases he with
  | prepare u =>
      by_cases hp : (m.ready || m.dispatching) = true
      · simp [Mailbox.prepare, hp] at hx
      · have hn : o = none := by
          cases o with
          | none => rfl
          | some p => simp [ht] at hp
        rw [Mailbox.prepare, if_neg hp]
        exact ⟨by simp_all, hn, hn, rfl, rfl, rfl⟩
  | _ => cases hx

omit [DecidableEq Task] in
/-- A `stop` closes the session and leaves the mailbox empty. -/
theorem Effect.stops {t : Task} (he : Effect B m o (.stopped t) m' o') :
    m'.ready = false ∧ m'.waiting = [] ∧ o' = o := by
  generalize hx : Label.stopped t = x at he
  cases he with
  | stop u => exact ⟨rfl, rfl, rfl⟩
  | _ => cases hx

omit [DecidableEq Task] in
/-- A step goes on with the session, or removes nothing and leaves the mailbox empty. -/
theorem Effect.continues (hi : m.dispatching = o.isSome) (hcl : m'.ready = false → m'.waiting = [])
    (he : Effect B m o x m' o') :
    (m.waiting ++ queuedPosts [x]).map B.recordFor = removals [x] ++ m'.waiting.map B.recordFor ∨
      (removals [x] = [] ∧ m'.waiting = []) := by
  by_cases hs : ∃ u, x = .stopped u
  · obtain ⟨u, rfl⟩ := hs
    exact .inr ⟨rfl, he.stops.2.1⟩
  · by_cases hp : ∃ u, x = .prepared u true
    · obtain ⟨u, rfl⟩ := hp
      obtain ⟨-, -, -, -, hw, -⟩ := he.opens hi
      exact .inr ⟨rfl, hw⟩
    · push Not at hs hp
      by_cases hr : m.ready = true
      · exact .inl (he.account.stays_open hr hs).2
      · obtain ⟨hr', hn, -⟩ := he.account.stays_closed (by simpa using hr) hp
        exact .inr ⟨hn, hcl hr'⟩

omit [DecidableEq Task] in
/-- What a step does to `overrun_`. -/
theorem Effect.overrun_iff (he : Effect B m o x m' o') :
    m'.overrun = true ↔ (∃ p e, x = .posted p e .full) ∨
      m.overrun = true ∧ (∀ u, x ≠ .prepared u true) ∧ ∀ u, x ≠ .overrunCleared u := by
  cases he with
  | prepare t =>
      by_cases hp : (m.ready || m.dispatching) = true
      · simp [Mailbox.prepare, hp]
      · simp [Mailbox.prepare, hp]
  | post t e =>
      unfold Mailbox.post
      split_ifs <;> simp
  | _ => simp [Mailbox.stop, Mailbox.clearOverrun, Mailbox.leave]

/-! ### The accounts of a history -/

/-- A history against the mailbox and the call in progress it led to. -/
structure Accounts (B : Board Task Token Owner Event) (h : List (Label Task Event))
    (m : Mailbox Owner Event) (o : Option (Task × Activation Event)) : Prop where
  in_progress : m.dispatching = o.isSome
  closed : m.ready = false → m.waiting = []
  own_record : ∀ r ∈ inFlight o, ∃ e, r = B.recordFor e
  all : removals h = (invocations h).map B.recordFor ++ inFlight o
  session : ∀ h₁ t l, h = h₁ ++ .prepared t true :: l → NoStop l →
    m.ready = true ∧
      (queuedPosts l).map B.recordFor = removals l ++ m.waiting.map B.recordFor ∧
      removals l = (invocations l).map B.recordFor ++ inFlight o
  since_stop : ∀ h₁ t l, h = h₁ ++ .stopped t :: l →
    (removals l ++ m.waiting.map B.recordFor).Sublist ((queuedPosts l).map B.recordFor) ∧
      ∃ early, early.length ≤ 1 ∧
        early ++ removals l = (invocations l).map B.recordFor ++ inFlight o
  stopped : ∀ h₁ t l, h = h₁ ++ .stopped t :: l → NoPrepare l →
    m.ready = false ∧ removals l = [] ∧ queuedPosts l = []
  opened : m.ready = true → ∃ h₁ t l, h = h₁ ++ .prepared t true :: l ∧ NoStop l
  overrun : m.overrun = true ↔ ∃ h₁ p e l, h = h₁ ++ .posted p e .full :: l ∧ NoPrepare l ∧
    ∀ u, .overrunCleared u ∉ l

omit [DecidableEq Task] [DecidableEq Event] in
theorem length_inFlight_le (o : Option (Task × Activation Event)) : (inFlight o).length ≤ 1 := by
  unfold inFlight
  split <;> simp

omit [DecidableEq Task] [DecidableEq Event] in
/-- What is removed and what is started, one label later. -/
theorem started_snoc (early : List (DispatchRecord Event)) {l : List (Label Task Event)}
    (hflight : inFlight o ++ removals [x] = (invocations [x]).map B.recordFor ++ inFlight o')
    (hf : early ++ removals l = (invocations l).map B.recordFor ++ inFlight o) :
    early ++ removals (l ++ [x]) = (invocations (l ++ [x])).map B.recordFor ++ inFlight o' :=
  calc early ++ removals (l ++ [x])
      = (invocations l).map B.recordFor ++ (inFlight o ++ removals [x]) := by
        rw [removals_append, ← List.append_assoc, hf, List.append_assoc]
    _ = (invocations (l ++ [x])).map B.recordFor ++ inFlight o' := by
        rw [hflight, invocations_append, List.map_append, List.append_assoc]

omit [DecidableEq Task] in
/-- What is removed after a `stop` was posted after it, one label later. -/
theorem Effect.sublist_snoc {l : List (Label Task Event)} (hi : m.dispatching = o.isSome)
    (hcl : m'.ready = false → m'.waiting = []) (he : Effect B m o x m' o')
    (hsub : (removals l ++ m.waiting.map B.recordFor).Sublist
      ((queuedPosts l).map B.recordFor)) :
    (removals (l ++ [x]) ++ m'.waiting.map B.recordFor).Sublist
      ((queuedPosts (l ++ [x])).map B.recordFor) := by
  rcases he.continues hi hcl with hs | ⟨hn, hw⟩
  · have hsub' := hsub.append (List.Sublist.refl ((queuedPosts [x]).map B.recordFor))
    rw [List.append_assoc, ← List.map_append, hs, ← List.append_assoc, ← removals_append,
      ← List.map_append, ← queuedPosts_append] at hsub'
    exact hsub'
  · have hsub' := ((List.sublist_append_left _ _).trans hsub).trans
      (List.sublist_append_left _ ((queuedPosts [x]).map B.recordFor))
    rw [← List.map_append, ← queuedPosts_append] at hsub'
    simpa [removals_append, hn, hw] using hsub'

omit [DecidableEq Task] in
/-- An open session was opened by a `prepare`, and there was no `stop` since. -/
theorem Accounts.opened_step (ha : Accounts B h m o) (he : Effect B m o x m' o')
    (hr : m'.ready = true) :
    ∃ h₁ t l, h ++ [x] = h₁ ++ .prepared t true :: l ∧ NoStop l := by
  by_cases hxp : ∃ u, x = .prepared u true
  · obtain ⟨u, rfl⟩ := hxp
    exact ⟨h, u, [], rfl, fun v hv => by simp at hv⟩
  · have hxp' : ∀ u, x ≠ .prepared u true := fun u hu => hxp ⟨u, hu⟩
    have hr0 : m.ready = true := by
      by_contra hf
      have := (he.account.stays_closed (by simpa using hf) hxp').1
      rw [hr] at this
      cases this
    obtain ⟨h₁, t, l, rfl, hl⟩ := ha.opened hr0
    refine ⟨h₁, t, l ++ [x], by simp, fun u hu => ?_⟩
    rcases List.mem_append.mp hu with hu | hu
    · exact hl u hu
    · obtain rfl : Label.stopped u = x := by simpa using hu
      rw [he.stops.1] at hr
      cases hr

omit [DecidableEq Task] in
/-- `overrun_` is a post that found the ring full, with no `prepare` and no clearing since. -/
theorem Accounts.overrun_step (ha : Accounts B h m o) (he : Effect B m o x m' o') :
    m'.overrun = true ↔ ∃ h₁ p e l, h ++ [x] = h₁ ++ .posted p e .full :: l ∧ NoPrepare l ∧
      ∀ u, .overrunCleared u ∉ l := by
  rw [he.overrun_iff, ha.overrun]
  constructor
  · rintro (⟨p, e, rfl⟩ | ⟨⟨h₁, p, e, l, rfl, hp, hc⟩, hxp, hxc⟩)
    · exact ⟨h, p, e, [], rfl, fun u hu => by simp at hu, fun u hu => by simp at hu⟩
    · refine ⟨h₁, p, e, l ++ [x], by simp, fun u hu => ?_, fun u hu => ?_⟩
      · rcases List.mem_append.mp hu with hu | hu
        · exact hp u hu
        · exact hxp u (List.mem_singleton.mp hu).symm
      · rcases List.mem_append.mp hu with hu | hu
        · exact hc u hu
        · exact hxc u (List.mem_singleton.mp hu).symm
  · rintro ⟨h₁, p, e, l, hs, hp, hc⟩
    rcases Runs.split_snoc (o := some x) hs with ⟨hx, -, -⟩ | ⟨l', rfl, e'⟩
    · exact .inl ⟨p, e, Option.some.inj hx⟩
    · exact .inr ⟨⟨h₁, p, e, l', e', fun u hu => hp u (by simp [hu]),
        fun u hu => hc u (by simp [hu])⟩, fun u hu => hp u (by simp [hu]),
        fun u hu => hc u (by simp [hu])⟩

omit [DecidableEq Task] in
/-- **A step keeps the accounts.** -/
theorem Accounts.step (ha : Accounts B h m o) (hd : m'.dispatching = o'.isSome)
    (hcl : m'.ready = false → m'.waiting = []) (he : Effect B m o x m' o') :
    Accounts B (h ++ [x]) m' o' := by
  have hac := he.account
  obtain ⟨hflight, hown⟩ := hac.flight ha.own_record
  refine ⟨hd, hcl, hown, started_snoc [] hflight ha.all, fun h₁ t l e hl => ?_,
    fun h₁ t l e => ?_, fun h₁ t l e hl => ?_, ha.opened_step he, ha.overrun_step he⟩
  · rcases Runs.split_snoc (o := some x) e with ⟨hx, -, rfl⟩ | ⟨l', rfl, e'⟩
    · obtain rfl : x = .prepared t true := by simpa using hx
      obtain ⟨-, -, rfl, hr, hw, -⟩ := he.opens ha.in_progress
      exact ⟨hr, by simp [queuedPosts, removals, hw], rfl⟩
    · have hl' : NoStop l' := fun u hu => hl u (List.mem_append_left _ hu)
      have hxs : ∀ u, x ≠ .stopped u := fun u hu => hl u (by simp [hu])
      obtain ⟨hr, hq, hf⟩ := ha.session h₁ t l' e' hl'
      obtain ⟨hr', hq'⟩ := hac.stays_open hr hxs
      refine ⟨hr', ?_, started_snoc [] hflight hf⟩
      calc (queuedPosts (l' ++ [x])).map B.recordFor
          = removals l' ++ (m.waiting ++ queuedPosts [x]).map B.recordFor := by
            rw [queuedPosts_append, List.map_append, hq, List.map_append, List.append_assoc]
        _ = removals (l' ++ [x]) ++ m'.waiting.map B.recordFor := by
            rw [hq', removals_append, List.append_assoc]
  · rcases Runs.split_snoc (o := some x) e with ⟨hx, -, rfl⟩ | ⟨l', rfl, e'⟩
    · obtain rfl : x = .stopped t := by simpa using hx
      obtain ⟨-, hw, rfl⟩ := he.stops
      exact ⟨by simp [hw, removals], inFlight o', length_inFlight_le o',
        by simp [removals, invocations]⟩
    · obtain ⟨hsub, early, hle, hf⟩ := ha.since_stop h₁ t l' e'
      exact ⟨he.sublist_snoc ha.in_progress hcl hsub, early, hle, started_snoc early hflight hf⟩
  · rcases Runs.split_snoc (o := some x) e with ⟨hx, -, rfl⟩ | ⟨l', rfl, e'⟩
    · obtain rfl : x = .stopped t := by simpa using hx
      exact ⟨he.stops.1, rfl, rfl⟩
    · have hl' : NoPrepare l' := fun u hu => hl u (List.mem_append_left _ hu)
      have hxp : ∀ u, x ≠ .prepared u true := fun u hu => hl u (by simp [hu])
      obtain ⟨hr, hn, hq⟩ := ha.stopped h₁ t l' e' hl'
      obtain ⟨hr', hn', hq'⟩ := hac.stays_closed hr hxp
      exact ⟨hr', by simp [hn, hn'], by simp [hq, hq']⟩

omit [DecidableEq Task] [DecidableEq Event] in
theorem Accounts.initial (owner : Owner) :
    Accounts B ([] : List (Label Task Event)) ⟨[], false, false, false, owner⟩ none where
  in_progress := rfl
  closed _ := rfl
  own_record r hr := by simp [inFlight] at hr
  all := rfl
  session h₁ t l e := by simp at e
  since_stop h₁ t l e := by simp at e
  stopped h₁ t l e := by simp at e
  opened hr := by cases hr
  overrun := by simp

/-! ### The queue after a schedule -/

theorem accounts (owner : Owner) (as : List (Action Task Event)) :
    ∃ m o, Tracks (System.after B owner as).1 m o ∧
      Accounts B (System.after B owner as).2 m o :=
  tracks_induct owner (.initial owner) (fun _ _ _ _ _ _ ha hd hc he => ha.step hd hc he) as

/-- **Between a `stop` and the next session** no post is queued, and at most one callback starts. -/
theorem quiet_since_stop {owner : Owner} {as : List (Action Task Event)} {h₁ l rest : List (Label Task Event)}
    {t : Task} (e : (System.after B owner as).2 = h₁ ++ .stopped t :: (l ++ rest)) (hl : NoPrepare l) :
    queuedPosts l = [] ∧ (invocations l).length ≤ 1 := by
  obtain ⟨as₁, h⟩ := (System.machine B).run_begins (e.trans (List.append_assoc h₁ (.stopped t :: l) rest).symm)
  obtain ⟨m, o, -, ha⟩ := accounts (B := B) owner as₁
  obtain ⟨-, hremoved, hqueued⟩ := ha.stopped h₁ t l h hl
  obtain ⟨-, early, hearly, hstarted⟩ := ha.since_stop h₁ t l h
  have hlength := congrArg List.length hstarted
  rw [hremoved, List.append_nil, List.length_append, List.length_map] at hlength
  exact ⟨hqueued, by omega⟩

omit [DecidableEq Task] [DecidableEq Event] in
/-- A record in flight is that of an event. -/
theorem Accounts.in_flight (ha : Accounts B h m o) {t : Task} {a : Activation Event}
    {r : DispatchRecord Event} (ho : o = some (t, a)) (hr : a.point = .invoke r) :
    ∃ e, r = B.recordFor e ∧ inFlight o = [r] := by
  have hflight : inFlight o = [r] := by rw [ho, inFlight_some, hr]
  obtain ⟨e, he⟩ := ha.own_record r (hflight ▸ List.mem_singleton_self r)
  exact ⟨e, he, hflight⟩

/-- A call that stands at the record of an event starts its handler next. -/
theorem Tracks.advance_invoke (ht : Tracks s m o) {t : Task} {a : Activation Event} {e : Event}
    (hm : a ∈ s.frames t) (ha : a.point = .invoke (B.recordFor e)) :
    (s.step (.advance t)).2 = some (.invoked t a.call e) := by
  cases hf : s.frames t with
  | nil => simp [hf] at hm
  | cons b below =>
      -- nothing but callbacks waits below the top of a stack
      obtain rfl : a = b := by
        rw [hf, List.mem_cons] at hm
        refine hm.resolve_right fun hb => ?_
        have := ht.suspended t b below hf a hb
        rw [ha] at this
        cases this
      simp [System.step, hf, System.advance, ha, Board.recordFor]

/-- A step shows a label only as one of `Step`. -/
theorem System.step_some {c : Action Task Event} {s' : System B}
    (hc : s.step c = (s', some x)) : s.Step x s' := by
  rcases s.step_cases c with hn | ⟨y, s'', hy, hs⟩
  · rw [hn] at hc; cases hc
  · rw [hy] at hc; cases hc; exact hs

/-- A post that returns `full` finds the ring full and changes nothing but `overrun_`. -/
theorem System.step_full {p : Option Task} {e : Event} {s' : System B}
    (hs : s.Step (.posted p e .full) s') :
    s.queue.held.length = B.capacity ∧ s' = { s with queue := { s.queue with overrun := true } } := by
  generalize hx : Label.posted p e .full = x at hs
  cases hs with
  | post p' e' =>
      obtain ⟨-, rfl, hr⟩ := Label.posted.inj hx
      unfold Queue.postWithGuard at hr ⊢
      split_ifs at hr ⊢ with h1 h2 h3
      exact ⟨by simpa [Queue.held] using h3, rfl⟩
  | _ => cases hx

/-- **The queue is an exactly-once bounded FIFO**, after every schedule. -/
theorem main_loop_queue_exactly_once_fifo (B : Board Task Token Owner Event) (owner : Owner)
    (as : List (Action Task Event)) :
    let s := (System.after B owner as).1
    let h := (System.after B owner as).2
    -- within a session
    (∀ h₁ t l, h = h₁ ++ .prepared t true :: l → NoStop l →
      (queuedPosts l).map B.recordFor = removals l ++ s.queue.held ∧
        ∃ rs, s.Unstarted rs ∧ removals l = (invocations l).map B.recordFor ++ rs) ∧
    -- over sessions: each removal starts its own handler once, and nothing else starts one
    (∃ rs, s.Unstarted rs ∧ removals h = (invocations h).map B.recordFor ++ rs) ∧
    (∀ t a r, a ∈ s.frames t → a.point = .invoke r → ∃ e, r = B.recordFor e ∧
      (s.step (.advance t)).2 = some (.invoked t a.call e)) ∧
    -- never more than `capacity`
    (s.queue.held.length = s.queue.count.toNat ∧ s.queue.count.toNat ≤ B.capacity) ∧
    -- what a `stop` found in the ring is never removed: later removals are of later posts
    (∀ h₁ t l, h = h₁ ++ .stopped t :: l →
      (removals l ++ s.queue.held).Sublist ((queuedPosts l).map B.recordFor) ∧
        ∃ early rs, early.length ≤ 1 ∧ s.Unstarted rs ∧
          early ++ removals l = (invocations l).map B.recordFor ++ rs) ∧
    -- until the next session at most one callback starts, of a record removed before
    (∀ h₁ t l, h = h₁ ++ .stopped t :: l → NoPrepare l →
      s.queue.held = [] ∧ removals l = [] ∧
        ∃ rs, s.Unstarted rs ∧ (invocations l).length + rs.length ≤ 1) ∧
    -- a session opens only when no call is in progress
    (∀ c t s', s.step c = (s', some (.prepared t true)) →
      (∀ u, ∀ a ∈ s.frames u, a.inProgress = false) ∧ s'.queue.held = []) ∧
    -- a full ring
    (∀ c p e s', s.step c = (s', some (.posted p e .full)) →
      s.queue.held.length = B.capacity ∧
        s' = { s with queue := { s.queue with overrun := true } }) ∧
    (s.queue.overrun = true ↔ ∃ h₁ p e l, h = h₁ ++ .posted p e .full :: l ∧ NoPrepare l ∧
      ∀ u, .overrunCleared u ∉ l) := by
  obtain ⟨m, o, ht, ha⟩ := accounts owner as
  intro s h
  have hheld : s.queue.held = m.waiting.map B.recordFor := ht.represents.held_eq
  refine ⟨fun h₁ t l e hl => ?_, ⟨_, ht.unstarted, ha.all⟩, fun t a r hm har => ?_, ⟨?_, ?_⟩,
    fun h₁ t l e => ?_, fun h₁ t l e hl => ?_, fun c t s' hc => ?_, fun c p e s' hc => ?_, ?_⟩
  · obtain ⟨-, hq, hr⟩ := ha.session h₁ t l e hl
    exact ⟨by rw [hheld, hq], _, ht.unstarted, hr⟩
  · have ho := ht.eq_of_inProgress hm (by simp [Activation.inProgress, har])
    obtain ⟨e, rfl, -⟩ := ha.in_flight ho har
    exact ⟨e, rfl, ht.advance_invoke hm har⟩
  · simp [Queue.held]
  · exact ht.represents.count_le
  · obtain ⟨hsub, early, hle, hf⟩ := ha.since_stop h₁ t l e
    exact ⟨by rwa [hheld], early, _, hle, ht.unstarted, hf⟩
  · obtain ⟨hr, hn, -⟩ := ha.stopped h₁ t l e hl
    obtain ⟨-, early, hle, hf⟩ := ha.since_stop h₁ t l e
    refine ⟨by rw [hheld, (ht.represents.closed hr).1]; rfl, hn, _, ht.unstarted, ?_⟩
    have := congrArg List.length hf
    simp only [hn, List.append_nil, List.length_append, List.length_map] at this
    omega
  · obtain ⟨m', o', he, ht'⟩ := ht.step (System.step_some hc)
    obtain ⟨-, rfl, -, -, hw, -⟩ := he.opens ht.dispatching
    refine ⟨fun u a hm => ?_, by rw [ht'.represents.held_eq, hw]; rfl⟩
    by_contra hp
    cases ht.eq_of_inProgress hm (by simpa using hp)
  · exact System.step_full (System.step_some hc)
  · rw [ht.represents.overrun_eq]
    exact ha.overrun

end Grevir.Event
