import Grevir.Event.Fifo

/-!
# Event — Elide

An `Elide` event is a notification: while it waits, a further post adds nothing, and it is lost only
to a `stop`.

* `Represents.countP_held`: the ring holds as many records of an event as the event waits times, and
  by `Represents` an `Elide` event waits once when its flag is up and never when it is down.
* `Kept`: a post that returned `queued` or `coalesced` is answered by a later removal, by a record
  that still waits, or by a `stop`.
-/

namespace Grevir.Event

variable {Task Token Owner Event : Type} [DecidableEq Event]
variable {B : Board Task Token Owner Event}
variable {m m' : Mailbox Owner Event} {o o' : Option (Task × Activation Event)}
variable {h : List (Label Task Event)} {x : Label Task Event}

omit [DecidableEq Event] in
theorem Board.recordFor_injective : Function.Injective B.recordFor := fun e e' h => by
  simpa [Board.recordFor] using congrArg DispatchRecord.invoke h

/-! ### The flag and the ring -/

theorem Represents.countP_held {q : Queue B} (hq : Represents q m) (e : Event) :
    q.held.countP (fun r => r.invoke = some e) = m.waiting.count e := by
  rw [hq.held_eq, List.countP_map, List.count]
  refine List.countP_congr fun d _ => ?_
  simp [Board.recordFor]

/-- The flag of an `Elide` event is up when one record of the event is held, and down when none
is; there is no third case. -/
theorem Represents.pending_iff_count {q : Queue B} (hq : Represents q m) {e : Event}
    (he : B.delivery e = .elide) :
    (q.pending e = true ↔ q.held.countP (fun r => r.invoke = some e) = 1) ∧
      (q.pending e = false ↔ q.held.countP (fun r => r.invoke = some e) = 0) := by
  have hle := hq.once e he
  have hmem : e ∈ m.waiting ↔ 0 < m.waiting.count e := List.count_pos_iff.symm
  have hp : q.pending e = true ↔ 0 < m.waiting.count e := by
    rw [hq.pending_iff, hmem, and_iff_right he]
  rw [hq.countP_held, ← Bool.not_eq_true, hp]
  omega

theorem Represents.pending_stream {q : Queue B} (hq : Represents q m) {e : Event}
    (he : B.delivery e = .stream) : q.pending e = false := by
  rw [← Bool.not_eq_true, hq.pending_iff, he]
  simp

theorem Represents.pending_empty {q : Queue B} (hq : Represents q m) (hw : m.waiting = [])
    (e : Event) : q.pending e = false := by
  rw [← Bool.not_eq_true, hq.pending_iff, hw]
  simp

/-! ### What becomes of a post -/

/-- Each `Elide` post that was taken has been answered by a removal, still waits, or was dropped by
a `stop`. -/
def Kept (B : Board Task Token Owner Event) (h : List (Label Task Event))
    (m : Mailbox Owner Event) : Prop :=
  ∀ h₁ p e r l, h = h₁ ++ .posted p e r :: l → B.delivery e = .elide →
    r = .queued ∨ r = .coalesced →
      B.recordFor e ∈ removals l ∨ e ∈ m.waiting ∨ ∃ u, .stopped u ∈ l

/-- The event of a post that was taken waits. -/
theorem Effect.taken {p : Option Task} {e : Event} {r : PostResult}
    (he : Effect B m o (.posted p e r) m' o') (hr : r = .queued ∨ r = .coalesced) :
    e ∈ m'.waiting := by
  generalize hx : Label.posted p e r = x at he
  cases he with
  | post p' e' =>
      obtain ⟨-, rfl, rfl⟩ := Label.posted.inj hx
      revert hr
      unfold Mailbox.post
      split_ifs with h1 h2 h3
      · simp
      · exact fun _ => h2.2
      · simp
      · exact fun _ => by simp
  | _ => cases hx

/-- An event that waits is removed, waits on, or is dropped by a `stop`. -/
theorem Effect.waits {e : Event} (hcl : m.ready = false → m.waiting = [])
    (he : Effect B m o x m' o') (hw : e ∈ m.waiting) :
    B.recordFor e ∈ removals [x] ∨ e ∈ m'.waiting ∨ ∃ u, x = .stopped u := by
  by_cases hs : ∃ u, x = .stopped u
  · exact .inr (.inr hs)
  · push Not at hs
    have hr : m.ready = true := by
      by_contra hf
      rw [hcl (by simpa using hf)] at hw
      cases hw
    have hm : B.recordFor e ∈ (m.waiting ++ queuedPosts [x]).map B.recordFor :=
      List.mem_map_of_mem (List.mem_append_left _ hw)
    rw [(he.account.stays_open hr hs).2, List.mem_append,
      List.mem_map_of_injective Board.recordFor_injective] at hm
    exact hm.imp_right .inl

/-- **A step keeps every notification.** -/
theorem Kept.step (hk : Kept B h m) (hcl : m.ready = false → m.waiting = [])
    (he : Effect B m o x m' o') : Kept B (h ++ [x]) m' := by
  intro h₁ p e r l hs hd hr
  rcases Runs.split_snoc (o := some x) hs with ⟨hx, -, rfl⟩ | ⟨l', rfl, rfl⟩
  · obtain rfl : x = .posted p e r := by simpa using hx
    exact .inr (.inl (he.taken hr))
  · rw [Option.toList_some, removals_append, List.mem_append]
    rcases hk h₁ p e r l' rfl hd hr with hrem | hw | ⟨u, hu⟩
    · exact .inl (.inl hrem)
    · rcases he.waits hcl hw with hrem | hw' | ⟨u, rfl⟩
      · exact .inl (.inr hrem)
      · exact .inr (.inl hw')
      · exact .inr (.inr ⟨u, by simp⟩)
    · exact .inr (.inr ⟨u, List.mem_append_left _ hu⟩)

omit [DecidableEq Event] in
/-- Within a session an event that waits was posted in it. -/
theorem Accounts.posted_of_waiting (ha : Accounts B h m o) {h₁ l : List (Label Task Event)}
    {t : Task} {e : Event} (hs : h = h₁ ++ .prepared t true :: l) (hn : NoStop l)
    (hw : e ∈ m.waiting) : ∃ p, .posted p e .queued ∈ l := by
  obtain ⟨-, hq, -⟩ := ha.session h₁ t l hs hn
  have hm : B.recordFor e ∈ (queuedPosts l).map B.recordFor := by
    rw [hq]
    exact List.mem_append_right _ (List.mem_map_of_mem hw)
  rw [List.mem_map_of_injective Board.recordFor_injective, queuedPosts,
    List.mem_filterMap] at hm
  obtain ⟨y, hy, he⟩ := hm
  split at he
  · cases he
    exact ⟨_, hy⟩
  · cases he

/-! ### After every schedule -/

variable [DecidableEq Task]

theorem accounts_kept (owner : Owner) (as : List (Action Task Event)) :
    ∃ m o, Tracks (System.after B owner as).1 m o ∧ Accounts B (System.after B owner as).2 m o ∧
      Kept B (System.after B owner as).2 m := by
  refine tracks_induct (P := fun h m o => Accounts B h m o ∧ Kept B h m) owner
    ⟨.initial owner, ?_⟩ (fun h m o x m' o' ⟨ha, hk⟩ hd hc he => ?_) as
  · intro h₁ p e r l hs
    simp at hs
  · exact ⟨ha.step hd hc he, hk.step ha.closed he⟩

/-- **No `Elide` notification is lost or doubled**, after every schedule. -/
theorem elide_notification_not_lost_nor_doubled (B : Board Task Token Owner Event) (owner : Owner)
    (as : List (Action Task Event)) :
    let s := (System.after B owner as).1
    let h := (System.after B owner as).2
    -- the flag is up exactly when one record of the event is held, and down when none is
    (∀ e, B.delivery e = .elide →
      (s.queue.pending e = true ↔ s.queue.held.countP (fun r => r.invoke = some e) = 1) ∧
      (s.queue.pending e = false ↔ s.queue.held.countP (fun r => r.invoke = some e) = 0)) ∧
    (∀ e, B.delivery e = .stream → s.queue.pending e = false) ∧
    -- a post that was taken
    (∀ h₁ p e r l, h = h₁ ++ .posted p e r :: l → B.delivery e = .elide →
      r = .queued ∨ r = .coalesced →
        B.recordFor e ∈ removals l ∨ B.recordFor e ∈ s.queue.held ∨ ∃ u, .stopped u ∈ l) ∧
    -- after a `stop`, until the next session
    (∀ h₁ t l, h = h₁ ++ .stopped t :: l → NoPrepare l → ∀ e, s.queue.pending e = false) ∧
    -- the first post of an event in a session
    (∀ h₁ t l c p e r s', h = h₁ ++ .prepared t true :: l → NoStop l → (∀ p r, .posted p e r ∉ l) →
      s.step c = (s', some (.posted p e r)) → r = .queued ∨ r = .full) := by
  obtain ⟨m, o, ht, ha, hk⟩ := accounts_kept (B := B) owner as
  intro s h
  have hq : Represents s.queue m := ht.represents
  refine ⟨fun e he => hq.pending_iff_count he, fun e he => hq.pending_stream he,
    fun h₁ p e r l hs hd hr => ?_, fun h₁ t l hs hn e => ?_,
    fun h₁ t l c p e r s' hs hn hnp hc => ?_⟩
  · rw [hq.held_eq, List.mem_map_of_injective Board.recordFor_injective]
    exact hk h₁ p e r l hs hd hr
  · exact hq.pending_empty (ha.closed (ha.stopped h₁ t l hs hn).1) e
  · obtain ⟨m', o', he, -⟩ := ht.step (System.step_some hc)
    have hready := (ha.session h₁ t l hs hn).1
    have hnw : e ∉ m.waiting := fun hw =>
      have ⟨p', hp⟩ := ha.posted_of_waiting hs hn hw
      hnp p' .queued hp
    generalize hx : Label.posted p e r = x at he
    cases he with
    | post p' e' =>
        obtain ⟨-, rfl, rfl⟩ := Label.posted.inj hx
        unfold Mailbox.post
        simp only [hready, Bool.not_true, Bool.false_eq_true, if_false, hnw, and_false]
        split_ifs
        · exact .inr rfl
        · exact .inl rfl
    | _ => cases hx

end Grevir.Event
