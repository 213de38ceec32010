import Grevir.Event.Queue
import Mathlib.Data.List.Count

/-!
# Event — Mailbox

What the queue is for: a bounded mailbox of events, oldest first, open between a `prepare` and the
next `stop`, in which an `Elide` event that already waits is not posted again.  A `Mailbox` is that
list with the three flags and the owner; `Represents q m` reads a queue as a mailbox.

* `Represents.prepare`, `.stop`, `.post`, `.enter`, `.remove`, `.leave`, `.clearOverrun`: each
  section of the queue answers as the mailbox operation does, and leaves a queue that represents
  the mailbox the operation leaves.
* `Represents` holds the ring's own invariant: the window is the waiting list, a `Pending` flag is up
  exactly for an `Elide` event that waits, and a queue that is not ready stands at slot zero.
-/

namespace Grevir.Event

/-- The events that wait, oldest first, and the queue's flags and owner. -/
structure Mailbox (Owner Event : Type) where
  waiting : List Event
  ready : Bool
  overrun : Bool
  dispatching : Bool
  owner : Owner

variable {Task Token Owner Event : Type} [DecidableEq Event]

namespace Mailbox

variable (B : Board Task Token Owner Event) (m : Mailbox Owner Event)

omit [DecidableEq Event] in
def prepare (current : Token) : Bool × Mailbox Owner Event :=
  if m.ready || m.dispatching then (false, m)
  else (true, ⟨[], true, false, m.dispatching, B.context.bind current m.owner⟩)

def stop : Mailbox Owner Event := { m with waiting := [], ready := false }

def post (e : Event) : PostResult × Mailbox Owner Event :=
  if !m.ready then (.notReady, m)
  else if B.delivery e = .elide ∧ e ∈ m.waiting then (.coalesced, m)
  else if m.waiting.length = B.capacity then (.full, { m with overrun := true })
  else (.queued, { m with waiting := m.waiting ++ [e] })

def enter (current : Token) : Option (Mailbox Owner Event) :=
  if !m.ready || m.dispatching || !B.context.isOwner current m.owner then none
  else some { m with dispatching := true }

def remove : Option (Event × Mailbox Owner Event) :=
  match m.waiting with
  | e :: rest => if m.ready then some (e, { m with waiting := rest }) else none
  | [] => none

def leave : Mailbox Owner Event := { m with dispatching := false }

def clearOverrun : Mailbox Owner Event := { m with overrun := false }

variable {B m}

omit [DecidableEq Event] in
theorem enter_some {current : Token} {m' : Mailbox Owner Event} :
    m.enter B current = some m' ↔
      m.ready = true ∧ m.dispatching = false ∧ B.context.isOwner current m.owner = true ∧
        m' = { m with dispatching := true } := by
  unfold enter
  cases m.ready <;> cases m.dispatching <;> cases B.context.isOwner current m.owner <;>
    simp [eq_comm]

omit [DecidableEq Event] in
theorem remove_none : m.remove = none ↔ m.ready = false ∨ m.waiting = [] := by
  unfold remove
  cases m.waiting <;> simp

omit [DecidableEq Event] in
theorem remove_some {e : Event} {m' : Mailbox Owner Event} :
    m.remove = some (e, m') ↔
      ∃ rest, m.ready = true ∧ m.waiting = e :: rest ∧ m' = { m with waiting := rest } := by
  unfold remove
  cases m.waiting with
  | nil => simp
  | cons d rest => cases m.ready <;> simp [eq_comm]

end Mailbox

variable {B : Board Task Token Owner Event}

/-- A queue read as a mailbox. -/
structure Represents (q : Queue B) (m : Mailbox Owner Event) : Prop where
  head_lt : q.head.toNat < B.capacity
  held_eq : q.held = m.waiting.map B.recordFor
  bounded : m.waiting.length ≤ B.capacity
  pending_iff : ∀ e, q.pending e = true ↔ B.delivery e = .elide ∧ e ∈ m.waiting
  once : ∀ e, B.delivery e = .elide → m.waiting.count e ≤ 1
  closed : m.ready = false → m.waiting = [] ∧ q.head = 0
  ready_eq : q.ready = m.ready
  overrun_eq : q.overrun = m.overrun
  dispatching_eq : q.dispatching = m.dispatching
  owner_eq : q.owner = m.owner

namespace Represents

variable {q : Queue B} {m : Mailbox Owner Event}

theorem count_eq (h : Represents q m) : q.count.toNat = m.waiting.length := by
  have := congrArg List.length h.held_eq
  simpa [Queue.held] using this

theorem count_le (h : Represents q m) : q.count.toNat ≤ B.capacity := h.count_eq ▸ h.bounded

theorem count_eq_zero (h : Represents q m) : q.count = 0 ↔ m.waiting = [] := by
  rw [← List.length_eq_zero_iff, ← h.count_eq]
  exact ⟨fun e => by simp [e], fun e => BitVec.eq_of_toNat_eq (by simpa using e)⟩

omit [DecidableEq Event] in
@[simp] theorem recordFor_argument (e e' : Event) :
    (B.recordFor e).argument = some e' ↔ B.delivery e = .elide ∧ e = e' := by
  unfold Board.recordFor
  by_cases h : B.delivery e = .elide <;> simp [h]

/-- The members before `main` starts. -/
theorem initial (owner : Owner) :
    Represents (Queue.initial B owner) ⟨[], false, false, false, owner⟩ where
  head_lt := by simpa [Queue.initial] using B.capacity_pos
  held_eq := by simp [Queue.initial, Queue.held]
  bounded := Nat.zero_le _
  pending_iff e := by simp [Queue.initial]
  once e _ := by simp
  closed _ := ⟨rfl, rfl⟩
  ready_eq := rfl
  overrun_eq := rfl
  dispatching_eq := rfl
  owner_eq := rfl

/-! ### `clear_records` -/

/-- The flags the loop leaves up: those no record it visits points to. -/
theorem foldl_clearRecord (rs : List (DispatchRecord Event)) (p : Event → Bool) (e : Event) :
    rs.foldl (fun p r => Queue.clearRecord r p) p e = true ↔
      p e = true ∧ ∀ r ∈ rs, r.argument ≠ some e := by
  induction rs generalizing p with
  | nil => simp
  | cons r rs ih =>
      rw [List.foldl_cons, ih]
      unfold Queue.clearRecord
      cases hr : r.argument with
      | none => simp [hr]
      | some d =>
          by_cases hd : e = d
          · subst hd; simp [hr]
          · simp [hr, Function.update_of_ne hd, Ne.symm hd]

/-- The loop visits each held slot once, from `i` to the last. -/
theorem clearFrom_eq (q : Queue B) (hh : q.head.toNat ≤ B.capacity)
    (hc : q.count.toNat ≤ B.capacity) (i : B.IndexType) (p : Event → Bool) :
    Queue.clearFrom q.records q.head q.count i p =
      (q.held.drop i.toNat).foldl (fun p r => Queue.clearRecord r p) p := by
  induction i, p using Queue.clearFrom.induct q.records q.head q.count with
  | case1 i p hi ih =>
      have hlt : i.toNat < q.count.toNat := hi
      have hl : i.toNat < q.held.length := by simpa [Queue.held] using hlt
      rw [Queue.clearFrom, if_pos hi, ih, List.drop_eq_getElem_cons hl, List.foldl_cons,
        B.toNat_succ hlt]
      simp only [Queue.held, Ring.window, List.getElem_map, List.getElem_range,
        B.toNat_slot hh (hlt.le.trans hc)]
  | case2 i p hi =>
      have hle : q.count.toNat ≤ i.toNat := Nat.le_of_not_lt hi
      rw [Queue.clearFrom, if_neg hi, List.drop_eq_nil_of_le (by simpa [Queue.held] using hle)]
      rfl

/-- After `clear_records` no flag is up. -/
theorem clearRecords_pending (h : Represents q m) (e : Event) :
    q.clearRecords.pending e = false := by
  rw [← Bool.not_eq_true]
  simp only [Queue.clearRecords, clearFrom_eq q h.head_lt.le h.count_le]
  rw [foldl_clearRecord]
  rintro ⟨hp, hr⟩
  obtain ⟨hd, hm⟩ := (h.pending_iff e).mp hp
  refine hr (B.recordFor e) ?_ ((recordFor_argument e e).mpr ⟨hd, rfl⟩)
  simpa [h.held_eq] using ⟨e, hm, rfl⟩

/-! ### The sections -/

/-- A queue with no record, no flag up and the ring at slot zero. -/
theorem cleared (h : Represents q m) (q' : Queue B) (hp : q'.pending = q.clearRecords.pending)
    (hh : q'.head = 0) (hc : q'.count = 0) :
    Represents q' ⟨[], q'.ready, q'.overrun, q'.dispatching, q'.owner⟩ where
  head_lt := by simpa [hh] using B.capacity_pos
  held_eq := by simp [Queue.held, hc]
  bounded := Nat.zero_le _
  pending_iff e := by simp [hp, h.clearRecords_pending e]
  once e _ := by simp
  closed _ := ⟨rfl, hh⟩
  ready_eq := rfl
  overrun_eq := rfl
  dispatching_eq := rfl
  owner_eq := rfl

theorem prepare (h : Represents q m) (current : Token) :
    (q.prepare current).1 = (m.prepare B current).1 ∧
      Represents (q.prepare current).2 (m.prepare B current).2 := by
  unfold Mailbox.prepare
  rw [← h.ready_eq, ← h.dispatching_eq]
  cases hr : q.ready with
  | true =>
      rw [Queue.prepare_refused (.inl hr)]
      exact ⟨rfl, h⟩
  | false =>
      cases hd : q.dispatching with
      | true =>
          rw [Queue.prepare_refused (.inr hd)]
          exact ⟨rfl, h⟩
      | false =>
          rw [Queue.prepare_granted hr hd]
          refine ⟨rfl, ?_⟩
          have := h.cleared (q.prepare current).2
          rw [Queue.prepare_granted hr hd] at this
          simpa [Queue.clearRecords, hd, h.owner_eq] using this rfl rfl rfl

theorem stop (h : Represents q m) : Represents q.stop m.stop := by
  have := h.cleared q.stop rfl rfl rfl
  simpa [Queue.stop, Queue.clearRecords, Mailbox.stop, h.overrun_eq, h.dispatching_eq, h.owner_eq]
    using this

/-- A push appends to the window. -/
theorem push (h : Represents q m) {e : Event} (hr : m.ready = true)
    (hp : ¬ (B.delivery e = .elide ∧ e ∈ m.waiting)) (hlt : m.waiting.length < B.capacity) :
    Represents (q.push e) { m with waiting := m.waiting ++ [e] } := by
  have hc : q.count.toNat < B.capacity := h.count_eq ▸ hlt
  refine { h with
    held_eq := ?_, bounded := ?_, pending_iff := fun e' => ?_, once := fun e' he' => ?_,
    closed := fun hf => ?_ }
  · simp only [Queue.held, Queue.push, B.toNat_succ_of_lt_capacity hc,
      B.toNat_slot h.head_lt.le hc.le, Ring.window_push hc, List.map_append, List.map_cons,
      List.map_nil]
    exact congrArg (· ++ [B.recordFor e]) h.held_eq
  · simpa using Nat.succ_le_of_lt hlt
  · simp only [Queue.push, List.mem_append, List.mem_singleton]
    by_cases hd : B.delivery e = .elide
    · by_cases hee : e' = e
      · subst hee; simp [hd]
      · simpa [hd, Function.update_of_ne hee, hee] using h.pending_iff e'
    · have hne : B.delivery e' = .elide → e' ≠ e := fun he hee => hd (hee ▸ he)
      simp only [hd, if_false, h.pending_iff e']
      exact ⟨fun c => ⟨c.1, .inl c.2⟩, fun c => ⟨c.1, c.2.resolve_right (hne c.1)⟩⟩
  · by_cases hee : e = e'
    · subst hee
      have : m.waiting.count e = 0 := List.count_eq_zero.mpr fun hm => hp ⟨he', hm⟩
      simp [this]
    · simpa [List.count_append, hee] using h.once e' he'
  · exact absurd hr (by simpa using hf)

theorem post (h : Represents q m) (e : Event) :
    (q.postWithGuard e).1 = (m.post B e).1 ∧
      Represents (q.postWithGuard e).2 (m.post B e).2 := by
  unfold Mailbox.post
  by_cases hr : m.ready = true
  swap
  · rw [Queue.postWithGuard_notReady (h.ready_eq.trans (by simpa using hr)), if_pos (by simpa using hr)]
    exact ⟨rfl, h⟩
  have hq : q.ready = true := h.ready_eq.trans hr
  rw [if_neg (by simp [hr])]
  by_cases hco : B.delivery e = .elide ∧ e ∈ m.waiting
  · rw [Queue.postWithGuard_coalesced hq hco.1 ((h.pending_iff e).mpr hco), if_pos hco]
    exact ⟨rfl, h⟩
  have hco' : ¬ (B.delivery e = .elide ∧ q.pending e = true) :=
    fun c => hco ((h.pending_iff e).mp c.2)
  rw [if_neg hco]
  by_cases hfull : m.waiting.length = B.capacity
  · rw [Queue.postWithGuard_full hq hco' (h.count_eq.trans hfull), if_pos hfull]
    exact ⟨rfl, { h with overrun_eq := rfl }⟩
  · rw [Queue.postWithGuard_queued hq hco' (h.count_eq ▸ hfull), if_neg hfull]
    exact ⟨rfl, h.push hr hco (lt_of_le_of_ne h.bounded hfull)⟩

theorem enter (h : Represents q m) {current : Token} {q' : Queue B}
    (he : q.dispatchEnter current = some q') :
    ∃ m', m.enter B current = some m' ∧ Represents q' m' := by
  obtain ⟨hr, hd, ho, rfl⟩ := Queue.dispatchEnter_some.mp he
  refine ⟨{ m with dispatching := true }, ?_, { h with dispatching_eq := rfl }⟩
  rw [h.ready_eq] at hr
  rw [h.dispatching_eq] at hd
  rw [h.owner_eq] at ho
  simp [Mailbox.enter, hr, hd, ho]

theorem enter_refused (h : Represents q m) {current : Token}
    (he : q.dispatchEnter current = none) : m.enter B current = none := by
  rw [Queue.dispatchEnter_none, h.ready_eq, h.dispatching_eq, h.owner_eq] at he
  rcases he with he | he | he <;> simp [Mailbox.enter, he]

theorem remove_none (h : Represents q m) (he : q.dispatchRemove = none) : m.remove = none := by
  rw [Queue.dispatchRemove_none, h.ready_eq, h.count_eq_zero] at he
  unfold Mailbox.remove
  split
  · next e rest hw => simp_all
  · rfl

/-- Once its record is cleared, the first event's flag is up no more. -/
theorem pending_pop (h : Represents q m) {e : Event} {rest : List Event} (hw : m.waiting = e :: rest)
    (e' : Event) :
    Queue.clearRecord (B.recordFor e) q.pending e' = true ↔ B.delivery e' = .elide ∧ e' ∈ rest := by
  have hp := h.pending_iff e'
  rw [hw, List.mem_cons] at hp
  simp only [Queue.clearRecord, Board.recordFor]
  by_cases hd : B.delivery e = .elide
  · -- an `Elide` event waits once, so it is not among the rest
    have hnot : e ∉ rest := fun hin => by
      have h1 := h.once e hd
      have h2 := List.count_pos_iff.mpr hin
      rw [hw, List.count_cons_self] at h1
      omega
    simp only [hd, if_true]
    by_cases hee : e' = e
    · subst hee; simp [hnot]
    · simp [hp, hee]
  · have hne : B.delivery e' = .elide → e' ≠ e := fun he hee => hd (hee ▸ he)
    simp only [hd, if_false, hp]
    exact ⟨fun c => ⟨c.1, c.2.resolve_left (hne c.1)⟩, fun c => ⟨c.1, .inr c.2⟩⟩

/-- A pop drops the first of the window. -/
theorem remove (h : Represents q m) {r : DispatchRecord Event} {q' : Queue B}
    (he : q.dispatchRemove = some (r, q')) :
    ∃ e m', r = B.recordFor e ∧ m.remove = some (e, m') ∧ Represents q' m' := by
  obtain ⟨hr, hc⟩ := Queue.of_dispatchRemove he
  rw [Queue.dispatchRemove_some hr hc, Option.some.injEq, Prod.mk.injEq] at he
  obtain ⟨rfl, rfl⟩ := he
  cases hw : m.waiting with
  | nil => exact absurd (h.count_eq_zero.mpr hw) hc
  | cons e rest =>
      have hcn : (q.count - 1).toNat + 1 = q.count.toNat := B.toNat_pred hc
      have hslot : (B.slot q.head.toNat 1).toNat = Ring.cell B.capacity q.head.toNat 1 :=
        B.toNat_slot h.head_lt.le B.capacity_pos
      -- the first of the window is the record at `head_`
      have hheld := h.held_eq
      rw [Queue.held, ← hcn, Ring.window_pop, hw, List.map_cons, List.cons.injEq] at hheld
      obtain ⟨hrec, hrest⟩ := hheld
      rw [Ring.cell, Nat.add_zero, Nat.mod_eq_of_lt h.head_lt] at hrec
      have hm : m.ready = true := h.ready_eq ▸ hr
      refine ⟨e, { m with waiting := rest }, hrec, by simp [Mailbox.remove, hw, hm], { h with
        head_lt := ?_, held_eq := ?_, bounded := ?_, pending_iff := fun e' => ?_
        once := fun e' he' => ?_, closed := fun hf => absurd hm (by simpa using hf) }⟩
      · simp only [hslot]
        exact Ring.cell_lt B.capacity_pos _ _
      · simpa only [Queue.held, hslot] using hrest
      · have := h.bounded
        rw [hw, List.length_cons] at this
        exact Nat.le_of_succ_le this
      · rw [hrec]
        exact h.pending_pop hw e'
      · refine le_trans ?_ (h.once e' he')
        rw [hw]
        exact List.count_le_count_cons

theorem leave (h : Represents q m) : Represents q.dispatchLeave m.leave :=
  { h with dispatching_eq := rfl }

theorem clearOverrun (h : Represents q m) : Represents q.clearOverrun m.clearOverrun :=
  { h with overrun_eq := rfl }

end Represents

/-! ### Reached queues -/

/-- What the members can hold after any sections, in any order, of any tasks and interrupts. -/
inductive Reached : Queue B → Prop
  | initial (owner : Owner) : Reached (Queue.initial B owner)
  | prepare {q : Queue B} (h : Reached q) (current : Token) : Reached (q.prepare current).2
  | stop {q : Queue B} (h : Reached q) : Reached q.stop
  | post {q : Queue B} (h : Reached q) (e : Event) : Reached (q.postWithGuard e).2
  | enter {q q' : Queue B} (h : Reached q) (current : Token)
      (he : q.dispatchEnter current = some q') : Reached q'
  | remove {q q' : Queue B} (h : Reached q) (r : DispatchRecord Event)
      (he : q.dispatchRemove = some (r, q')) : Reached q'
  | leave {q : Queue B} (h : Reached q) : Reached q.dispatchLeave
  | clearOverrun {q : Queue B} (h : Reached q) : Reached q.clearOverrun

theorem Reached.represents {q : Queue B} (h : Reached q) : ∃ m, Represents q m := by
  induction h with
  | initial owner => exact ⟨_, .initial owner⟩
  | prepare _ current ih => exact ih.elim fun m hm => ⟨_, (hm.prepare current).2⟩
  | stop _ ih => exact ih.elim fun m hm => ⟨_, hm.stop⟩
  | post _ e ih => exact ih.elim fun m hm => ⟨_, (hm.post e).2⟩
  | enter _ current he ih =>
      exact ih.elim fun m hm => (hm.enter he).imp fun m' hm' => hm'.2
  | remove _ r he ih =>
      obtain ⟨m, hm⟩ := ih
      obtain ⟨e, m', -, -, hm'⟩ := hm.remove he
      exact ⟨m', hm'⟩
  | leave _ ih => exact ih.elim fun m hm => ⟨_, hm.leave⟩
  | clearOverrun _ ih => exact ih.elim fun m hm => ⟨_, hm.clearOverrun⟩

end Grevir.Event
