import Grevir.Support.Ring
import Mathlib.Data.BitVec

/-!
# Event — Queue

The main-loop queue of an application, as the lock-protected sections of `MainLoopQueue`: a ring
of dispatch records, its `head_` and `count_` in the narrow index type, the `ready_`, `overrun_`
and `dispatching_` flags, one `Pending` flag for each event, and what the board's main-loop context
has recorded.

A section runs under the board's lock, so it is a function of the state before it.  `dispatch` is
three sections (`dispatchEnter`, `dispatchRemove`, `dispatchLeave`) with the callbacks between them;
`Event/Tasks` puts the sections together.
-/

namespace Grevir.Event

inductive PostResult where
  | queued | coalesced | full | notReady
  deriving DecidableEq, Repr

/-- The delivery of a main-loop route. -/
inductive Delivery where
  | elide | stream
  deriving DecidableEq, Repr

def maximumQueueCapacity : Nat := 2048

/-- The board check on an integral `event_queue_capacity`. -/
def QueueCapacity.valid (declared : Int) : Bool :=
  0 < declared && declared ≤ maximumQueueCapacity

/-- `MainLoopContext`: what `prepare` records and what `dispatch` compares. -/
structure MainLoopContext (Task Token Owner : Type) where
  currentToken : Task → Token
  bind : Token → Owner → Owner
  isOwner : Token → Owner → Bool

/-- The context of a board that does not restrict the task. -/
def unrestrictedMainLoopContext (Task : Type) : MainLoopContext Task Unit Unit where
  currentToken _ := ()
  bind _ o := o
  isOwner _ _ := true

/-- A context that records a token and compares with it, as the host context does. -/
def recordingContext {Task Token : Type} [DecidableEq Token] (token : Task → Token) :
    MainLoopContext Task Token (Option Token) where
  currentToken := token
  bind t _ := some t
  isOwner t o := o = some t

/-- What the queue of one application is compiled against: the board's capacity and context, the
routes of the application's events, and the width of the target's `int`. -/
structure Board (Task Token Owner Event : Type) where
  eventQueueCapacity : Int
  capacity_valid : QueueCapacity.valid eventQueueCapacity = true
  context : MainLoopContext Task Token Owner
  delivery : Event → Delivery
  intBits : Nat
  intBits_eq : intBits = 16 ∨ intBits = 32

/-- `records_` holds the address of `invoke<Event>` and, for an `Elide` event, of its `Pending`
flag; both are null before the first post. -/
structure DispatchRecord (Event : Type) where
  invoke : Option Event
  argument : Option Event
  deriving DecidableEq, Repr

variable {Task Token Owner Event : Type}

namespace Board

variable (B : Board Task Token Owner Event)

/-- `QueueCapacity<Board>::value`. -/
def capacity : Nat := B.eventQueueCapacity.toNat

/-- The smallest unsigned type that holds `capacity`. -/
def indexBits : Nat := if B.capacity ≤ 255 then 8 else 16

abbrev IndexType : Type := BitVec B.indexBits

/-- The sum of two indices, taken in `int` where that holds every index and in `unsigned` where it
does not: the low `intBits` bits either way. -/
def plus (a b : Nat) : Nat := (a + b) % 2 ^ B.intBits

/-- `static_cast<index_type>((head_ + i) % capacity)`. -/
def slot (head i : Nat) : B.IndexType := BitVec.ofNat B.indexBits (B.plus head i % B.capacity)

theorem capacity_pos : 0 < B.capacity := by
  have h := B.capacity_valid
  simp only [QueueCapacity.valid, Bool.and_eq_true, decide_eq_true_eq] at h
  unfold capacity
  omega

theorem capacity_le : B.capacity ≤ maximumQueueCapacity := by
  have h := B.capacity_valid
  simp only [QueueCapacity.valid, Bool.and_eq_true, decide_eq_true_eq] at h
  unfold capacity
  omega

theorem capacity_lt : B.capacity < 2 ^ B.indexBits := by
  have h := B.capacity_le
  unfold maximumQueueCapacity at h
  unfold indexBits
  split <;> omega

theorem plus_eq {a b : Nat} (ha : a ≤ B.capacity) (hb : b ≤ B.capacity) :
    B.plus a b = a + b := by
  have h := B.capacity_le
  unfold maximumQueueCapacity at h
  refine Nat.mod_eq_of_lt ?_
  rcases B.intBits_eq with e | e <;> rw [e] <;> omega

/-- The slot arithmetic is exact: no sum wraps and no cast truncates. -/
theorem toNat_slot {h i : Nat} (hh : h ≤ B.capacity) (hi : i ≤ B.capacity) :
    (B.slot h i).toNat = Ring.cell B.capacity h i := by
  rw [slot, BitVec.toNat_ofNat, B.plus_eq hh hi]
  exact Nat.mod_eq_of_lt ((Nat.mod_lt _ B.capacity_pos).trans B.capacity_lt)

theorem indexBits_pos : 0 < B.indexBits := by unfold indexBits; split <;> omega

theorem toNat_zero : (0 : B.IndexType).toNat = 0 := BitVec.toNat_zero

/-- `++` on an index below another does not wrap. -/
theorem toNat_succ {i c : B.IndexType} (h : i.toNat < c.toNat) : (i + 1).toNat = i.toNat + 1 := by
  have hc : c.toNat < 2 ^ B.indexBits := c.isLt
  have h1 : (1 : B.IndexType).toNat = 1 := BitVec.toNat_one B.indexBits_pos
  rw [BitVec.toNat_add, h1, Nat.mod_eq_of_lt (by omega)]

/-- `++count_` below the capacity does not wrap. -/
theorem toNat_succ_of_lt_capacity {c : B.IndexType} (h : c.toNat < B.capacity) :
    (c + 1).toNat = c.toNat + 1 := by
  have h1 : (1 : B.IndexType).toNat = 1 := BitVec.toNat_one B.indexBits_pos
  have hc := B.capacity_lt
  rw [BitVec.toNat_add, h1, Nat.mod_eq_of_lt (by omega)]

/-- `--count_` above zero does not wrap. -/
theorem toNat_pred {c : B.IndexType} (h : c ≠ 0) : (c - 1).toNat + 1 = c.toNat := by
  have h1 : (1 : B.IndexType).toNat = 1 := BitVec.toNat_one B.indexBits_pos
  have hc : c.toNat ≠ 0 := fun e => h (BitVec.eq_of_toNat_eq (by simpa using e))
  have hlt : c.toNat < 2 ^ B.indexBits := c.isLt
  rw [BitVec.toNat_sub, h1]
  have : 2 ^ B.indexBits - 1 + c.toNat = (c.toNat - 1) + 2 ^ B.indexBits := by omega
  rw [this, Nat.add_mod_right, Nat.mod_eq_of_lt (by omega)]
  omega

/-- The record `post` writes for `e`. -/
def recordFor (e : Event) : DispatchRecord Event where
  invoke := some e
  argument := if B.delivery e = .elide then some e else none

end Board

/-- The static members of `MainLoopQueue<Spec>`, the `Pending<Spec, Event>` flags and what the
context has recorded. -/
structure Queue (B : Board Task Token Owner Event) where
  records : Nat → DispatchRecord Event
  head : B.IndexType
  count : B.IndexType
  ready : Bool
  overrun : Bool
  dispatching : Bool
  pending : Event → Bool
  owner : Owner

namespace Queue

variable {B : Board Task Token Owner Event}

/-- The members before `main` starts. -/
def initial (B : Board Task Token Owner Event) (owner : Owner) : Queue B where
  records _ := ⟨none, none⟩
  head := 0
  count := 0
  ready := false
  overrun := false
  dispatching := false
  pending _ := false
  owner := owner

/-- The records the ring holds, oldest first. -/
def held (q : Queue B) : List (DispatchRecord Event) :=
  Ring.window B.capacity q.head.toNat q.count.toNat q.records

variable [DecidableEq Event]

/-- One turn of the loop of `clear_records`: the flag a record points to goes down. -/
def clearRecord (r : DispatchRecord Event) (pending : Event → Bool) : Event → Bool :=
  match r.argument with
  | some e => Function.update pending e false
  | none => pending

/-- The loop of `clear_records` from `i` on, over an index of the ring's own type. -/
def clearFrom (records : Nat → DispatchRecord Event) (head count i : B.IndexType)
    (pending : Event → Bool) : Event → Bool :=
  if i < count then
    clearFrom records head count (i + 1)
      (clearRecord (records (B.slot head.toNat i.toNat).toNat) pending)
  else pending
termination_by count.toNat - i.toNat
decreasing_by
  have hi : i.toNat < count.toNat := ‹i < count›
  have e := B.toNat_succ hi
  omega

def clearRecords (q : Queue B) : Queue B :=
  { q with pending := clearFrom q.records q.head q.count 0 q.pending }

def prepare (current : Token) (q : Queue B) : Bool × Queue B :=
  if q.ready || q.dispatching then (false, q)
  else
    let q := { q with owner := B.context.bind current q.owner }
    (true, { q.clearRecords with head := 0, count := 0, overrun := false, ready := true })

def stop (q : Queue B) : Queue B :=
  let q := { q with ready := false }
  { q.clearRecords with head := 0, count := 0 }

/-- `post` and `post_from_isr`: one section under either guard. -/
def postWithGuard (e : Event) (q : Queue B) : PostResult × Queue B :=
  if !q.ready then (.notReady, q)
  else if B.delivery e = .elide ∧ q.pending e = true then (.coalesced, q)
  else if q.count.toNat = B.capacity then (.full, { q with overrun := true })
  else
    let tail := (B.slot q.head.toNat q.count.toNat).toNat
    let q := match B.delivery e with
      | .elide => { q with records := Function.update q.records tail ⟨some e, some e⟩
                           pending := Function.update q.pending e true }
      | .stream => { q with records := Function.update q.records tail ⟨some e, none⟩ }
    (.queued, { q with count := q.count + 1 })

/-- The queue after a post of `e` that was queued. -/
def push (e : Event) (q : Queue B) : Queue B :=
  { q with
    records :=
      Function.update q.records (B.slot q.head.toNat q.count.toNat).toNat (B.recordFor e)
    pending := if B.delivery e = .elide then Function.update q.pending e true else q.pending
    count := q.count + 1 }

/-- The first section of `dispatch`. -/
def dispatchEnter (current : Token) (q : Queue B) : Option (Queue B) :=
  if !q.ready || q.dispatching || !B.context.isOwner current q.owner then none
  else some { q with dispatching := true }

/-- The section of the loop of `dispatch`: the oldest record, removed, or nothing. -/
def dispatchRemove (q : Queue B) : Option (DispatchRecord Event × Queue B) :=
  if !q.ready || q.count = 0 then none
  else
    let record := q.records q.head.toNat
    some (record, { q with pending := clearRecord record q.pending
                           head := B.slot q.head.toNat 1
                           count := q.count - 1 })

/-- The last section of `dispatch`. -/
def dispatchLeave (q : Queue B) : Queue B := { q with dispatching := false }

def clearOverrun (q : Queue B) : Queue B := { q with overrun := false }

/-! ### What each section does -/

theorem prepare_refused {current : Token} {q : Queue B}
    (h : q.ready = true ∨ q.dispatching = true) : q.prepare current = (false, q) := by
  rcases h with h | h <;> simp [prepare, h]

theorem prepare_granted {current : Token} {q : Queue B} (hr : q.ready = false)
    (hd : q.dispatching = false) :
    q.prepare current = (true, { q.clearRecords with
      head := 0, count := 0, overrun := false, ready := true
      owner := B.context.bind current q.owner }) := by
  simp only [prepare, hr, hd, Bool.or_false, Bool.false_eq_true, if_false, clearRecords]

theorem postWithGuard_notReady {e : Event} {q : Queue B} (hr : q.ready = false) :
    q.postWithGuard e = (.notReady, q) := by
  simp [postWithGuard, hr]

theorem postWithGuard_coalesced {e : Event} {q : Queue B} (hr : q.ready = true)
    (hd : B.delivery e = .elide) (hp : q.pending e = true) :
    q.postWithGuard e = (.coalesced, q) := by
  simp [postWithGuard, hr, hd, hp]

theorem postWithGuard_full {e : Event} {q : Queue B} (hr : q.ready = true)
    (hp : ¬ (B.delivery e = .elide ∧ q.pending e = true)) (hc : q.count.toNat = B.capacity) :
    q.postWithGuard e = (.full, { q with overrun := true }) := by
  rw [postWithGuard, hr, if_neg (by simp), if_neg hp, if_pos hc]

theorem postWithGuard_queued {e : Event} {q : Queue B} (hr : q.ready = true)
    (hp : ¬ (B.delivery e = .elide ∧ q.pending e = true)) (hc : q.count.toNat ≠ B.capacity) :
    q.postWithGuard e = (.queued, q.push e) := by
  rw [postWithGuard, hr, if_neg (by simp), if_neg hp, if_neg hc, push]
  cases hd : B.delivery e <;> simp [Board.recordFor, hd, hr]

omit [DecidableEq Event] in
theorem dispatchEnter_none {current : Token} {q : Queue B} :
    q.dispatchEnter current = none ↔
      q.ready = false ∨ q.dispatching = true ∨ B.context.isOwner current q.owner = false := by
  unfold dispatchEnter
  split <;> simp_all [or_assoc]

omit [DecidableEq Event] in
theorem dispatchEnter_some {current : Token} {q q' : Queue B} :
    q.dispatchEnter current = some q' ↔
      q.ready = true ∧ q.dispatching = false ∧ B.context.isOwner current q.owner = true ∧
        q' = { q with dispatching := true } := by
  unfold dispatchEnter
  cases q.ready <;> cases q.dispatching <;> cases B.context.isOwner current q.owner <;>
    simp [eq_comm]

theorem dispatchRemove_none {q : Queue B} :
    q.dispatchRemove = none ↔ q.ready = false ∨ q.count = 0 := by
  unfold dispatchRemove
  split <;> simp_all

theorem dispatchRemove_some {q : Queue B} (hr : q.ready = true) (hc : q.count ≠ 0) :
    q.dispatchRemove = some (q.records q.head.toNat, { q with
      pending := clearRecord (q.records q.head.toNat) q.pending
      head := B.slot q.head.toNat 1
      count := q.count - 1 }) := by
  rw [dispatchRemove, hr, if_neg (by simpa using hc)]

/-- Nothing is removed from a queue that is not ready or is empty. -/
theorem of_dispatchRemove {q q' : Queue B} {record : DispatchRecord Event}
    (h : q.dispatchRemove = some (record, q')) : q.ready = true ∧ q.count ≠ 0 := by
  have hne : q.dispatchRemove ≠ none := by rw [h]; exact Option.some_ne_none _
  rw [ne_eq, dispatchRemove_none, not_or] at hne
  exact ⟨by simpa using hne.1, hne.2⟩

end Queue

end Grevir.Event
