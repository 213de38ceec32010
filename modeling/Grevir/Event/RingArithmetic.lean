import Grevir.Event.Elide

/-!
# Event — RingArithmetic

The ring's arithmetic in the narrow index type is that of the unbounded integers, in every state that
a schedule reaches.  A sum of two indices is taken in `int`, or in `unsigned` where the index is as
wide as `int`; the loop of `clear_records` counts in a type that may hold nothing above its bound.

* `SlotExact`: a computed slot is the remainder of the sum, and the sum overflows nothing.
* `clearVisits`: the slots that the loop of `clear_records` visits, round by round.
* `clearFrom_eq_foldl`: the loop's turns are those at the slots it visits.
* `Represents.ringExact`: `RingExact` is what the arithmetic does in a state that represents a mailbox.
* `Effect.readsFresh`: `ReadsFresh` is what a history says of the records `dispatch` read.
* `ring_arithmetic_exact`: both hold after every schedule.
-/

namespace Grevir.Event

variable {Task Token Owner Event : Type} {B : Board Task Token Owner Event}

/-! ### Slots -/

/-- The slot computed for `head + i` is exact, and the sum fits in an `int` of either width. -/
structure SlotExact (B : Board Task Token Owner Event) (head i : Nat) : Prop where
  sum_lt : head + i < 2 ^ (B.intBits - 1)
  slot_eq : (B.slot head i).toNat = (head + i) % B.capacity
  slot_lt : (B.slot head i).toNat < B.capacity

theorem slotExact {head i : Nat} (hh : head ≤ B.capacity) (hi : i ≤ B.capacity) :
    SlotExact B head i where
  sum_lt := by
    have hle := B.capacity_le
    rw [maximumQueueCapacity] at hle
    rcases B.intBits_eq with hbits | hbits <;> rw [hbits] <;> omega
  slot_eq := B.toNat_slot hh hi
  slot_lt := by
    rw [B.toNat_slot hh hi]
    exact Ring.cell_lt B.capacity_pos head i

namespace Queue

/-- The slots of the records the ring holds, oldest first. -/
def heldSlots (q : Queue B) : List Nat :=
  (List.range q.count.toNat).map fun i => (q.head.toNat + i) % B.capacity

@[simp] theorem length_heldSlots (q : Queue B) : q.heldSlots.length = q.count.toNat := by
  rw [heldSlots, List.length_map, List.length_range]

theorem map_heldSlots (q : Queue B) : q.heldSlots.map q.records = q.held := by
  rw [heldSlots, List.map_map, held, Ring.window]
  rfl

theorem nodup_heldSlots {q : Queue B} (hc : q.count.toNat ≤ B.capacity) : q.heldSlots.Nodup := by
  refine List.Nodup.map_on (fun i hi j hj heq => ?_) List.nodup_range
  rw [List.mem_range] at hi hj
  exact Ring.cell_inj (hi.trans_le hc) (hj.trans_le hc) heq

/-- The slot after the held ones is none of them, while there is room. -/
theorem tail_notMem_heldSlots {q : Queue B} (hc : q.count.toNat < B.capacity) :
    Ring.cell B.capacity q.head.toNat q.count.toNat ∉ q.heldSlots := by
  intro hmem
  obtain ⟨i, hi, heq⟩ := List.mem_map.mp hmem
  rw [List.mem_range] at hi
  exact Nat.ne_of_lt hi (Ring.cell_inj (hi.trans hc) hc heq)

/-! ### The loop of `clear_records` -/

/-- The slots that the loop of `clear_records` visits from `i` on, if it ends within some rounds. -/
def clearVisits (head count : B.IndexType) : Nat → B.IndexType → Option (List Nat)
  | 0, _ => none
  | rounds + 1, i =>
      if i < count then
        (clearVisits head count rounds (i + 1)).map ((B.slot head.toNat i.toNat).toNat :: ·)
      else some []

/-- **The loop ends**, one round after the last slot, whatever the width of its counter. -/
theorem clearVisits_eq {q : Queue B} (hh : q.head.toNat ≤ B.capacity)
    (hc : q.count.toNat ≤ B.capacity) {rounds : Nat} {i : B.IndexType}
    (hr : q.count.toNat < rounds + i.toNat) (hi : i.toNat ≤ q.count.toNat) :
    clearVisits q.head q.count rounds i = some (q.heldSlots.drop i.toNat) := by
  induction rounds generalizing i with
  | zero => omega
  | succ rounds ih =>
      rw [clearVisits]
      by_cases hlt : i < q.count
      · have hnat : i.toNat < q.count.toNat := hlt
        have hsucc := B.toNat_succ hnat
        have hlen : i.toNat < q.heldSlots.length := by rwa [length_heldSlots]
        have hget : q.heldSlots[i.toNat] = Ring.cell B.capacity q.head.toNat i.toNat := by
          simp only [heldSlots, List.getElem_map, List.getElem_range, Ring.cell]
        rw [if_pos hlt, ih (by omega) (by omega), Option.map_some, hsucc,
          List.drop_eq_getElem_cons hlen, B.toNat_slot hh (hi.trans hc), hget]
      · have hge : q.count.toNat ≤ i.toNat := Nat.le_of_not_lt hlt
        rw [if_neg hlt, List.drop_of_length_le (by rwa [length_heldSlots])]

/-- **The loop's turns are those at the slots it visits.** -/
theorem clearFrom_eq_foldl [DecidableEq Event] {records : Nat → DispatchRecord Event} {head count : B.IndexType}
    {rounds : Nat} {i : B.IndexType} {visits : List Nat} (h : clearVisits head count rounds i = some visits)
    (pending : Event → Bool) : clearFrom records head count i pending =
      visits.foldl (fun pending k => clearRecord (records k) pending) pending := by
  induction rounds generalizing i visits pending with
  | zero => cases h
  | succ rounds ih =>
      rw [clearVisits] at h
      rw [clearFrom]
      split at h
      · next hlt =>
        obtain ⟨rest, hrest, rfl⟩ := Option.map_eq_some_iff.mp h
        rw [if_pos hlt, ih hrest, List.foldl_cons]
      · next hge =>
        cases h
        rw [if_neg hge, List.foldl_nil]

end Queue

/-! ### The arithmetic of a state -/

variable [DecidableEq Event]

/-- What the index arithmetic of each section comes to. -/
structure RingExact (q : Queue B) : Prop where
  head_lt : q.head.toNat < B.capacity
  count_le : q.count.toNat ≤ B.capacity
  next_slot : SlotExact B q.head.toNat 1
  tail_slot : SlotExact B q.head.toNat q.count.toNat
  visited_slot : ∀ i, i < q.count.toNat → SlotExact B q.head.toNat i
  held_once : q.heldSlots.Nodup ∧ q.heldSlots.length = q.count.toNat
  held_posted : ∀ k ∈ q.heldSlots, ∃ e, q.records k = B.recordFor e
  -- `clear_records`
  loop_ends : ∀ rounds, q.count.toNat < rounds →
    Queue.clearVisits q.head q.count rounds 0 = some q.heldSlots
  loop_clears : q.clearRecords.pending =
    q.heldSlots.foldl (fun pending k => Queue.clearRecord (q.records k) pending) q.pending
  -- `post_with_guard`
  post_free : ∀ e, (q.postWithGuard e).1 = .queued →
    (B.slot q.head.toNat q.count.toNat).toNat ∉ q.heldSlots ∧
      (q.postWithGuard e).2.count.toNat = q.count.toNat + 1
  post_keeps : ∀ e, ∀ k ∈ q.heldSlots, (q.postWithGuard e).2.records k = q.records k
  -- `dispatch`
  remove : ∀ r q', q.dispatchRemove = some (r, q') →
    q.head.toNat ∈ q.heldSlots ∧ r = q.records q.head.toNat ∧ (∃ e, r.invoke = some e) ∧
      q'.head.toNat = (q.head.toNat + 1) % B.capacity ∧ q'.count.toNat + 1 = q.count.toNat
  not_ready : q.ready = false → q.head = 0 ∧ q.count = 0

variable {q : Queue B} {m : Mailbox Owner Event}

/-- A post is queued into a free slot, or leaves the records alone. -/
theorem postWithGuard_cases (q : Queue B) (e : Event) :
    ((q.postWithGuard e).1 = .queued ∧ q.count.toNat ≠ B.capacity ∧ (q.postWithGuard e).2 = q.push e) ∨
      ((q.postWithGuard e).1 ≠ .queued ∧ (q.postWithGuard e).2.records = q.records) := by
  cases hr : q.ready with
  | false =>
      rw [Queue.postWithGuard_notReady hr]
      exact .inr ⟨PostResult.noConfusion, rfl⟩
  | true =>
      by_cases hp : B.delivery e = .elide ∧ q.pending e = true
      · rw [Queue.postWithGuard_coalesced hr hp.1 hp.2]
        exact .inr ⟨PostResult.noConfusion, rfl⟩
      · by_cases hc : q.count.toNat = B.capacity
        · rw [Queue.postWithGuard_full hr hp hc]
          exact .inr ⟨PostResult.noConfusion, rfl⟩
        · rw [Queue.postWithGuard_queued hr hp hc]
          exact .inl ⟨rfl, hc, rfl⟩

namespace Represents

theorem held_posted (h : Represents q m) {k : Nat} (hk : k ∈ q.heldSlots) :
    ∃ e, q.records k = B.recordFor e := by
  have hheld : q.records k ∈ q.held := q.map_heldSlots ▸ List.mem_map_of_mem hk
  rw [h.held_eq] at hheld
  obtain ⟨e, -, he⟩ := List.mem_map.mp hheld
  exact ⟨e, he.symm⟩

theorem loop_ends (h : Represents q m) {rounds : Nat} (hr : q.count.toNat < rounds) :
    Queue.clearVisits q.head q.count rounds 0 = some q.heldSlots := by
  have hvisits := Queue.clearVisits_eq h.head_lt.le h.count_le (i := 0)
    (by rw [B.toNat_zero]; exact hr) (B.toNat_zero ▸ Nat.zero_le _)
  rwa [B.toNat_zero, List.drop_zero] at hvisits

/-- What the loop does is what its turns at the held slots do. -/
theorem loop_clears (h : Represents q m) : q.clearRecords.pending =
    q.heldSlots.foldl (fun pending k => Queue.clearRecord (q.records k) pending) q.pending :=
  Queue.clearFrom_eq_foldl (h.loop_ends (Nat.lt_succ_self _)) q.pending

theorem tail_free (h : Represents q m) (hne : q.count.toNat ≠ B.capacity) :
    (B.slot q.head.toNat q.count.toNat).toNat ∉ q.heldSlots := by
  rw [B.toNat_slot h.head_lt.le h.count_le]
  exact Queue.tail_notMem_heldSlots (Nat.lt_of_le_of_ne h.count_le hne)

theorem post_free (h : Represents q m) {e : Event} (he : (q.postWithGuard e).1 = .queued) :
    (B.slot q.head.toNat q.count.toNat).toNat ∉ q.heldSlots ∧
      (q.postWithGuard e).2.count.toNat = q.count.toNat + 1 := by
  rcases postWithGuard_cases q e with ⟨-, hne, hpush⟩ | ⟨hne, -⟩
  · rw [hpush]
    exact ⟨h.tail_free hne, B.toNat_succ_of_lt_capacity (Nat.lt_of_le_of_ne h.count_le hne)⟩
  · exact absurd he hne

/-- **A post never overwrites a held slot.** -/
theorem post_keeps (h : Represents q m) (e : Event) {k : Nat} (hk : k ∈ q.heldSlots) :
    (q.postWithGuard e).2.records k = q.records k := by
  rcases postWithGuard_cases q e with ⟨-, hne, hpush⟩ | ⟨-, hsame⟩
  · have hother : k ≠ (B.slot q.head.toNat q.count.toNat).toNat := fun heq => h.tail_free hne (heq ▸ hk)
    rw [hpush]
    exact Function.update_of_ne hother _ _
  · rw [hsame]

/-- **`dispatch` reads the oldest held slot.** -/
theorem remove_slot (h : Represents q m) {r : DispatchRecord Event} {q' : Queue B}
    (hr : q.dispatchRemove = some (r, q')) :
    q.head.toNat ∈ q.heldSlots ∧ r = q.records q.head.toNat ∧ (∃ e, r.invoke = some e) ∧
      q'.head.toNat = (q.head.toNat + 1) % B.capacity ∧ q'.count.toNat + 1 = q.count.toNat := by
  obtain ⟨hready, hcount⟩ := Queue.of_dispatchRemove hr
  have hpred := B.toNat_pred hcount
  rw [Queue.dispatchRemove_some hready hcount, Option.some.injEq, Prod.mk.injEq] at hr
  obtain ⟨rfl, rfl⟩ := hr
  have hhead : q.head.toNat ∈ q.heldSlots := by
    refine List.mem_map.mpr ⟨0, List.mem_range.mpr (hpred ▸ Nat.succ_pos _), ?_⟩
    rw [Nat.add_zero, Nat.mod_eq_of_lt h.head_lt]
  obtain ⟨e, he⟩ := h.held_posted hhead
  exact ⟨hhead, rfl, ⟨e, he ▸ rfl⟩, B.toNat_slot h.head_lt.le B.capacity_pos, hpred⟩

/-- **The arithmetic is exact** in a state that represents a mailbox. -/
theorem ringExact (h : Represents q m) : RingExact q where
  head_lt := h.head_lt
  count_le := h.count_le
  next_slot := slotExact h.head_lt.le B.capacity_pos
  tail_slot := slotExact h.head_lt.le h.count_le
  visited_slot _ hi := slotExact h.head_lt.le (hi.le.trans h.count_le)
  held_once := ⟨Queue.nodup_heldSlots h.count_le, q.length_heldSlots⟩
  held_posted _ hk := h.held_posted hk
  loop_ends _ hr := h.loop_ends hr
  loop_clears := h.loop_clears
  post_free _ he := h.post_free he
  post_keeps e _ hk := h.post_keeps e hk
  remove _ _ hr := h.remove_slot hr
  not_ready hr := by
    obtain ⟨hw, hhead⟩ := h.closed (h.ready_eq ▸ hr)
    exact ⟨hhead, h.count_eq_zero.mpr hw⟩

end Represents

/-! ### The records of a history -/

/-- No null record is invoked; a removed record is that of the oldest queued post of the session that
was not removed before; and an invoked one was removed last, with all before it invoked. -/
structure ReadsFresh (B : Board Task Token Owner Event) (h : List (Label Task Event)) : Prop where
  not_null : ∀ t d, .invokedNull t d ∉ h
  removed : ∀ h₁ t d r h₂, h = h₁ ++ .removed t d r :: h₂ →
    ∃ h₀ u l e, h₁ = h₀ ++ .prepared u true :: l ∧ NoStop l ∧
      (queuedPosts l)[(removals l).length]? = some e ∧ r = B.recordFor e
  invoked : ∀ h₁ t d e h₂, h = h₁ ++ .invoked t d e :: h₂ →
    removals h₁ = (invocations h₁).map B.recordFor ++ [B.recordFor e]

variable {m' : Mailbox Owner Event} {o o' : Option (Task × Activation Event)}
variable {h : List (Label Task Event)} {x : Label Task Event}

/-- **A step reads only what was posted.** -/
theorem Effect.readsFresh (ha : Accounts B h m o) (he : Effect B m o x m' o') (hf : ReadsFresh B h) :
    ReadsFresh B (h ++ [x]) where
  not_null t d hmem := by
    rcases List.mem_append.mp hmem with hmem | hmem
    · exact hf.not_null t d hmem
    · obtain rfl := List.mem_singleton.mp hmem
      cases he with
      | invokeNull t a r ho hr hnull =>
          obtain ⟨e, rfl, -⟩ := ha.in_flight ho hr
          cases hnull
  removed h₁ t d r h₂ heq := by
    rcases Runs.split_snoc (o := some x) heq with ⟨hx, rfl, -⟩ | ⟨l', -, hold⟩
    · obtain rfl := Option.some.inj hx
      cases he with
      | remove t a e rest ho hr hready hw =>
          obtain ⟨h₀, u, l, hsplit, hl⟩ := ha.opened hready
          obtain ⟨-, hqueued, -⟩ := ha.session h₀ u l hsplit hl
          refine ⟨h₀, u, l, e, hsplit, hl, ?_, rfl⟩
          -- the posts queued in the session are what was removed in it, and then what waits
          have hget := congrArg (·[(removals l).length]?) hqueued
          simp only [hw, List.getElem?_map, List.getElem?_append_right (Nat.le_refl _), Nat.sub_self,
            List.map_cons, List.getElem?_cons_zero] at hget
          obtain ⟨e', he', heq'⟩ := Option.map_eq_some_iff.mp hget
          rwa [B.recordFor_injective heq'] at he'
    · exact hf.removed h₁ t d r l' hold
  invoked h₁ t d e h₂ heq := by
    rcases Runs.split_snoc (o := some x) heq with ⟨hx, rfl, -⟩ | ⟨l', -, hold⟩
    · obtain rfl := Option.some.inj hx
      cases he with
      | invoke t a r e ho hr hinvoke =>
          obtain ⟨e', rfl, hflight⟩ := ha.in_flight ho hr
          obtain rfl := Option.some.inj hinvoke
          rw [ha.all, hflight]
    · exact hf.invoked h₁ t d e l' hold

omit [DecidableEq Event] in
theorem ReadsFresh.nil : ReadsFresh B ([] : List (Label Task Event)) where
  not_null t d hmem := by cases hmem
  removed h₁ t d r h₂ heq := by simp at heq
  invoked h₁ t d e h₂ heq := by simp at heq

/-! ### After a schedule -/

variable [DecidableEq Task]

/-- **The ring's arithmetic is exact**, for every admitted capacity, after every schedule. -/
theorem ring_arithmetic_exact (B : Board Task Token Owner Event) (owner : Owner)
    (as : List (Action Task Event)) :
    RingExact (System.after B owner as).1.queue ∧ ReadsFresh B (System.after B owner as).2 := by
  obtain ⟨m, o, ht, -, hf⟩ := tracks_induct (B := B)
    (P := fun h m o => Accounts B h m o ∧ ReadsFresh B h) owner ⟨.initial owner, .nil⟩
    (fun h m o x m' o' hp hd hc he => ⟨hp.1.step hd hc he, he.readsFresh hp.1 hp.2⟩) as
  exact ⟨ht.represents.ringExact, hf⟩

end Grevir.Event
