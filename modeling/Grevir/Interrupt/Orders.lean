import Grevir.Interrupt.Binding
import Grevir.Interrupt.Recorded

/-!
# Interrupt — Orders

Nothing an accepted plan says is lost in its probe record but the high bits of a dispatch order, which
`validate` does not bound and the encoder writes as one word.

* `record_distinguishes_iff`: accepted plans that differ have different records, except where they
  differ in the high bits of dispatch orders alone.
* `high_order_lost`: two accepted plans of one record.
-/

namespace Grevir.Interrupt

/-- An application the compiled side accepts, where `unsigned` has 32 bits: the assertions of
`BindingPlan` and of `DeferredContextPlan` hold. -/
structure Accepted {n m : Nat} (catalog : List (EventIdentity Text)) (board : Option QueueBoard)
    (a : CompiledApplication n m) : Prop where
  validated : validate catalog a.demands a.plan = .none
  deferred : deferredContextPlan a.demands board = some a.deferred
  orders : ∀ b ∈ a.plan.held, b.dispatchOrder < 2 ^ 32

/-- Bindings that are the same but for dispatch orders with the same low 16 bits. -/
def SameLowOrder {T : Type} (b b' : BindingRecord T) : Prop :=
  { b with dispatchOrder := b'.dispatchOrder } = b' ∧
    b.dispatchOrder % 2 ^ 16 = b'.dispatchOrder % 2 ^ 16

/-- **Plans that differ in the high bits of dispatch orders, and in nothing else.** -/
structure DifferInHighOrders {T : Type} (p q : PlanContent T) : Prop where
  differ : p ≠ q
  others : { p with bindings := q.bindings } = q
  orders : List.Forall₂ SameLowOrder p.bindings q.bindings

theorem recorded_eq_iff {T : Type} {b b' : BindingRecord T} :
    b.recorded = b'.recorded ↔ SameLowOrder b b' := by
  obtain ⟨e, o, c, s, sel, en, sn, ack, n, f⟩ := b
  obtain ⟨e', o', c', s', sel', en', sn', ack', n', f'⟩ := b'
  simp only [BindingRecord.recorded, SameLowOrder, BindingRecord.mk.injEq]
  tauto

theorem map_recorded_eq_iff {T : Type} {bs bs' : List (BindingRecord T)} :
    bs.map BindingRecord.recorded = bs'.map BindingRecord.recorded ↔
      List.Forall₂ SameLowOrder bs bs' := by
  rw [← List.forall₂_eq_eq_eq, List.forall₂_map_left_iff, List.forall₂_map_right_iff]
  simp only [recorded_eq_iff]

/-- Plans of small capacities whose records say the same. -/
theorem content_recorded_eq_iff {T : Type} {p q : PlanContent T} (hp : p.capacity < 2 ^ 16)
    (hq : q.capacity < 2 ^ 16) :
    p.recorded = q.recorded ↔
      { p with bindings := q.bindings } = q ∧ List.Forall₂ SameLowOrder p.bindings q.bindings := by
  rw [← map_recorded_eq_iff, PlanContent.recorded, PlanContent.recorded, Nat.mod_eq_of_lt hp,
    Nat.mod_eq_of_lt hq]
  obtain ⟨ba, ta, bo, co, ap, n, t, ds, bs⟩ := p
  obtain ⟨ba', ta', bo', co', ap', n', t', ds', bs'⟩ := q
  simp only [PlanContent.mk.injEq]
  tauto

section Records

variable {n m n' m' : Nat} {long : UnsignedLong} {catalog catalog' : List (EventIdentity Text)}
  {board board' : Option QueueBoard} {a : CompiledApplication n m} {b : CompiledApplication n' m'}
  {record record' : List UInt8}

theorem Accepted.capacity (h : Accepted catalog board a) : a.content.capacity < 2 ^ 16 :=
  (deferredContextPlan_capacity h.deferred).trans_lt (by decide)

/-- **Accepted plans that differ have different records, exactly where not only the high bits of
dispatch orders differ.** -/
theorem record_distinguishes_iff (ha : Accepted catalog board a) (hb : Accepted catalog' board' b)
    (hrecord : encodeProbeRecord long a.content = some record)
    (hrecord' : encodeProbeRecord long b.content = some record') :
    (a.content ≠ b.content → record ≠ record') ↔ ¬ DifferInHighOrders a.content b.content := by
  have hsame : record = record' ↔ a.content.recorded = b.content.recorded := by
    constructor
    · rintro rfl
      exact recorded_eq_of_encode hrecord hrecord'
    · intro heq
      rw [← encode_recorded, heq, encode_recorded, hrecord'] at hrecord
      exact (Option.some.inj hrecord).symm
  rw [content_recorded_eq_iff ha.capacity hb.capacity] at hsame
  constructor
  · rintro h ⟨hdiffer, hothers, horders⟩
    exact h hdiffer (hsame.mpr ⟨hothers, horders⟩)
  · intro h hdiffer heq
    obtain ⟨hothers, horders⟩ := hsame.mp heq
    exact h ⟨hdiffer, hothers, horders⟩

end Records

/-! ### Two orders of one record -/

/-- An application with one event, dispatched in some order. -/
def ordered (order : Nat) : CompiledApplication 1 1 where
  backend := literal "mock"
  target := literal "host"
  board := literal "bench"
  compiler := literal "gcc"
  application := literal "tick"
  demands := ⟨#v[⟨literal "timer", literal "tick", literal "period"⟩], 1, #v[literal "raw"],
    #v[literal "isr"], #v[literal "direct"], le_refl 1⟩
  plan := ⟨#v[⟨⟨literal "timer", literal "tick", literal "period"⟩, literal "timer",
    literal "periodic", literal "timer0", literal "overflow", literal "timer0_entry",
    literal "timer0_status", literal "timer0_clear", order, false⟩], 1, true, false⟩
  deferred := ⟨0, []⟩

def orderedCatalog : List (EventIdentity Text) :=
  [⟨literal "timer", literal "tick", literal "period"⟩]

theorem ordered_accepted {order : Nat} (h : order < 2 ^ 32) :
    Accepted orderedCatalog none (ordered order) :=
  ⟨rfl, rfl, by simpa [ordered, SelectedPlan.held] using h⟩

theorem encode_ordered (order : Nat) :
    encodeProbeRecord .bits32 (ordered order).content =
      some (recordBytes .bits32 (ordered order).content) :=
  encode_eq_some.mpr ⟨of_decide_eq_true rfl, ⟨of_decide_eq_true rfl, of_decide_eq_true rfl,
    of_decide_eq_true rfl, of_decide_eq_true rfl⟩, rfl⟩

theorem record_distinguishes_ordered :
    ((ordered 0).content ≠ (ordered 1).content →
      recordBytes .bits32 (ordered 0).content ≠ recordBytes .bits32 (ordered 1).content) ↔
      ¬ DifferInHighOrders (ordered 0).content (ordered 1).content :=
  record_distinguishes_iff (ordered_accepted (by decide)) (ordered_accepted (by decide))
    (encode_ordered 0) (encode_ordered 1)

/-- A dispatch order of 2¹⁶ is recorded as 0. -/
theorem high_order_lost :
    Accepted orderedCatalog none (ordered 0) ∧ Accepted orderedCatalog none (ordered (2 ^ 16)) ∧
      (ordered 0).content ≠ (ordered (2 ^ 16)).content ∧ ∃ record,
        encodeProbeRecord .bits32 (ordered 0).content = some record ∧
        encodeProbeRecord .bits32 (ordered (2 ^ 16)).content = some record := by
  refine ⟨ordered_accepted (by decide), ordered_accepted (by decide), by decide, _, encode_ordered 0, ?_⟩
  rw [← encode_recorded]
  exact encode_ordered 0

end Grevir.Interrupt
