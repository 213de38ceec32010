import Grevir.Event.ContextPolicy
import Grevir.Event.Queue
import Grevir.Interrupt.Demand

/-!
# Interrupt — Binding

The plan an allocation selects, its validation at compile time, and the deferred context that is part
of the same plan.

* `validate_eq_none`: what `validate` accepts.
-/

namespace Grevir.Interrupt

/-- `SelectedPlan<capacity>`. -/
structure SelectedPlan (capacity : Nat) where
  bindings : Vector (BindingRecord Text) capacity
  count : Nat
  allocationOk : Bool
  searchExhausted : Bool

/-- The bindings in use. -/
def SelectedPlan.held {n : Nat} (plan : SelectedPlan n) : List (BindingRecord Text) :=
  plan.bindings.toList.take plan.count

inductive PlanError where
  | none | allocationFailed | searchExhausted | countMismatch
  | unknownEvent | duplicateEvent | missingEvent | invalidSource
  | sourceOwnerConflict | entryConflict | ambiguousSelector
  | inconsistentSourcePolicy | unstableOrder | unsupportedSharedSource
  deriving DecidableEq

section Validate

variable (catalog : List (EventIdentity Text)) (demands : List (Demand Text))

/-- The inner loop of a turn: a binding against those before it. -/
def earlierError (binding : BindingRecord Text) : List (BindingRecord Text) → PlanError
  | [] => .none
  | earlier :: rest =>
      if earlier.source = binding.source then .unsupportedSharedSource
      else if earlier.entry = binding.entry then .entryConflict
      else earlierError binding rest

/-- One turn of the loop over the bindings, of which `earlier` have passed. -/
def bindingError (earlier : List (BindingRecord Text)) (binding : BindingRecord Text) : PlanError :=
  let known := catalog.any fun key => key = binding.event
  let demanded := demands.any fun d => d.event = binding.event
  if !known || !demanded then .unknownEvent
  else if binding.sharedSource then .unsupportedSharedSource
  else if !validComponent binding.owner || !validComponent binding.configuration
      || !validComponent binding.source || !validComponent binding.selector
      || !validComponent binding.entry || !validComponent binding.snapshotPolicy
      || !validComponent binding.acknowledgePolicy then .invalidSource
  else match earlier.getLast? with
    | some previous =>
        if previous.event < binding.event then earlierError binding earlier
        else if previous.event = binding.event then .duplicateEvent
        else .unstableOrder
    | Option.none => earlierError binding earlier

/-- The loop over the bindings. -/
def bindingsError (earlier : List (BindingRecord Text)) : List (BindingRecord Text) → PlanError
  | [] => .none
  | binding :: rest => match bindingError catalog demands earlier binding with
    | .none => bindingsError (earlier ++ [binding]) rest
    | error => error

/-- The loop over the demands. -/
def demandsError (bindings : List (BindingRecord Text)) : List (Demand Text) → PlanError
  | [] => .none
  | d :: rest =>
      if bindings.any fun binding => d.event = binding.event then demandsError bindings rest
      else .missingEvent

end Validate

/-- `validate`. -/
def validate {n m : Nat} (catalog : List (EventIdentity Text)) (demands : DemandSummary n)
    (plan : SelectedPlan m) : PlanError :=
  if plan.searchExhausted then .searchExhausted
  else if !plan.allocationOk then .allocationFailed
  else if plan.count ≠ demands.count ∨ plan.count > m then .countMismatch
  else match bindingsError catalog demands.demands [] plan.held with
    | .none => demandsError plan.held demands.demands
    | error => error

/-! ### The deferred context -/

/-- What a board with an event queue declares: its capacity, and the identities of its lock and of the
context its main loop runs in. -/
structure QueueBoard where
  eventQueueCapacity : Int
  lock : Text
  context : Text

structure DeferredContext where
  capacity : Nat
  policy : Text
  deriving DecidableEq

/-- `DeferredContextPlan`, of a board that may have an event queue; `none` where an assertion
fails. -/
def deferredContextPlan {n : Nat} (demands : DemandSummary n) (board : Option QueueBoard) :
    Option DeferredContext :=
  let selected := demands.demands.any fun d => d.context = literal "main_loop"
  match selected, board with
  | false, _ => some ⟨0, []⟩
  | true, none => none
  | true, some board => do
      guard (Event.QueueCapacity.valid board.eventQueueCapacity)
      guard (validComponent board.lock && validComponent board.context)
      let policy ← Event.ContextPolicyIdentity.value board.lock board.context
      guard (validComponent policy)
      return ⟨board.eventQueueCapacity.toNat, policy⟩

/-- **What the deferred context can be**: none, or one within the bounds of a queue. -/
theorem deferredContextPlan_bounds {n : Nat} {demands : DemandSummary n} {board : Option QueueBoard}
    {c : DeferredContext} (h : deferredContextPlan demands board = some c) :
    if demands.demands.any fun d => d.context = literal "main_loop" then
      (1 ≤ c.capacity ∧ c.capacity ≤ 2048) ∧ validComponent c.policy
    else c = ⟨0, []⟩ := by
  unfold deferredContextPlan at h
  cases hselected : demands.demands.any fun d => d.context = literal "main_loop" with
  | false =>
      rw [hselected] at h
      cases h
      exact rfl
  | true =>
      rw [hselected] at h
      cases board with
      | none => cases h
      | some board =>
          simp only [Option.bind_eq_bind, Option.bind_eq_some_iff, Option.guard_eq_some'] at h
          obtain ⟨_, hcapacity, _, -, policy, -, _, hpolicy, hc⟩ := h
          cases hc
          rw [Event.QueueCapacity.valid, Bool.and_eq_true, decide_eq_true_eq, decide_eq_true_eq,
            Event.maximumQueueCapacity] at hcapacity
          rw [if_pos rfl]
          exact ⟨by dsimp only; omega, hpolicy⟩

theorem deferredContextPlan_capacity {n : Nat} {demands : DemandSummary n}
    {board : Option QueueBoard} {c : DeferredContext} (h : deferredContextPlan demands board = some c) :
    c.capacity ≤ 2048 := by
  have hbounds := deferredContextPlan_bounds h
  split at hbounds
  · exact hbounds.1.2
  · rw [hbounds]
    decide

/-- What the library computes of an application at compile time: the board's identities, the demands,
the selected plan and the deferred context. -/
structure CompiledApplication (demandCapacity bindingCapacity : Nat) where
  backend : Text
  target : Text
  board : Text
  compiler : Text
  application : Text
  demands : DemandSummary demandCapacity
  plan : SelectedPlan bindingCapacity
  deferred : DeferredContext

/-- What its probe record carries. -/
def CompiledApplication.content {n m : Nat} (a : CompiledApplication n m) : PlanContent Text :=
  ⟨a.backend, a.target, a.board, a.compiler, a.application, a.deferred.capacity, a.deferred.policy,
    a.demands.demands, a.plan.held⟩

/-! ### What is accepted -/

section Validate

variable {catalog : List (EventIdentity Text)} {demands : List (Demand Text)}

theorem earlierError_eq_none {binding : BindingRecord Text} {earlier : List (BindingRecord Text)} :
    earlierError binding earlier = .none ↔
      binding.source ∉ earlier.map (·.source) ∧ binding.entry ∉ earlier.map (·.entry) := by
  induction earlier with
  | nil => simp [earlierError]
  | cons b earlier ih =>
      rw [earlierError, List.map_cons, List.map_cons, List.mem_cons, List.mem_cons, not_or, not_or]
      by_cases hs : b.source = binding.source
      · simp [hs]
      · by_cases he : b.entry = binding.entry
        · simp [hs, he]
        · rw [if_neg hs, if_neg he, ih]
          exact ⟨fun h => ⟨⟨Ne.symm hs, h.1⟩, Ne.symm he, h.2⟩, fun h => ⟨h.1.2, h.2.2⟩⟩

/-- A binding by itself. -/
structure AcceptedBinding (catalog : List (EventIdentity Text)) (demands : List (Demand Text))
    (binding : BindingRecord Text) : Prop where
  known : binding.event ∈ catalog
  demanded : binding.event ∈ demands.map (·.event)
  sharedSource : binding.sharedSource = false
  texts : ∀ t ∈ binding.texts, validComponent t

theorem acceptedBinding_iff {binding : BindingRecord Text} :
    AcceptedBinding catalog demands binding ↔
      (binding.event ∈ catalog ∧ binding.event ∈ demands.map (·.event)) ∧
        binding.sharedSource = false ∧ ∀ t ∈ binding.texts, validComponent t :=
  ⟨fun h => ⟨⟨h.known, h.demanded⟩, h.sharedSource, h.texts⟩,
    fun h => ⟨h.1.1, h.1.2, h.2.1, h.2.2⟩⟩

theorem bindingError_eq_none {earlier : List (BindingRecord Text)} {binding : BindingRecord Text} :
    bindingError catalog demands earlier binding = .none ↔
      AcceptedBinding catalog demands binding ∧
        (∀ previous ∈ earlier.getLast?, previous.event < binding.event) ∧
        binding.source ∉ earlier.map (·.source) ∧ binding.entry ∉ earlier.map (·.entry) := by
  have hknown : (!(catalog.any fun key => key = binding.event)
      || !(demands.any fun d => d.event = binding.event)) = true ↔
      ¬ (binding.event ∈ catalog ∧ binding.event ∈ demands.map (·.event)) := by
    rw [← Bool.not_and, Bool.not_eq_true', Bool.eq_false_iff, ne_eq, Bool.and_eq_true]
    simp
  have htexts : (!validComponent binding.owner || !validComponent binding.configuration
      || !validComponent binding.source || !validComponent binding.selector
      || !validComponent binding.entry || !validComponent binding.snapshotPolicy
      || !validComponent binding.acknowledgePolicy) = true ↔
      ¬ ∀ t ∈ binding.texts, validComponent t := by
    simp only [← Bool.not_and, Bool.not_eq_true', Bool.eq_false_iff, ne_eq, Bool.and_eq_true,
      BindingRecord.texts, List.forall_mem_cons, and_assoc]
    simp
  rw [acceptedBinding_iff, ← earlierError_eq_none]
  unfold bindingError
  simp only [hknown, htexts]
  by_cases h₁ : binding.event ∈ catalog ∧ binding.event ∈ demands.map (·.event)
  · rw [if_neg (not_not.mpr h₁)]
    by_cases h₂ : binding.sharedSource
    · rw [if_pos h₂]
      exact iff_of_false (fun h => by cases h) fun h => by simp [h₂] at h
    · rw [if_neg h₂]
      by_cases h₃ : ∀ t ∈ binding.texts, validComponent t
      · rw [if_neg (not_not.mpr h₃), and_iff_right ⟨h₁, by simpa using h₂, h₃⟩]
        cases earlier.getLast? with
        | none => simp
        | some previous =>
            by_cases hlt : previous.event < binding.event
            · simp [hlt]
            · simp only [if_neg hlt]
              refine iff_of_false (fun h => ?_) fun h => hlt (h.1 previous rfl)
              split at h <;> cases h
      · rw [if_pos h₃]
        exact iff_of_false (fun h => by cases h) fun h => h₃ h.1.2.2
  · rw [if_pos h₁]
    exact iff_of_false (fun h => by cases h) fun h => h₁ h.1.1

theorem pairwise_lt_append_singleton {earlier : List (BindingRecord Text)}
    {binding : BindingRecord Text} (h : (earlier.map (·.event)).Pairwise (· < ·)) :
    ((earlier ++ [binding]).map (·.event)).Pairwise (· < ·) ↔
      ∀ previous ∈ earlier.getLast?, previous.event < binding.event := by
  rcases List.eq_nil_or_concat earlier with rfl | ⟨init, last, rfl⟩
  · simp
  · rw [List.concat_eq_append] at h ⊢
    have hlast : ∀ previous : BindingRecord Text,
        previous ∈ (init ++ [last]).getLast? ↔ previous = last := by simp [eq_comm]
    rw [List.map_append, List.map_singleton] at h
    have hinit := (List.pairwise_append.mp h).2.2
    simp only [hlast, forall_eq]
    rw [List.map_append, List.map_append, List.map_singleton, List.map_singleton]
    constructor
    · intro hpair
      exact (List.pairwise_append.mp hpair).2.2 _ (by simp) _ (by simp)
    · intro hlt
      refine List.pairwise_append.mpr ⟨h, List.pairwise_singleton _ _, fun e he e' he' => ?_⟩
      rw [List.mem_singleton.mp he']
      rcases List.mem_append.mp he with he | he
      · exact (hinit e he _ (by simp)).trans hlt
      · rwa [List.mem_singleton.mp he]

/-- The loop over the bindings, after some that have passed. -/
theorem bindingsError_eq_none {earlier bindings : List (BindingRecord Text)}
    (hsorted : (earlier.map (·.event)).Pairwise (· < ·)) (hex : Exclusive earlier) :
    bindingsError catalog demands earlier bindings = .none ↔
      (∀ b ∈ bindings, AcceptedBinding catalog demands b) ∧
        ((earlier ++ bindings).map (·.event)).Pairwise (· < ·) ∧ Exclusive (earlier ++ bindings) := by
  induction bindings generalizing earlier with
  | nil => simp [bindingsError, hsorted, hex]
  | cons b bindings ih =>
      have hassoc : earlier ++ b :: bindings = (earlier ++ [b]) ++ bindings := by simp
      rw [bindingsError, List.forall_mem_cons, hassoc]
      constructor
      · intro h
        have hb : bindingError catalog demands earlier b = .none := by
          cases hb : bindingError catalog demands earlier b <;> rw [hb] at h <;> first | rfl | cases h
        rw [hb] at h
        obtain ⟨haccept, hlast, hfresh⟩ := bindingError_eq_none.mp hb
        have hrest := (ih ((pairwise_lt_append_singleton hsorted).mpr hlast)
          (exclusive_append_singleton.mpr ⟨hex, hfresh⟩)).mp h
        exact ⟨⟨haccept, hrest.1⟩, hrest.2⟩
      · rintro ⟨⟨haccept, hall⟩, hpair, hex'⟩
        have hpair' : ((earlier ++ [b]).map (·.event)).Pairwise (· < ·) := by
          rw [List.map_append] at hpair
          exact (List.pairwise_append.mp hpair).1
        have hb : bindingError catalog demands earlier b = .none :=
          bindingError_eq_none.mpr ⟨haccept, (pairwise_lt_append_singleton hsorted).mp hpair',
            (exclusive_append_singleton.mp hex'.of_append).2⟩
        rw [hb]
        exact (ih hpair' hex'.of_append).mpr ⟨hall, hpair, hex'⟩

theorem demandsError_eq_none {bindings : List (BindingRecord Text)} :
    demandsError bindings demands = .none ↔
      ∀ d ∈ demands, d.event ∈ bindings.map (·.event) := by
  induction demands with
  | nil => simp [demandsError]
  | cons d demands ih =>
      have hany : (bindings.any fun binding => d.event = binding.event) = true ↔
          d.event ∈ bindings.map (·.event) := by
        simp only [List.any_eq_true, decide_eq_true_eq, List.mem_map, @eq_comm _ d.event]
      rw [demandsError, List.forall_mem_cons, ← ih, ← hany]
      split
      · next h => exact (and_iff_right h).symm
      · next h => exact iff_of_false (fun hx => by cases hx) fun hx => h hx.1

end Validate

/-- **What `validate` accepts.** -/
theorem validate_eq_none {n m : Nat} {catalog : List (EventIdentity Text)}
    {demands : DemandSummary n} {plan : SelectedPlan m} :
    validate catalog demands plan = .none ↔
      (plan.searchExhausted = false ∧ plan.allocationOk = true) ∧
        (plan.count = demands.count ∧ plan.count ≤ m) ∧
        (∀ b ∈ plan.held, AcceptedBinding catalog demands.demands b) ∧
        (plan.held.map (·.event)).Pairwise (· < ·) ∧ Exclusive plan.held ∧
        ∀ d ∈ demands.demands, d.event ∈ plan.held.map (·.event) := by
  have hscan := @bindingsError_eq_none catalog demands.demands [] plan.held .nil
    ⟨List.nodup_nil, List.nodup_nil⟩
  rw [List.nil_append] at hscan
  rw [← demandsError_eq_none, ← and_assoc (b := Exclusive _), ← and_assoc (b := _ ∧ Exclusive _),
    ← hscan]
  unfold validate
  by_cases h₁ : plan.searchExhausted
  · rw [if_pos h₁]
    exact iff_of_false (fun h => by cases h) fun h => by simp [h₁] at h
  · rw [if_neg h₁]
    by_cases h₂ : plan.allocationOk
    · rw [if_neg (by simp [h₂])]
      by_cases h₃ : plan.count ≠ demands.count ∨ plan.count > m
      · rw [if_pos h₃]
        exact iff_of_false (fun h => by cases h) fun h => by omega
      · rw [if_neg h₃]
        have hcount : plan.count = demands.count ∧ plan.count ≤ m := by omega
        rw [and_iff_right ⟨by simpa using h₁, h₂⟩, and_iff_right hcount]
        cases bindingsError catalog demands.demands [] plan.held <;> simp
    · rw [if_pos (by simp [h₂])]
      exact iff_of_false (fun h => by cases h) fun h => h₂ h.1.2

end Grevir.Interrupt
