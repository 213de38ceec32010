import Grevir.Interrupt.Binding
import Grevir.Interrupt.Catalog
import Grevir.Support.Checks

/-!
# Interrupt — Handler

The handlers of a program's events, in the two passes that compile it.  The probe pass has no emitted
header, and an `on_interrupt` counts as soon as it is declared.  In the final pass the header binds some
keys; an `on_interrupt` is only well formed for the catalog's event of a bound key, and each bound event
is dispatched to the handler its `HandlerChoice` finds, which is compared with the header's texts.

* `compile`: the events of the catalog with their choices, in either pass.
* `compile_final_iff`: what the final pass asks more than the probe pass, with any header.
* `dispatch_eq_some`: a dispatch that compiles calls the handler the program declares.
-/

namespace Grevir.Interrupt

/-- A specialisation of `BoundEventKey`.  Its `Event` is the catalog's event of the key. -/
structure BoundEventKey where
  key : EventIdentity Text
  id : Nat
  handler : Text
  context : Text
  delivery : Text

/-- The demand the texts of a `BoundEventKey` are those of. -/
def BoundEventKey.demand (b : BoundEventKey) : Demand Text :=
  ⟨b.key, b.handler, b.context, b.delivery⟩

/-- A pass of the compiler: with `GREVIR_IRQ_PROBE` defined, or with the emitted header. -/
inductive Pass where
  | probe
  | final (header : List BoundEventKey)

/-- The keys a pass binds. -/
def Pass.bound : Pass → List BoundEventKey
  | .probe => []
  | .final header => header

/-- What a translation unit declares: the key and the route of each event type, the events with an
`on_interrupt`, those with an `on_event`, and the events of the application's catalog. -/
structure TranslationUnit (E : Type) where
  key : E → EventIdentity Text
  context : E → RouteContext
  delivery : E → RouteDelivery
  onInterrupt : List E
  onEvent : List E
  events : List E

/-- What `dispatch_bound_interrupt` calls. -/
inductive Handling where
  | onInterrupt | onEvent | postFromIsr
  deriving DecidableEq

/-- The choice of an event, where the assertions on it hold. -/
def HandlerChoice.of (raw event : Bool) (context : RouteContext) (delivery : RouteDelivery) :
    Option HandlerChoice :=
  if h : ¬ (raw = true ∧ event = true) ∧ (event = true → context = .isrLevel ∧ delivery = .direct ∨
      context = .mainLoop ∧ (delivery = .elide ∨ delivery = .stream)) then
    some ⟨raw, event, context, delivery, h.1, h.2⟩
  else none

def HandlerChoice.isDeferred (c : HandlerChoice) : Bool :=
  c.context = .mainLoop && (c.delivery = .elide || c.delivery = .stream)

namespace TranslationUnit

variable {E : Type} [DecidableEq E] (u : TranslationUnit E)

/-! ### The catalog's events by key -/

/-- `Find`; `none` is `void`. -/
def find (key : EventIdentity Text) : List E → Option E
  | [] => none
  | first :: rest => if key = u.key first then some first else find key rest

/-- `EventCatalog::ByKey`. -/
def byKey (key : EventIdentity Text) : Option E := u.find key u.events

/-- `Unique`. -/
def unique : List E → Bool
  | [] => true
  | first :: rest => (rest.all fun e => u.key first ≠ u.key e) && unique rest

/-! ### The choice of a handler -/

/-- The header's `BoundEventKey` of an event's key. -/
def boundKey (header : List BoundEventKey) (e : E) : Option BoundEventKey :=
  header.find? fun b => b.key = u.key e

/-- `BindingGate::id`; `none` where the gate is ill formed. -/
def gateId (pass : Pass) (e : E) : Option Nat :=
  match pass with
  | .probe => some 0
  | .final header => do
      let binding ← u.boundKey header e
      guard (u.byKey binding.key = some e)
      return binding.id

/-- `HandlerChoice::raw`; `none` where its gate is ill formed. -/
def raw (pass : Pass) (e : E) : Option Bool :=
  match pass with
  | .probe => some (decide (e ∈ u.onInterrupt))
  | .final header =>
      if (u.boundKey header e).isSome then do
        let _ ← u.gateId pass e
        return decide (e ∈ u.onInterrupt)
      else some false

/-- `HandlerChoice`. -/
def handlerChoice (pass : Pass) (e : E) : Option HandlerChoice := do
  let raw ← u.raw pass e
  HandlerChoice.of raw (decide (e ∈ u.onEvent)) (u.context e) (u.delivery e)

/-! ### A pass -/

/-- The header's own assertions: it binds no key twice, and the catalog has each. -/
def headerAccepted (pass : Pass) : Bool :=
  (pass.bound.map (·.key)).Nodup && pass.bound.all fun b => (u.byKey b.key).isSome

/-- **The events of the catalog with their choices**, where the declarations and the catalog are well
formed in the pass. -/
def compile (pass : Pass) : Option (List Event) := do
  guard (u.unique u.events)
  guard (u.headerAccepted pass)
  guard (u.onInterrupt.all fun e => (u.gateId pass e).isSome)
  let events ← u.events.mapM fun e => do
    let choice ← u.handlerChoice pass e
    return ⟨u.key e, choice⟩
  guard (CatalogData.valid (CatalogData.keys events.toArray.toVector).toList)
  return events

/-- `dispatch_bound_interrupt`: what it calls, where its assertions hold.  The board has an event queue
or not. -/
def dispatchBoundInterrupt (header : List BoundEventKey) (queue : Bool) (e : E) : Option Handling := do
  let choice ← u.handlerChoice (.final header) e
  let binding ← u.boundKey header e
  guard (choice.raw || choice.event)
  guard (choice.handlerText = binding.handler)
  guard (choice.contextText = binding.context)
  guard (choice.deliveryText = binding.delivery)
  if choice.raw then return .onInterrupt
  else if choice.event && choice.isDirect then return .onEvent
  else
    guard choice.isDeferred
    guard queue
    return .postFromIsr

/-- The program has a handler of the event. -/
def handles (e : E) : Bool := decide (e ∈ u.onInterrupt) || decide (e ∈ u.onEvent)

/-- The handling a program declares for an event. -/
def declared (e : E) : Option Handling :=
  if e ∈ u.onInterrupt then some .onInterrupt
  else if e ∈ u.onEvent then
    if u.context e = .isrLevel ∧ u.delivery e = .direct then some .onEvent else some .postFromIsr
  else none

/-! ### What is found by key -/

omit [DecidableEq E] in
theorem unique_iff {es : List E} : u.unique es ↔ (es.map u.key).Nodup := by
  induction es with
  | nil => simp [unique]
  | cons e es ih =>
      have hrest : (es.all fun e' => u.key e ≠ u.key e') = true ↔ u.key e ∉ es.map u.key := by
        simp only [List.all_eq_true, decide_eq_true_eq, List.mem_map, not_exists, not_and]
        exact forall₂_congr fun e' _ => ne_comm
      rw [unique, Bool.and_eq_true, ih, hrest, List.map_cons, List.nodup_cons]

omit [DecidableEq E] in
theorem find_spec {key : EventIdentity Text} {es : List E} {e : E} (h : u.find key es = some e) :
    e ∈ es ∧ u.key e = key := by
  induction es with
  | nil => cases h
  | cons first es ih =>
      rw [find] at h
      split at h
      next hkey =>
        cases h
        exact ⟨List.mem_cons_self, hkey.symm⟩
      next hkey => exact ⟨List.mem_cons_of_mem _ (ih h).1, (ih h).2⟩

omit [DecidableEq E] in
/-- **An event is what is found by its key**, in a catalog of different keys. -/
theorem find_key {es : List E} (h : (es.map u.key).Nodup) {e : E} (he : e ∈ es) :
    u.find (u.key e) es = some e := by
  have hsome : ∀ es : List E, e ∈ es → ∃ e', u.find (u.key e) es = some e' := by
    intro es
    induction es with
    | nil => intro he; cases he
    | cons first es ih =>
        intro he
        rw [find]
        split
        next hkey => exact ⟨first, rfl⟩
        next hkey =>
          rcases List.mem_cons.mp he with rfl | he
          · exact absurd rfl hkey
          · exact ih he
  obtain ⟨e', hfind⟩ := hsome es he
  obtain ⟨he', hkey⟩ := u.find_spec hfind
  rw [hfind, List.inj_on_of_nodup_map h he' he hkey]

omit [DecidableEq E] in
theorem boundKey_spec {header : List BoundEventKey} {e : E} {b : BoundEventKey}
    (h : u.boundKey header e = some b) : b ∈ header ∧ b.key = u.key e := by
  rw [boundKey] at h
  exact ⟨List.mem_of_find?_eq_some h, by simpa using List.find?_some h⟩

omit [DecidableEq E] in
theorem isSome_boundKey {header : List BoundEventKey} {e : E} :
    (u.boundKey header e).isSome ↔ u.key e ∈ header.map (·.key) := by
  rw [boundKey, List.find?_isSome, List.mem_map]
  simp only [decide_eq_true_eq]

omit [DecidableEq E] in
/-- The binding of an event's key is the only one of that key. -/
theorem boundKey_eq {header : List BoundEventKey} (h : (header.map (·.key)).Nodup)
    {b : BoundEventKey} (hb : b ∈ header) {e : E} (hkey : b.key = u.key e) :
    u.boundKey header e = some b := by
  obtain ⟨b', hb'⟩ := Option.isSome_iff_exists.mp (u.isSome_boundKey.mpr (List.mem_map.mpr ⟨b, hb, hkey⟩))
  obtain ⟨hmem, hkey'⟩ := u.boundKey_spec hb'
  rw [hb', List.inj_on_of_nodup_map h hmem hb (hkey'.trans hkey.symm)]

/-! ### The final pass against the probe pass -/

/-- A gate of the final pass is well formed at the catalog's event of a bound key, and there only. -/
theorem isSome_gateId_final (hunique : (u.events.map u.key).Nodup) {header : List BoundEventKey} {e : E} :
    (u.gateId (.final header) e).isSome ↔ e ∈ u.events ∧ u.key e ∈ header.map (·.key) := by
  rw [← isSome_boundKey, gateId]
  cases hb : u.boundKey header e with
  | none => simp
  | some b =>
      have hkey := (u.boundKey_spec hb).2
      have hfind : u.byKey b.key = some e ↔ e ∈ u.events := by
        rw [hkey, byKey]
        exact ⟨fun h => (u.find_spec h).1, u.find_key hunique⟩
      by_cases he : e ∈ u.events
      · simp [hfind.mpr he, he]
      · simp [mt hfind.mp he, he]

theorem raw_final (hunique : (u.events.map u.key).Nodup) {header : List BoundEventKey} {e : E}
    (he : e ∈ u.events) :
    u.raw (.final header) e =
      some (decide (u.key e ∈ header.map (·.key)) && decide (e ∈ u.onInterrupt)) := by
  rw [raw]
  by_cases hb : u.key e ∈ header.map (·.key)
  · obtain ⟨id, hid⟩ := Option.isSome_iff_exists.mp
      ((u.isSome_gateId_final hunique).mpr ⟨he, hb⟩)
    rw [if_pos (u.isSome_boundKey.mpr hb), hid, decide_eq_true hb, Bool.true_and]
    rfl
  · rw [if_neg (mt u.isSome_boundKey.mp hb), decide_eq_false hb, Bool.false_and]

/-- Where every `on_interrupt` is of a bound event, both passes choose alike. -/
theorem handlerChoice_final (hunique : (u.events.map u.key).Nodup) {header : List BoundEventKey}
    (hbound : ∀ e ∈ u.onInterrupt, u.key e ∈ header.map (·.key)) {e : E} (he : e ∈ u.events) :
    u.handlerChoice (.final header) e = u.handlerChoice .probe e := by
  have hraw : (decide (u.key e ∈ header.map (·.key)) && decide (e ∈ u.onInterrupt)) =
      decide (e ∈ u.onInterrupt) := by
    rw [← Bool.decide_and, decide_eq_decide]
    exact ⟨And.right, fun h => ⟨hbound e h, h⟩⟩
  rw [handlerChoice, handlerChoice, u.raw_final hunique he, hraw, raw]

/-- The choices of a pass, in the catalog's order. -/
def choices (pass : Pass) : Option (List Event) :=
  u.events.mapM fun e => do
    let choice ← u.handlerChoice pass e
    return ⟨u.key e, choice⟩

/-- **What a pass asks.** -/
theorem compile_eq_some {pass : Pass} {events : List Event} :
    u.compile pass = some events ↔
      (u.events.map u.key).Nodup ∧ u.headerAccepted pass ∧
        (∀ e ∈ u.onInterrupt, (u.gateId pass e).isSome) ∧ u.choices pass = some events ∧
        CatalogData.valid (CatalogData.keys events.toArray.toVector).toList := by
  simp only [compile, Option.bind_eq_bind, Option.bind_eq_some_iff, Option.guard_eq_some',
    u.unique_iff, List.all_eq_true, choices]
  constructor
  · rintro ⟨-, hunique, -, hheader, -, hgates, events', hchoices, -, hvalid, heq⟩
    cases heq
    exact ⟨hunique, hheader, hgates, hchoices, hvalid⟩
  · rintro ⟨hunique, hheader, hgates, hchoices, hvalid⟩
    exact ⟨(), hunique, (), hheader, (), hgates, events, hchoices, (), hvalid, rfl⟩

/-- **What the final pass asks more than the probe pass**: a header of catalog events, each bound once,
among them every event with an `on_interrupt`.  The events and their choices are the same. -/
theorem compile_final_iff {header : List BoundEventKey} {events : List Event} :
    u.compile (.final header) = some events ↔
      u.compile .probe = some events ∧ u.headerAccepted (.final header) ∧
        ∀ e ∈ u.onInterrupt, e ∈ u.events ∧ u.key e ∈ header.map (·.key) := by
  rw [compile_eq_some, compile_eq_some]
  have hchoices : (u.events.map u.key).Nodup →
      (∀ e ∈ u.onInterrupt, e ∈ u.events ∧ u.key e ∈ header.map (·.key)) →
      u.choices (.final header) = u.choices .probe := by
    intro hunique hbound
    refine option_mapM_congr fun e he => ?_
    rw [u.handlerChoice_final hunique (fun e he => (hbound e he).2) he]
  constructor
  · rintro ⟨hunique, hheader, hgates, hevents, hvalid⟩
    have hbound := fun e he => (u.isSome_gateId_final hunique).mp (hgates e he)
    exact ⟨⟨hunique, rfl, fun _ _ => rfl, hchoices hunique hbound ▸ hevents, hvalid⟩, hheader, hbound⟩
  · rintro ⟨⟨hunique, -, -, hevents, hvalid⟩, hheader, hbound⟩
    exact ⟨hunique, hheader, fun e he => (u.isSome_gateId_final hunique).mpr (hbound e he),
      (hchoices hunique hbound).trans hevents, hvalid⟩

/-! ### The events of a pass -/

/-- An event of the catalog and what is compiled of it in the probe pass. -/
structure Chosen (e : E) (compiled : Event) : Prop where
  key : compiled.key = u.key e
  raw : compiled.choice.raw = decide (e ∈ u.onInterrupt)
  event : compiled.choice.event = decide (e ∈ u.onEvent)
  context : compiled.choice.context = u.context e
  delivery : compiled.choice.delivery = u.delivery e

theorem handlerChoice_probe {e : E} {c : HandlerChoice} (h : u.handlerChoice .probe e = some c) :
    u.Chosen e ⟨u.key e, c⟩ := by
  have hof : HandlerChoice.of (decide (e ∈ u.onInterrupt)) (decide (e ∈ u.onEvent)) (u.context e)
      (u.delivery e) = some c := h
  rw [HandlerChoice.of] at hof
  split at hof
  next hassert =>
    cases hof
    exact ⟨rfl, rfl, rfl, rfl, rfl⟩
  next hassert => cases hof

/-- **The events of the probe pass are the catalog's, as they are declared.** -/
theorem chosen_of_compile {events : List Event} (h : u.compile .probe = some events) :
    List.Forall₂ u.Chosen u.events events := by
  obtain ⟨-, -, -, hchoices, -⟩ := u.compile_eq_some.mp h
  refine (option_mapM_eq_some.mp hchoices).imp fun e event hevent => ?_
  obtain ⟨c, hc, heq⟩ := Option.bind_eq_some_iff.mp hevent
  cases heq
  exact u.handlerChoice_probe hc

theorem keys_of_compile {events : List Event} (h : u.compile .probe = some events) :
    events.map Event.key = u.events.map u.key := by
  have hkeys : List.Forall₂ (· = ·) (u.events.map u.key) (events.map Event.key) := by
    rw [List.forall₂_map_left_iff, List.forall₂_map_right_iff]
    exact (u.chosen_of_compile h).imp fun e compiled hchosen => hchosen.key.symm
  exact (List.forall₂_eq_eq_eq ▸ hkeys).symm

/-- The event and its choice, of an event of the catalog. -/
theorem exists_chosen {events : List Event} (h : u.compile .probe = some events) {e : E}
    (he : e ∈ u.events) :
    ∃ c, u.handlerChoice .probe e = some c ∧ (⟨u.key e, c⟩ : Event) ∈ events ∧
      u.Chosen e ⟨u.key e, c⟩ := by
  obtain ⟨-, -, -, hchoices, -⟩ := u.compile_eq_some.mp h
  obtain ⟨i, hi, rfl⟩ := List.getElem_of_mem he
  have hall := option_mapM_eq_some.mp hchoices
  have hi' : i < events.length := hall.length_eq ▸ hi
  obtain ⟨c, hc, heq⟩ := Option.bind_eq_some_iff.mp (hall.get hi hi')
  have hmem : events[i] ∈ events := List.getElem_mem hi'
  exact ⟨c, hc, Option.some.inj heq ▸ hmem, u.handlerChoice_probe hc⟩

/-! ### Dispatch -/

/-- What a choice's event is dispatched to. -/
theorem declared_eq {e : E} {c : HandlerChoice} (h : u.Chosen e ⟨u.key e, c⟩) :
    u.declared e =
      if c.raw then some .onInterrupt
      else if c.event then if c.isDirect then some .onEvent else some .postFromIsr
      else none := by
  have hdirect : c.isDirect = true ↔ u.context e = .isrLevel ∧ u.delivery e = .direct := by
    rw [HandlerChoice.isDirect, ← h.context, ← h.delivery]
    simp
  have hraw : c.raw = true ↔ e ∈ u.onInterrupt := by rw [h.raw, decide_eq_true_iff]
  have hevent : c.event = true ↔ e ∈ u.onEvent := by rw [h.event, decide_eq_true_iff]
  simp only [declared, hdirect, hraw, hevent]

/-- **A dispatch that compiles calls the handler the program declares**, and it compiles where the header
says what the program chooses: the handler's texts, and a queue for an event that is deferred. -/
theorem dispatch_eq_some {events : List Event} {header : List BoundEventKey}
    (h : u.compile (.final header) = some events) {e : E} (he : e ∈ u.events) {c : HandlerChoice}
    (hc : u.handlerChoice .probe e = some c) {b : BoundEventKey} (hb : u.boundKey header e = some b)
    {queue : Bool} {handling : Handling} :
    u.dispatchBoundInterrupt header queue e = some handling ↔
      c.demand (u.key e) = b.demand ∧ u.declared e = some handling ∧
        (handling = .postFromIsr → queue = true) := by
  obtain ⟨hprobe, hheader, hbound⟩ := u.compile_final_iff.mp h
  obtain ⟨hunique, -⟩ := u.compile_eq_some.mp h
  have hchoice : u.handlerChoice (.final header) e = some c := by
    rw [u.handlerChoice_final hunique (fun e he => (hbound e he).2) he, hc]
  have hdeferred : c.event = true → c.isDirect = false → c.isDeferred = true := by
    intro hevent hdirect
    rcases c.routed hevent with ⟨hcontext, hdelivery⟩ | ⟨hcontext, hdelivery⟩
    · simp [HandlerChoice.isDirect, hcontext, hdelivery] at hdirect
    · simpa [HandlerChoice.isDeferred, hcontext] using hdelivery
  rw [u.declared_eq (u.handlerChoice_probe hc), dispatchBoundInterrupt, hchoice, hb]
  simp only [Option.bind_eq_bind, Option.bind_some, Option.bind_eq_some_iff, Option.guard_eq_some',
    HandlerChoice.demand, BoundEventKey.demand, (u.boundKey_spec hb).2, Demand.mk.injEq, true_and]
  cases hraw : c.raw with
  | true => cases handling <;> simp
  | false =>
      cases hevent : c.event with
      | false => simp
      | true =>
          cases hdirect : c.isDirect with
          | true => cases handling <;> simp
          | false =>
              have hqueue : ∀ handling, (Option.bind (guard (queue = true)) fun _ => some Handling.postFromIsr) =
                  some handling ↔ Handling.postFromIsr = handling ∧ queue = true := by
                intro handling
                cases queue <;> simp
              cases handling <;> simp [hdeferred hevent hdirect, and_assoc, hqueue]

theorem declared_of_dispatch {events : List Event} {header : List BoundEventKey}
    (h : u.compile (.final header) = some events) {e : E} (he : e ∈ u.events) {queue : Bool}
    {handling : Handling} (hd : u.dispatchBoundInterrupt header queue e = some handling) :
    u.declared e = some handling := by
  obtain ⟨c, hc, -⟩ := u.exists_chosen (u.compile_final_iff.mp h).1 he
  obtain ⟨_, -, hrest⟩ := Option.bind_eq_some_iff.mp hd
  obtain ⟨b, hb, -⟩ := Option.bind_eq_some_iff.mp hrest
  exact ((u.dispatch_eq_some h he hc hb).mp hd).2.1

/-- The demands of the events are those of the events that are handled. -/
theorem mem_handled_iff {events : List Event} (h : u.compile .probe = some events) {d : Demand Text} :
    d ∈ DemandData.handled events ↔
      ∃ e ∈ u.events, ∃ c, u.handlerChoice .probe e = some c ∧ u.handles e ∧ c.demand (u.key e) = d := by
  have hpresent : ∀ e c, u.handlerChoice .probe e = some c → (c.present = true ↔ u.handles e = true) := by
    intro e c hc
    have hchosen := u.handlerChoice_probe hc
    rw [HandlerChoice.present, handles, ← hchosen.raw, ← hchosen.event]
  obtain ⟨-, -, -, hchoices, -⟩ := u.compile_eq_some.mp h
  rw [mem_handled]
  constructor
  · rintro ⟨compiled, hcompiled, hp, rfl⟩
    obtain ⟨e, he, hevent⟩ := exists_left_of_forall₂ (option_mapM_eq_some.mp hchoices) compiled hcompiled
    obtain ⟨c, hc, heq⟩ := Option.bind_eq_some_iff.mp hevent
    cases heq
    exact ⟨e, he, c, hc, (hpresent e c hc).mp hp, rfl⟩
  · rintro ⟨e, he, c, hc, hhandles, rfl⟩
    obtain ⟨c', hc', hmem, -⟩ := u.exists_chosen h he
    obtain rfl : c' = c := Option.some.inj (hc'.symm.trans hc)
    exact ⟨_, hmem, (hpresent e c' hc).mpr hhandles, rfl⟩

section OwnHeader

variable {u} {events : List Event} {header : List BoundEventKey}

theorem keys_perm_of_demands (hdemands : (header.map BoundEventKey.demand).Perm (DemandData.handled events)) :
    (header.map (·.key)).Perm ((DemandData.handled events).map Demand.event) := by
  have hperm := hdemands.map Demand.event
  rwa [List.map_map] at hperm

/-- A header of the program's own demands binds the events that are handled. -/
theorem bound_iff_handles (hprobe : u.compile .probe = some events)
    (hdemands : (header.map BoundEventKey.demand).Perm (DemandData.handled events)) {e : E}
    (he : e ∈ u.events) : u.key e ∈ header.map (·.key) ↔ u.handles e := by
  obtain ⟨hunique, -⟩ := u.compile_eq_some.mp hprobe
  rw [(keys_perm_of_demands hdemands).mem_iff, List.mem_map]
  constructor
  · rintro ⟨d, hd, hkey⟩
    obtain ⟨e', he', c, -, hhandles, rfl⟩ := (u.mem_handled_iff hprobe).mp hd
    rwa [List.inj_on_of_nodup_map hunique he he' hkey.symm]
  · intro hhandles
    obtain ⟨c, hc, -⟩ := u.exists_chosen hprobe he
    exact ⟨_, (u.mem_handled_iff hprobe).mpr ⟨e, he, c, hc, hhandles, rfl⟩, rfl⟩

/-- **With a header of the program's own demands** the final pass asks only that every `on_interrupt` is
of an event of the catalog. -/
theorem compile_final_own (hprobe : u.compile .probe = some events)
    (hdemands : (header.map BoundEventKey.demand).Perm (DemandData.handled events)) :
    u.compile (.final header) = some events ↔ ∀ e ∈ u.onInterrupt, e ∈ u.events := by
  obtain ⟨hunique, -⟩ := u.compile_eq_some.mp hprobe
  have haccepted : u.headerAccepted (.final header) = true := by
    have hnodup : (header.map (·.key)).Nodup := by
      refine (keys_perm_of_demands hdemands).nodup_iff.mpr (DemandData.nodup_handled ?_)
      rwa [u.keys_of_compile hprobe]
    rw [headerAccepted, Bool.and_eq_true, decide_eq_true_iff, List.all_eq_true]
    refine ⟨hnodup, fun b hb => ?_⟩
    obtain ⟨e, he, c, -, -, hd⟩ := (u.mem_handled_iff hprobe).mp
      (hdemands.mem_iff.mp (List.mem_map_of_mem hb))
    have hkey : u.key e = b.key := congrArg Demand.event hd
    rw [byKey, ← hkey, u.find_key hunique he]
    rfl
  rw [compile_final_iff]
  constructor
  · exact fun h e he => (h.2.2 e he).1
  · intro h
    refine ⟨hprobe, haccepted, fun e he => ⟨h e he, (bound_iff_handles hprobe hdemands (h e he)).mpr ?_⟩⟩
    rw [handles, decide_eq_true he, Bool.true_or]

end OwnHeader

/-- The demand of a deferred event is for the main loop. -/
theorem context_of_deferred {e : E} {c : HandlerChoice} (hc : u.handlerChoice .probe e = some c)
    (h : u.declared e = some .postFromIsr) : c.contextText = literal "main_loop" := by
  rw [u.declared_eq (u.handlerChoice_probe hc)] at h
  rw [HandlerChoice.contextText]
  cases hraw : c.raw with
  | true => simp [hraw] at h
  | false =>
      cases hdirect : c.isDirect with
      | true => cases hevent : c.event <;> simp [hraw, hdirect, hevent] at h
      | false => rfl

/-- **With a header of the program's own demands every handled event is dispatched as declared**, where
the board has a queue for those that are deferred. -/
theorem exists_dispatch {events : List Event} {header : List BoundEventKey}
    (h : u.compile (.final header) = some events)
    (hdemands : (header.map BoundEventKey.demand).Perm (DemandData.handled events)) {e : E}
    (he : e ∈ u.events) (hhandles : u.handles e) {queue : Bool}
    (hqueue : u.declared e = some .postFromIsr → queue = true) :
    ∃ handling, u.dispatchBoundInterrupt header queue e = some handling ∧
      u.declared e = some handling := by
  obtain ⟨hprobe, hheader, -⟩ := u.compile_final_iff.mp h
  obtain ⟨c, hc, -, hchosen⟩ := u.exists_chosen hprobe he
  have hmem : c.demand (u.key e) ∈ header.map BoundEventKey.demand :=
    hdemands.mem_iff.mpr ((u.mem_handled_iff hprobe).mpr ⟨e, he, c, hc, hhandles, rfl⟩)
  obtain ⟨b, hb, hdemand⟩ := List.mem_map.mp hmem
  have hkey : b.key = u.key e := congrArg Demand.event hdemand
  rw [headerAccepted, Bool.and_eq_true, decide_eq_true_iff] at hheader
  have hdeclared : ∃ handling, u.declared e = some handling := by
    rw [handles, Bool.or_eq_true, decide_eq_true_iff, decide_eq_true_iff] at hhandles
    rw [declared]
    by_cases hraw : e ∈ u.onInterrupt
    · exact ⟨_, if_pos hraw⟩
    · rw [if_neg hraw, if_pos (hhandles.resolve_left hraw)]
      split
      next hdirect => exact ⟨_, rfl⟩
      next hdirect => exact ⟨_, rfl⟩
  obtain ⟨handling, hhandling⟩ := hdeclared
  refine ⟨handling, ?_, hhandling⟩
  refine (u.dispatch_eq_some h he hc (u.boundKey_eq hheader.1 hb hkey)).mpr
    ⟨hdemand.symm, hhandling, ?_⟩
  rintro rfl
  exact hqueue hhandling

end TranslationUnit

end Grevir.Interrupt
