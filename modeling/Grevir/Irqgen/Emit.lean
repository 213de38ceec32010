import Grevir.Irqgen.Canonical

/-!
# Irqgen — Emit

The C++ emitted for a plan: a header that records the plan's demands, and a source that asserts the
live application is the one the plan was made for, then dispatches each bound source and installs
them all.

A plan is read here through its subscripts, as far as the emitter reads it.  What the outputs assert, bind
and route is kept apart from its text, so that what they say can be stated too: the lines are those of
these lists.

* `assertions`, `boundEvents`, `routines`: what is asserted, bound and routed.
* `contentOf_eq`: the content read of a document is the content it represents.
* `planOf_sortKeys`: the plan of some content reads back, in whatever order its keys are.
-/

namespace Grevir.Irqgen

open Interrupt Json

def EMITTER : String := "grevir_irqgen_4"

/-- What is emitted for a source group: its policies, and the events of its bindings. -/
structure SourceGroup where
  source : String
  entry : String
  snapshotPolicy : String
  acknowledgePolicy : String
  events : List (EventIdentity String)
  deriving DecidableEq

/-- A plan as the emitter reads it. -/
structure Plan where
  content : PlanContent String
  sourceGroups : List SourceGroup
  fingerprint : String
  deriving DecidableEq

/-! ### Reading a plan -/

section Read

variable {F : Type}

/-- `value[field]`, a string. -/
def textItem (value : Value F) (field : String) : Except Error String := do
  text (← value.item field)

def listItem (value : Value F) (field : String) : Except Error (List (Value F)) := do
  match ← value.item field with
  | .list items => return items
  | _ => throw .typeError

def natItem (value : Value F) (field : String) : Except Error Nat := do
  match ← value.item field with
  | .int n => return n.toNat
  | _ => throw .typeError

def boolItem (value : Value F) (field : String) : Except Error Bool := do
  match ← value.item field with
  | .bool b => return b
  | _ => throw .typeError

def demandOf (demand : Value F) : Except Error (Demand String) := do
  let event ← key (← demand.item "event")
  let handler ← textItem demand "handler"
  let context ← textItem demand "context"
  let delivery ← textItem demand "delivery"
  return ⟨event, handler, context, delivery⟩

def bindingOf (binding : Value F) : Except Error (BindingRecord String) := do
  let event ← key (← binding.item "event")
  let owner ← textItem binding "owner"
  let configuration ← textItem binding "configuration"
  let source ← textItem binding "source"
  let selector ← textItem binding "selector"
  let entry ← textItem binding "entry"
  let snapshotPolicy ← textItem binding "snapshot_policy"
  let acknowledgePolicy ← textItem binding "acknowledge_policy"
  let dispatchOrder ← natItem binding "dispatch_order"
  let sharedSource ← boolItem binding "shared_source"
  return ⟨event, owner, configuration, source, selector, entry, snapshotPolicy,
    acknowledgePolicy, dispatchOrder, sharedSource⟩

def contentOf (plan : Value F) : Except Error (PlanContent String) := do
  let backend ← textItem plan "backend"
  let target ← textItem plan "target"
  let board ← textItem plan "board"
  let compiler ← textItem plan "compiler"
  let application ← textItem plan "application"
  let context ← plan.item "deferred_context"
  let capacity ← natItem context "capacity"
  let policy ← textItem context "policy"
  let demands ← (← listItem plan "demands").mapM demandOf
  let bindings ← (← listItem plan "bindings").mapM bindingOf
  return ⟨backend, target, board, compiler, application, capacity, policy, demands, bindings⟩

/-- The event of an item of a source group. -/
def eventOf (item : Value F) : Except Error (EventIdentity String) := do
  key (← item.item "event")

def groupOf (group : Value F) : Except Error SourceGroup := do
  let source ← textItem group "source"
  let entry ← textItem group "entry"
  let snapshotPolicy ← textItem group "snapshot_policy"
  let acknowledgePolicy ← textItem group "acknowledge_policy"
  let events ← (← listItem group "events").mapM eventOf
  return ⟨source, entry, snapshotPolicy, acknowledgePolicy, events⟩

def planOf (plan : Value F) : Except Error Plan := do
  let content ← contentOf plan
  let groups ← (← listItem plan "source_groups").mapM groupOf
  let fingerprint ← textItem plan "fingerprint"
  return ⟨content, groups, fingerprint⟩

end Read

/-! ### Texts -/

/-- `_event_type`. -/
def eventType (event : EventIdentity String) : String :=
  "::grevir::interrupt::EventKey<\"" ++ event.instance' ++ "\", \"" ++ event.request ++ "\", \""
    ++ event.kind ++ "\">"

/-- `_source_type`. -/
def sourceType (source : String) : String :=
  "::grevir::interrupt::SourceKey<\"" ++ source ++ "\">"

/-- The braces of a `std::string_view`: a text and its length. -/
def viewText (value : String) : String :=
  "\x7b\"" ++ value ++ "\", " ++ toString value.length ++ "u\x7d"

/-- A call of `literal` on a text. -/
def literalText (value : String) : String :=
  "::grevir::interrupt::literal(\"" ++ value ++ "\")"

/-! ### The assertions -/

/-- An identity of the board. -/
inductive BoardIdentity where
  | backend | target | board | compiler
  deriving DecidableEq

def BoardIdentity.name : BoardIdentity → String
  | .backend => "backend"
  | .target => "target"
  | .board => "board"
  | .compiler => "compiler"

/-- What the source asserts. -/
inductive Assertion where
  | sameDemands
  | fingerprint (value : String)
  | capacity
  | policy
  | identity (member : BoardIdentity) (value : String)
  | bindingCount (count : Nat)
  | binding (index : Nat) (record : BindingRecord String)
  deriving DecidableEq

/-- A binding record, its members in their order. -/
def recordText (binding : BindingRecord String) : String :=
  ", ".intercalate <|
    ("::grevir::interrupt::identity<" ++ eventType binding.event ++ ">()")
      :: binding.texts.map literalText
      ++ [toString binding.dispatchOrder, if binding.sharedSource then "true" else "false"]

def Assertion.render : Assertion → String
  | .sameDemands =>
      "static_assert(::grevir::interrupt::same_demands(" ++
        "::grevir::interrupt::LiveDemandSet<::GrevirApplication>::value, " ++
        "::grevir::interrupt::DemandSet<::GrevirApplication>::value), " ++
        "\"GREVIR_IRQ_STALE_DEMAND_SET\");"
  | .fingerprint value =>
      "static_assert(::grevir::interrupt::literal(" ++
        "::grevir::interrupt::detail::emission_fingerprint) == " ++ literalText value ++ ");"
  | .capacity =>
      "static_assert(::grevir::interrupt::DeferredContextPlan<::GrevirApplication>::capacity == " ++
        "::grevir::interrupt::detail::emitted_event_queue_capacity, " ++
        "\"GREVIR_IRQ_STALE_EVENT_CONTEXT_CAPACITY\");"
  | .policy =>
      "static_assert(::grevir::interrupt::DeferredContextPlan<::GrevirApplication>::policy == " ++
        "::grevir::interrupt::detail::emitted_event_queue_policy, " ++
        "\"GREVIR_IRQ_STALE_EVENT_CONTEXT_POLICY\");"
  | .identity member value =>
      "static_assert(::GrevirApplication::Board::" ++ member.name ++ " == " ++ literalText value
        ++ ");"
  | .bindingCount count =>
      "static_assert(::grevir::interrupt::BindingPlan<::GrevirApplication>::selected.count == " ++
        toString count ++ ");"
  | .binding index record =>
      "static_assert(::grevir::interrupt::BindingPlan<::GrevirApplication>::selected.bindings[" ++
        toString index ++ "] == ::grevir::interrupt::BindingRecord\x7b" ++ recordText record ++
        "\x7d);"

/-- The assertions on the application as a whole. -/
def applicationAssertions (plan : Plan) : List Assertion :=
  [.sameDemands, .fingerprint plan.fingerprint, .capacity, .policy,
    .identity .backend plan.content.backend, .identity .target plan.content.target,
    .identity .board plan.content.board, .identity .compiler plan.content.compiler,
    .bindingCount plan.content.bindings.length]

/-- The assertions on its bindings. -/
def bindingAssertions (plan : Plan) : List Assertion :=
  plan.content.bindings.mapIdx .binding

/-- **All the emitted source asserts.** -/
def assertions (plan : Plan) : List Assertion :=
  applicationAssertions plan ++ bindingAssertions plan

/-! ### The header -/

/-- The lines that record one demand. -/
def demandLines (index : Nat) (demand : Demand String) : List String :=
  let field (member value : String) : String :=
    "    result." ++ member ++ "[" ++ toString index ++ "] = std::string_view" ++ viewText value ++ ";"
  ["    result.keys[" ++ toString index ++ "] = identity<" ++ eventType demand.event ++ ">();",
    field "handlers" demand.handler, field "contexts" demand.context,
    field "deliveries" demand.delivery]

/-- `demand_by_key[...]`: of equal keys the last demand counts. -/
def demandByKey (demands : List (Demand String)) (event : EventIdentity String) :
    Except Error (Demand String) :=
  match demands.reverse.find? fun demand => demand.event = event with
  | some demand => return demand
  | none => throw (.keyError event.instance')

/-- A `BoundEventKey` of the header: an event, bound to its demand. -/
structure BoundEvent where
  number : Nat
  event : EventIdentity String
  demand : Demand String

def BoundEvent.lines (b : BoundEvent) : List String :=
  let field (member value : String) : String :=
    "  static constexpr std::string_view " ++ member ++ viewText value ++ ";"
  ["template <> struct BoundEventKey<" ++ eventType b.event ++ "> \x7b",
    "  using Event = typename EventCatalog<::GrevirApplication>::template ByKey<"
      ++ eventType b.event ++ ">;",
    "  using Application = ::GrevirApplication;",
    "  static_assert(!std::is_same_v<Event, void>, \"GREVIR_IRQ_EVENT_NOT_IN_CATALOG\");",
    "  static constexpr unsigned id = " ++ toString b.number ++ "u;",
    field "handler" b.demand.handler, field "context" b.demand.context,
    field "delivery" b.demand.delivery,
    "\x7d;"]

/-- **What the header binds**: the event of each binding. -/
def boundEvents (plan : Plan) : Except Error (List BoundEvent) :=
  (plan.content.bindings.mapIdx fun i binding => (i + 1, binding.event)).mapM fun item => do
    return ⟨item.1, item.2, ← demandByKey plan.content.demands item.2⟩

def generated : String :=
  "// Generated by grevir-irqgen; edit the application declaration instead."

def headerLines (plan : Plan) : Except Error (List String) := do
  let p := plan.content
  let opening := [
    generated,
    "#pragma once", "#include <grevir/interrupt/catalog.hpp>",
    "namespace grevir::interrupt \x7b",
    "template <> struct DemandSet<::GrevirApplication> \x7b",
    "  inline static constexpr auto value = [] \x7b",
    "    DemandSummary<" ++ toString p.demands.length ++ "> result\x7b\x7d;"]
  let recorded := [
    "    result.count = " ++ toString p.demands.length ++ ";",
    "    return result;",
    "  \x7d();",
    "\x7d;",
    "\x7d // namespace grevir::interrupt",
    "namespace grevir::interrupt::detail \x7b",
    "inline constexpr char emission_fingerprint[] = \"" ++ plan.fingerprint ++ "\";",
    "inline constexpr unsigned emitted_event_queue_capacity = " ++ toString p.capacity ++ "u;",
    "inline constexpr std::string_view emitted_event_queue_policy" ++ viewText p.policy ++ ";"]
  let bound ← boundEvents plan
  return opening ++ (p.demands.mapIdx demandLines).flatten ++ recorded ++ bound.flatMap BoundEvent.lines
    ++ ["\x7d // namespace grevir::interrupt::detail", ""]

/-! ### The source -/

/-- The name of the guard of a source. -/
def guardName (backend source : String) : String :=
  "grevir_irq_source_" ++ backend ++ "_" ++ source

/-- A routine of the source: the group it is for, and the event it dispatches. -/
structure Routine where
  index : Nat
  group : SourceGroup
  event : EventIdentity String

/-- **What the source routes**: the one event of each source group. -/
def routines (plan : Plan) : Except Error (List Routine) :=
  (plan.sourceGroups.mapIdx fun i group => (i, group)).mapM fun item =>
    match item.2.events with
    | event :: _ => pure ⟨item.1, item.2, event⟩
    | [] => throw .indexError

/-- The lines that dispatch a source. -/
def dispatchLines (backend : String) (r : Routine) : List String :=
  let guard := "extern \"C\" \x7b GREVIR_IRQ_GUARD_ATTR volatile unsigned char "
    ++ guardName backend r.group.source ++ " = 0; \x7d"
  let call := "  ::grevir::interrupt::detail::dispatch_bound_interrupt<"
    ++ "typename ::grevir::interrupt::EventCatalog<"
    ++ "::GrevirApplication>::template ByKey<" ++ eventType r.event ++ ">>();"
  if backend ≠ "avr" then
    [guard,
      "namespace grevir::interrupt::detail::source_" ++ toString r.index ++ " \x7b",
      "void dispatch() noexcept \x7b", call, "\x7d", "\x7d"]
  else
    [guard, "ISR(GREVIR_ATMEGA328P_TIMER1_OVERFLOW_VECTOR) \x7b", call, "\x7d"]

/-- The lines that install a source. -/
def installLines (backend : String) (r : Routine) : List String :=
  let guard := "  if (" ++ guardName backend r.group.source ++ " != 0) \x7b return false; \x7d"
  let install := "  if (!::GrevirApplication::Board::template install<" ++ sourceType r.group.source
    ++ ">("
  if backend ≠ "avr" then
    [guard, install,
      "      &source_" ++ toString r.index ++ "::dispatch)) \x7b return false; \x7d"]
  else [guard, install ++ ")) \x7b return false; \x7d"]

def sourceLines (plan : Plan) (applicationHeader : String) : Except Error (List String) := do
  let backend := plan.content.backend
  let opening := [
    generated,
    "#include \"" ++ applicationHeader ++ "\"",
    "#include <grevir/interrupt/install.hpp>",
    "#include <grevir/interrupt/binding.hpp>",
    "#include <grevir/interrupt/demand.hpp>"]
  let guards := [
    "#if defined(__GNUC__) && !defined(__clang__)",
    "#define GREVIR_IRQ_GUARD_ATTR __attribute__((used, externally_visible))",
    "#elif defined(__clang__)",
    "#define GREVIR_IRQ_GUARD_ATTR __attribute__((used))",
    "#else",
    "#define GREVIR_IRQ_GUARD_ATTR",
    "#endif"]
  let device :=
    if backend = "avr" then ["#include <grevir/avr/devices/atmega328p/interrupt_timer1.hpp>"]
    else if backend = "esp32" then ["#include <grevir/arduino_esp32/timer_group0_timer0.hpp>"]
    else []
  let rs ← routines plan
  return opening ++ (applicationAssertions plan).map Assertion.render ++ guards ++ device
    ++ (bindingAssertions plan).map Assertion.render ++ rs.flatMap (dispatchLines backend)
    ++ ["namespace grevir::interrupt::detail \x7b",
      "template <> bool install_bindings<::GrevirApplication>() noexcept \x7b"]
    ++ rs.flatMap (installLines backend)
    ++ ["  return true;", "\x7d", "\x7d", ""]

/-! ### `emit` -/

/-- The bindings and sources the backend has. -/
def checkBackend (plan : Plan) : Except Error Unit := do
  let p := plan.content
  require (p.backend ∈ ["mock", "avr", "esp32"])
    "interrupt emitter is not implemented for this backend"
  require (∀ group ∈ plan.sourceGroups, group.events.length = 1)
    "this emitter needs one distinguishable event per source"
  if p.backend = "avr" then
    require (p.target = "atmega328p") "unsupported AVR interrupt target"
    require (∀ b ∈ p.bindings, b.selector = "overflow"
        ∧ (b.configuration = "normal_period" ∨ b.configuration = "fast_pwm8_period"))
      "unsupported ATmega328P Timer1 configuration"
    require (∀ group ∈ plan.sourceGroups, group.source = "timer1_ovf"
        ∧ group.entry = "timer1_ovf_vect" ∧ group.snapshotPolicy = "timer1_status"
        ∧ group.acknowledgePolicy = "timer1_auto_ack")
      "unsupported ATmega328P interrupt source policy"
  if p.backend = "esp32" then
    require (p.target = "esp32_classic") "unsupported ESP32 interrupt target"
    require (∀ b ∈ p.bindings, b.selector = "alarm" ∧ b.configuration = "period_1ms_div80")
      "unsupported classic ESP32 TG0/T0 configuration"
    require (∀ group ∈ plan.sourceGroups, group.source = "tg0_t0_alarm"
        ∧ group.entry = "tg0_t0_intr_alloc" ∧ group.snapshotPolicy = "tg0_t0_status"
        ∧ group.acknowledgePolicy = "tg0_t0_clear_rearm")
      "unsupported classic ESP32 interrupt source policy"

/-- `"\n".join(lines).encode()`. -/
def encodeLines (lines : List String) : List UInt8 := Utf8.bytes ("\n".intercalate lines)

/-- `emit`: the bytes of the header and of the source. -/
def emit (plan : Plan) (applicationHeader : String) : Except Error (List UInt8 × List UInt8) := do
  checkBackend plan
  require (applicationHeader ≠ "" ∧ '"' ∉ applicationHeader.toList ∧ '\n' ∉ applicationHeader.toList)
    "invalid application header path"
  let header ← headerLines plan
  let source ← sourceLines plan applicationHeader
  return (encodeLines header, encodeLines source)

/-- `output_identity`: the digest of both, with a zero byte between them. -/
def outputIdentity (sha256 : List UInt8 → String) (header source : List UInt8) : String :=
  sha256 (header ++ 0 :: source)

/-! ### What is routed -/

/-- The routines are for the source groups, in their order. -/
theorem routines_groups {plan : Plan} {rs : List Routine} (h : routines plan = .ok rs) :
    rs.map (fun r => (r.index, r.group)) = plan.sourceGroups.mapIdx fun i group => (i, group) := by
  have hall : List.Forall₂ (fun item r => (Routine.index r, Routine.group r) = item)
      (plan.sourceGroups.mapIdx fun i group => (i, group)) rs := by
    refine (mapM_eq_ok.mp h).imp fun item r hr => ?_
    split at hr
    next event events hevents =>
      cases hr
      rfl
    next hevents => cases hr
  rw [← List.forall₂_eq_eq_eq, List.forall₂_map_left_iff]
  exact hall.flip

/-- A routine's event is the first of its group. -/
theorem routines_head {plan : Plan} {rs : List Routine} (h : routines plan = .ok rs) :
    ∀ r ∈ rs, r.group.events.head? = some r.event := by
  intro r hr
  obtain ⟨item, -, hitem⟩ := exists_of_mem_mapM h r hr
  split at hitem
  next event events hevents =>
    cases hitem
    rw [hevents, List.head?_cons]
  next hevents => cases hitem

/-- A routine is for one of the source groups, and one of its events. -/
theorem routine_spec {plan : Plan} {rs : List Routine} (h : routines plan = .ok rs) {r : Routine}
    (hr : r ∈ rs) : r.group ∈ plan.sourceGroups ∧ r.event ∈ r.group.events := by
  have hmem : (r.index, r.group) ∈ rs.map fun r => (r.index, r.group) := List.mem_map_of_mem hr
  rw [routines_groups h] at hmem
  obtain ⟨i, hi, heq⟩ := List.mem_mapIdx.mp hmem
  exact ⟨(Prod.mk.inj heq).2 ▸ List.getElem_mem hi, List.mem_of_mem_head? (routines_head h r hr)⟩

/-! ### What is read -/

section Reading

variable {F : Type}

theorem textItem_eq {v : Value F} {field t : String} (h : HasText v field t) :
    textItem v field = .ok t := by
  rw [textItem, h]
  rfl

theorem natItem_eq {v : Value F} {field : String} {n : Nat} (h : v.item field = .ok (.int n)) :
    natItem v field = .ok n := by
  rw [natItem, h]
  rfl

theorem demandOf_eq {v : Value F} {d : Demand String} (h : IsDemand v d) : demandOf v = .ok d := by
  obtain ⟨event, hev, he⟩ := h.event
  rw [demandOf, hev, textItem_eq h.handler, textItem_eq h.context, textItem_eq h.delivery]
  show (key event >>= _) = _
  rw [he.key]
  rfl

theorem bindingOf_eq {v : Value F} {b : BindingRecord String} (h : IsBinding v b) :
    bindingOf v = .ok b := by
  obtain ⟨event, hev, he⟩ := h.event
  have htexts := h.texts
  simp only [TEXT_FIELDS, BindingRecord.texts, List.forall₂_cons] at htexts
  obtain ⟨ho, hc, hsrc, hsel, hen, hsn, hack, -⟩ := htexts
  have hshared : boolItem v "shared_source" = .ok b.sharedSource := by
    rw [boolItem, h.sharedSource]
    rfl
  rw [bindingOf, hev, textItem_eq ho, textItem_eq hc, textItem_eq hsrc, textItem_eq hsel,
    textItem_eq hen, textItem_eq hsn, textItem_eq hack, natItem_eq h.dispatchOrder, hshared]
  show (key event >>= _) = _
  rw [he.key]
  rfl

theorem mapM_eq {α : Type} {f : Value F → Except Error α} {R : Value F → α → Prop}
    (hf : ∀ v a, R v a → f v = .ok a) {vs : List (Value F)} {as : List α}
    (h : List.Forall₂ R vs as) : vs.mapM f = .ok as := by
  induction h with
  | nil => rfl
  | cons hva _ ih =>
      rw [List.mapM_cons, hf _ _ hva, ih]
      rfl

variable [PyFloat F] [FloatText F] (sha256 : List UInt8 → String)

/-- **The content read of a document is the content it represents.** -/
theorem contentOf_eq {v : Value F} {p : PlanContent String} (h : Represents sha256 jsonBytes v p) :
    contentOf v = .ok p := by
  obtain ⟨ds, hdemands, hds⟩ := h.demands
  obtain ⟨bs, hbindings, hbs⟩ := h.bindings
  obtain ⟨context, hcontext, hctx⟩ := h.context
  have hheader := h.header
  simp only [headerFields, PlanContent.header, List.forall₂_cons] at hheader
  obtain ⟨hb, ht, hbo, hco, hap, -⟩ := hheader
  have hlist : listItem v "demands" = .ok ds ∧ listItem v "bindings" = .ok bs := by
    rw [listItem, hdemands, listItem, hbindings]
    exact ⟨rfl, rfl⟩
  rw [contentOf, textItem_eq hb, textItem_eq ht, textItem_eq hbo, textItem_eq hco, textItem_eq hap,
    hcontext, hlist.1, hlist.2]
  show (natItem context "capacity" >>= _) = _
  rw [natItem_eq hctx.capacity, textItem_eq hctx.policy]
  show (ds.mapM demandOf >>= _) = _
  rw [mapM_eq (f := demandOf) (fun _ _ => demandOf_eq) hds]
  show (bs.mapM bindingOf >>= _) = _
  rw [mapM_eq (f := bindingOf) (fun _ _ => bindingOf_eq) hbs]
  rfl

/-- A group as the emitter reads it. -/
def Group.sourceGroup (g : Group) : SourceGroup :=
  ⟨g.source, g.entry, g.snapshotPolicy, g.acknowledgePolicy, g.events.map (·.event)⟩

omit [PyFloat F] [FloatText F] in
theorem key_sortKeys (e : EventIdentity String) :
    key (sortKeys (eventValue e : Value F)) = .ok e := by
  have hv := plain_eventValue (F := F) e
  have htexts : List.Forall₂ (HasText (eventValue e : Value F)) eventFields e.texts :=
    .cons rfl (.cons rfl (.cons rfl .nil))
  exact key_eq_ok.mpr (htexts.imp fun _ _ ht => ht.sortKeys hv)

omit [PyFloat F] [FloatText F] in
theorem groupOf_sortKeys (g : Group) :
    groupOf (sortKeys (groupValue g : Value F)) = .ok g.sourceGroup := by
  have hv := plain_groupValue (F := F) g
  obtain ⟨hs, he, hsn, hack⟩ : HasText (groupValue g : Value F) "source" g.source
      ∧ HasText (groupValue g : Value F) "entry" g.entry
      ∧ HasText (groupValue g : Value F) "snapshot_policy" g.snapshotPolicy
      ∧ HasText (groupValue g : Value F) "acknowledge_policy" g.acknowledgePolicy :=
    ⟨rfl, rfl, rfl, rfl⟩
  have hevents : listItem (sortKeys (groupValue g : Value F)) "events" =
      .ok (sortKeysList (g.events.map groupEventValue)) := by
    have hitem : (groupValue g : Value F).item "events" =
        .ok (.list (g.events.map groupEventValue)) := rfl
    rw [listItem, item_sortKeys_eq_ok hv hitem]
    rfl
  have hkeys : List.Forall₂ (fun item e => eventOf item = .ok e)
      (sortKeysList (g.events.map (groupEventValue (F := F)))) (g.events.map (·.event)) := by
    rw [sortKeysList_eq_map, List.map_map, List.forall₂_map_left_iff, List.forall₂_map_right_iff,
      List.forall₂_same]
    intro e _
    have hitem : (groupEventValue e : Value F).item "event" = .ok (eventValue e.event) := rfl
    rw [Function.comp_apply, eventOf, item_sortKeys_eq_ok (plain_groupEventValue e) hitem]
    exact key_sortKeys e.event
  rw [groupOf, textItem_eq (hs.sortKeys hv), textItem_eq (he.sortKeys hv),
    textItem_eq (hsn.sortKeys hv), textItem_eq (hack.sortKeys hv), hevents]
  show (List.mapM eventOf _ >>= _) = _
  rw [mapM_eq (f := eventOf) (fun _ _ => id) hkeys]
  rfl

variable (json : Value F → List UInt8)

/-- The plan of some content as the emitter reads it. -/
def readPlan (p : PlanContent String) : Plan where
  content := p
  sourceGroups := (sourceGroups p.bindings).map Group.sourceGroup
  fingerprint := sha256 (json (.dict (unsignedItems p)))

/-- **The plan the emitter reads is the plan that was written.** -/
theorem planOf_sortKeys {p : PlanContent String} (h : Valid p) :
    planOf (sortKeys (planValue sha256 (jsonBytes : Value F → _) p)) =
      .ok (readPlan sha256 (jsonBytes : Value F → _) p) := by
  have hv := plain_planValue sha256 (jsonBytes : Value F → List UInt8) p
  have hgroups : listItem (sortKeys (planValue sha256 (jsonBytes : Value F → _) p)) "source_groups" =
      .ok (sortKeysList ((sourceGroups p.bindings).map groupValue)) := by
    have hitem : (planValue sha256 (jsonBytes : Value F → _) p).item "source_groups" =
        .ok (.list ((sourceGroups p.bindings).map groupValue)) := rfl
    rw [listItem, item_sortKeys_eq_ok hv hitem]
    rfl
  have hread : List.Forall₂ (fun v g => groupOf v = .ok g)
      (sortKeysList ((sourceGroups p.bindings).map (groupValue (F := F))))
      ((sourceGroups p.bindings).map Group.sourceGroup) := by
    rw [sortKeysList_eq_map, List.map_map, List.forall₂_map_left_iff, List.forall₂_map_right_iff,
      List.forall₂_same]
    exact fun g _ => groupOf_sortKeys g
  have hfingerprint : HasText (planValue sha256 (jsonBytes : Value F → _) p) "fingerprint"
      (readPlan sha256 (jsonBytes : Value F → _) p).fingerprint := rfl
  rw [planOf, contentOf_eq sha256 (.sortKeys_planValue sha256 h), hgroups]
  show (List.mapM groupOf _ >>= _) = _
  rw [mapM_eq (f := groupOf) (fun _ _ => id) hread, textItem_eq (hfingerprint.sortKeys hv)]
  rfl

end Reading

end Grevir.Irqgen
