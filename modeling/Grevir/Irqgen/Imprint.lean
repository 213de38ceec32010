import Grevir.Irqgen.Routing
import Grevir.Irqgen.Coherence
import Grevir.Support.Templates

/-!
# Irqgen — Imprint

What the outputs tell of the plan they were emitted for.  Every text of a valid plan is a word, so the
lines of the outputs can be read back, and the header and the source have everything of a plan but the
application's name; that is in the fingerprint.

* `headerLines_tell`, `sourceLines_tell`: what the lines of either output tell.
* `output_identity_tells`: the identity in a marker tells the record and the application header.
-/

namespace Grevir.Irqgen

open Interrupt Json Templates

/-! ### Words -/

theorem word_identifier {s : String} (h : identifier s) : Word s := by
  simp only [identifier, Bool.and_eq_true, List.all_eq_true, decide_eq_true_eq] at h
  intro c hc
  exact (h.2 c hc).2

theorem word_hexadecimal {s : String} (h : ∀ c ∈ s.toList, c ∈ "0123456789abcdef".toList) : Word s := by
  have hall : ∀ c ∈ "0123456789abcdef".toList, isWordChar c = true :=
    List.forall_iff_forall_mem.mp (by decide)
  exact fun c hc => hall c (h c hc)

theorem word_length (s : String) : Word (toString s.length ++ "u") :=
  (word_toString _).append (List.forall_iff_forall_mem.mp (by decide))

/-! ### The lines with their words -/

/-- The words of an event type. -/
def eventParts (before : String) (event : EventIdentity String) : List (String × String) :=
  [(before ++ "::grevir::interrupt::EventKey<\"", event.instance'), ("\", \"", event.request),
    ("\", \"", event.kind)]

/-- The words of the braces of a `std::string_view`. -/
def viewParts (before value : String) : List (String × String) :=
  [(before ++ "\x7b\"", value), ("\", ", toString value.length ++ "u")]

/-- The word of a call of `literal`. -/
def literalPart (before value : String) : String × String :=
  (before ++ "::grevir::interrupt::literal(\"", value)

def demandBlock (index : Nat) (demand : Demand String) : List Line :=
  let field (member value : String) : Line :=
    ⟨("    result." ++ (member ++ "["), toString index) :: viewParts "] = std::string_view" value,
      "\x7d" ++ ";"⟩
  [⟨("    result.keys[", toString index) :: eventParts "] = identity<" demand.event, "\">" ++ ">();"⟩,
    field "handlers" demand.handler, field "contexts" demand.context,
    field "deliveries" demand.delivery]

def assertionLine : Assertion → Line
  | .sameDemands => .fixed (Assertion.render .sameDemands)
  | .capacity => .fixed (Assertion.render .capacity)
  | .policy => .fixed (Assertion.render .policy)
  | .fingerprint value =>
      ⟨[literalPart ("static_assert(::grevir::interrupt::literal(" ++
        "::grevir::interrupt::detail::emission_fingerprint) == ") value], "\")" ++ ");"⟩
  | .identity member value =>
      ⟨[literalPart ("static_assert(::GrevirApplication::Board::" ++ (member.name ++ " == ")) value],
        "\")" ++ ");"⟩
  | .bindingCount count =>
      ⟨[("static_assert(::grevir::interrupt::BindingPlan<::GrevirApplication>::selected.count == ",
        toString count)], ");"⟩
  | .binding index record =>
      ⟨("static_assert(::grevir::interrupt::BindingPlan<::GrevirApplication>::selected.bindings[",
          toString index) ::
        eventParts ("] == ::grevir::interrupt::BindingRecord\x7b" ++ "::grevir::interrupt::identity<")
          record.event ++
        [literalPart ("\">" ++ (">()" ++ ", ")) record.owner,
          literalPart ("\")" ++ ", ") record.configuration, literalPart ("\")" ++ ", ") record.source,
          literalPart ("\")" ++ ", ") record.selector, literalPart ("\")" ++ ", ") record.entry,
          literalPart ("\")" ++ ", ") record.snapshotPolicy,
          literalPart ("\")" ++ ", ") record.acknowledgePolicy,
          ("\")" ++ ", ", toString record.dispatchOrder),
          (", ", if record.sharedSource then "true" else "false")], "\x7d);"⟩

theorem text_assertionLine (a : Assertion) : (assertionLine a).text = a.render := by
  cases a with
  | sameDemands | capacity | policy => simp only [assertionLine, Line.fixed, Line.text, Line.textOf]
  | bindingCount count =>
      simp only [assertionLine, Line.text, Line.textOf]
      unfold Assertion.render
      simp only [String.append_assoc]
  | fingerprint value | identity member value =>
      simp only [assertionLine, literalPart, Line.text, Line.textOf]
      unfold Assertion.render literalText
      simp only [String.append_assoc]
  | binding index record =>
      simp only [assertionLine, literalPart, eventParts, Line.text, Line.textOf, List.cons_append,
        List.nil_append]
      unfold Assertion.render recordText eventType literalText
      simp only [BindingRecord.texts, List.map_cons, List.map_nil, List.cons_append, List.nil_append,
        String.intercalate_cons_cons, String.intercalate_singleton, String.append_assoc]

theorem text_demandBlock (index : Nat) (demand : Demand String) :
    (demandBlock index demand).map Line.text = demandLines index demand := by
  have hunit : "u\x7d" = "u" ++ "\x7d" := rfl
  unfold demandBlock demandLines
  simp only [eventParts, viewParts, Line.text, Line.textOf, List.map_cons, List.map_nil]
  unfold eventType viewText
  simp only [String.append_assoc, hunit]

/-! ### They can be read -/

theorem legible_demandBlock (index : Nat) {demand : Demand String} (h : ∀ t ∈ demand.texts, Word t) :
    ∀ l ∈ demandBlock index demand, l.Legible := by
  simp only [Demand.texts, EventIdentity.texts, List.forall_mem_append, List.forall_mem_cons] at h
  obtain ⟨⟨hinstance, hrequest, hkind, -⟩, hhandler, hcontext, hdelivery, -⟩ := h
  unfold demandBlock
  simp only [eventParts, viewParts, Line.legible_iff, List.forall_mem_cons, List.map_cons, List.map_nil,
    List.cons_append, List.nil_append, List.tail_cons, List.not_mem_nil, false_imp_iff, implies_true,
    word_toString, word_length, hinstance, hrequest, hkind, hhandler, hcontext, hdelivery, single_append,
    true_and, and_true]
  and_intros
  all_goals first
    | exact single_ofList (by decide)
    | exact Closes.append (closes_ofList (by decide)) _
    | exact closes_ofList (by decide)

/-- What is filled in is words. -/
def Assertion.Words : Assertion → Prop
  | .fingerprint value => Word value
  | .identity _ value => Word value
  | .binding _ record => ∀ t ∈ record.event.texts ++ record.texts, Word t
  | _ => True

theorem legible_fixed {s : String} (h : Single s) : (Line.fixed s).Legible where
  words := by simp [Line.fixed]
  closed := by simp [Line.fixed]
  single := by simpa [Line.fixed] using h

theorem legible_assertionLine {a : Assertion} (h : a.Words) : (assertionLine a).Legible := by
  cases a with
  | sameDemands | capacity | policy =>
      refine legible_fixed ?_
      unfold Assertion.render
      simp only [single_append]
      and_intros
      all_goals exact single_ofList (by decide)
  | bindingCount count =>
      simp only [assertionLine, Line.legible_iff, List.forall_mem_cons, List.map_cons, List.map_nil,
        List.cons_append, List.nil_append, List.tail_cons, List.not_mem_nil, false_imp_iff, implies_true,
        word_toString, true_and, and_true]
      exact ⟨closes_ofList (by decide), single_ofList (by decide), single_ofList (by decide)⟩
  | fingerprint value =>
      have hword : Word value := h
      simp only [assertionLine, literalPart, Line.legible_iff, List.forall_mem_cons, List.map_cons,
        List.map_nil, List.cons_append, List.nil_append, List.tail_cons, List.not_mem_nil, false_imp_iff,
        implies_true, hword, single_append, true_and, and_true]
      and_intros
      all_goals first
        | exact single_ofList (by decide)
        | exact Closes.append (closes_ofList (by decide)) _
  | identity member value =>
      have hword : Word value := h
      have hmember : Single member.name := by
        cases member
        all_goals exact single_ofList (by decide)
      simp only [assertionLine, literalPart, Line.legible_iff, List.forall_mem_cons, List.map_cons,
        List.map_nil, List.cons_append, List.nil_append, List.tail_cons, List.not_mem_nil, false_imp_iff,
        implies_true, hword, hmember, single_append, true_and, and_true]
      and_intros
      all_goals first
        | exact single_ofList (by decide)
        | exact Closes.append (closes_ofList (by decide)) _
  | binding index record =>
      obtain ⟨hevent, htexts⟩ := List.forall_mem_append.mp h
      simp only [EventIdentity.texts, BindingRecord.texts, List.forall_mem_cons] at hevent htexts
      obtain ⟨hinstance, hrequest, hkind, -⟩ := hevent
      obtain ⟨howner, hconfiguration, hsource, hselector, hentry, hsnapshot, hacknowledge, -⟩ := htexts
      have hshared : Word (if record.sharedSource then "true" else "false") := by
        split
        all_goals exact word_ofList (by decide)
      simp only [assertionLine, literalPart, eventParts, Line.legible_iff, List.forall_mem_cons,
        List.map_cons, List.map_nil, List.cons_append, List.nil_append, List.tail_cons, List.not_mem_nil,
        false_imp_iff, implies_true, hinstance, hrequest, hkind, howner, hconfiguration, hsource,
        hselector, hentry, hsnapshot, hacknowledge, hshared, word_toString, single_append, true_and,
        and_true]
      and_intros
      all_goals first
        | exact single_ofList (by decide)
        | exact Closes.append (closes_ofList (by decide)) _
        | exact Closes.append (Closes.append (closes_ofList (by decide)) _) _
        | exact closes_ofList (by decide)

/-! ### The header -/

/-- The lines before the demands. -/
def openingBlock (demands : Nat) : List Line :=
  [.fixed generated, .fixed "#pragma once", .fixed "#include <grevir/interrupt/catalog.hpp>",
    .fixed "namespace grevir::interrupt \x7b",
    .fixed "template <> struct DemandSet<::GrevirApplication> \x7b",
    .fixed "  inline static constexpr auto value = [] \x7b",
    ⟨[("    DemandSummary<", toString demands)], "> result\x7b\x7d;"⟩]

/-- The lines between the demands and the bound events. -/
def recordedBlock (plan : Plan) : List Line :=
  [⟨[("    result.count = ", toString plan.content.demands.length)], ";"⟩,
    .fixed "    return result;", .fixed "  \x7d();", .fixed "\x7d;",
    .fixed "\x7d // namespace grevir::interrupt", .fixed "namespace grevir::interrupt::detail \x7b",
    ⟨[("inline constexpr char emission_fingerprint[] = \"", plan.fingerprint)], "\";"⟩,
    ⟨[("inline constexpr unsigned emitted_event_queue_capacity = ",
      toString plan.content.capacity ++ "u")], ";"⟩,
    ⟨viewParts "inline constexpr std::string_view emitted_event_queue_policy" plan.content.policy,
      "\x7d" ++ ";"⟩]

/-- The lines of the header up to the bound events. -/
def headerBlock (plan : Plan) : List Line :=
  openingBlock plan.content.demands.length ++ (plan.content.demands.mapIdx demandBlock).flatten
    ++ recordedBlock plan

theorem headerLines_block {plan : Plan} {lines : List String} (h : headerLines plan = .ok lines) :
    ∃ rest, rest ≠ [] ∧ lines = (headerBlock plan).map Line.text ++ rest := by
  obtain ⟨bound, -, hlines⟩ := except_bind_eq_ok.mp h
  cases hlines
  refine ⟨bound.flatMap BoundEvent.lines ++ ["\x7d // namespace grevir::interrupt::detail", ""], by simp, ?_⟩
  have hdemands : (plan.content.demands.mapIdx demandBlock).flatten.map Line.text =
      (plan.content.demands.mapIdx demandLines).flatten := by
    rw [List.map_flatten]
    refine congrArg List.flatten (List.ext_getElem (by simp) fun i h₁ h₂ => ?_)
    simp [text_demandBlock]
  have hunit : "u\x7d" = "u" ++ "\x7d" := rfl
  have hend : "u;" = "u" ++ ";" := rfl
  unfold headerBlock openingBlock recordedBlock
  rw [List.map_append, List.map_append, hdemands]
  simp only [viewParts, Line.fixed, Line.text, Line.textOf, List.map_cons, List.map_nil]
  unfold viewText
  simp only [String.append_assoc, List.append_assoc, hunit, hend]

/-- All that is filled in from a plan is words. -/
structure PlanWords (plan : Plan) : Prop where
  identities : ∀ t ∈ plan.content.header, Word t
  policy : Word plan.content.policy
  demands : ∀ d ∈ plan.content.demands, ∀ t ∈ d.texts, Word t
  bindings : ∀ b ∈ plan.content.bindings, ∀ t ∈ b.event.texts ++ b.texts, Word t
  fingerprint : Word plan.fingerprint

theorem legible_openingBlock (demands : Nat) : ∀ l ∈ openingBlock demands, l.Legible := by
  simp only [openingBlock, List.forall_mem_cons]
  refine ⟨legible_fixed ?_, legible_fixed ?_, legible_fixed ?_, legible_fixed ?_, legible_fixed ?_,
    legible_fixed ?_, ?_, by simp⟩
  any_goals exact single_ofList (by decide)
  simp only [Line.legible_iff, List.forall_mem_cons, List.map_cons, List.map_nil, List.cons_append,
    List.nil_append, List.tail_cons, List.not_mem_nil, false_imp_iff, implies_true, word_toString, true_and,
    and_true]
  exact ⟨closes_ofList (by decide), single_ofList (by decide), single_ofList (by decide)⟩

theorem legible_recordedBlock {plan : Plan} (h : PlanWords plan) :
    ∀ l ∈ recordedBlock plan, l.Legible := by
  have hcapacity : Word (toString plan.content.capacity ++ "u") :=
    (word_toString _).append (word_ofList (by decide))
  simp only [recordedBlock, List.forall_mem_cons]
  refine ⟨?_, legible_fixed ?_, legible_fixed ?_, legible_fixed ?_, legible_fixed ?_, legible_fixed ?_,
    ?_, ?_, ?_, by simp⟩
  any_goals exact single_ofList (by decide)
  all_goals
    simp only [viewParts, Line.legible_iff, List.forall_mem_cons, List.map_cons, List.map_nil,
      List.cons_append, List.nil_append, List.tail_cons, List.not_mem_nil, false_imp_iff, implies_true,
      word_toString, word_length, h.policy, h.fingerprint, hcapacity, single_append, true_and, and_true]
    and_intros
  all_goals first
    | exact single_ofList (by decide)
    | exact Closes.append (closes_ofList (by decide)) _
    | exact closes_ofList (by decide)

theorem legible_headerBlock {plan : Plan} (h : PlanWords plan) : ∀ l ∈ headerBlock plan, l.Legible := by
  refine List.forall_mem_append.mpr ⟨List.forall_mem_append.mpr ⟨legible_openingBlock _, ?_⟩,
    legible_recordedBlock h⟩
  rw [List.forall_mem_flatten]
  intro block hblock
  obtain ⟨i, hi, rfl⟩ := List.mem_mapIdx.mp hblock
  exact legible_demandBlock i (h.demands _ (List.getElem_mem hi))

theorem openingBlock_inj {m n : Nat} (h : openingBlock m = openingBlock n) : m = n := by
  simp only [openingBlock, List.cons.injEq, Line.mk.injEq, Prod.mk.injEq, true_and, and_true] at h
  exact toString_inj h

theorem demandBlock_inj {i : Nat} {d d' : Demand String} (h : demandBlock i d = demandBlock i d') :
    d = d' := by
  obtain ⟨⟨instance', request, kind⟩, handler, context, delivery⟩ := d
  obtain ⟨⟨instance', request', kind'⟩, handler', context', delivery'⟩ := d'
  simp only [demandBlock, eventParts, viewParts, List.cons.injEq, Line.mk.injEq, Prod.mk.injEq, true_and,
    and_true] at h
  obtain ⟨⟨rfl, rfl, rfl⟩, ⟨rfl, -⟩, ⟨rfl, -⟩, rfl, -⟩ := h
  rfl

/-- **What the lines of a header tell.** -/
theorem headerLines_tell {plan plan' : Plan} (hwords : PlanWords plan) (hwords' : PlanWords plan')
    {lines lines' : List String} (h : headerLines plan = .ok lines) (h' : headerLines plan' = .ok lines')
    (htext : "\n".intercalate lines = "\n".intercalate lines') :
    plan.content.demands = plan'.content.demands ∧ plan.content.capacity = plan'.content.capacity ∧
      plan.content.policy = plan'.content.policy ∧ plan.fingerprint = plan'.fingerprint := by
  obtain ⟨rest, hrest, rfl⟩ := headerLines_block h
  obtain ⟨rest', hrest', rfl⟩ := headerLines_block h'
  -- first how many demands there are, and so how many lines
  have hlength : plan.content.demands.length = plan'.content.demands.length := by
    simp only [headerBlock, List.map_append, List.append_assoc] at htext
    have hframes : (openingBlock plan'.content.demands.length).map Line.frame =
      (openingBlock plan.content.demands.length).map Line.frame := rfl
    have hmore : ∀ {block more : List String}, more ≠ [] → block ++ more ≠ [] :=
      List.append_ne_nil_of_right_ne_nil _
    exact openingBlock_inj (read_lines hframes (legible_openingBlock _) (legible_openingBlock _)
      (hmore (hmore hrest)) (hmore (hmore hrest')) htext).1
  have hdemandFrames : (plan'.content.demands.mapIdx demandBlock).flatten.map Line.frame =
      (plan.content.demands.mapIdx demandBlock).flatten.map Line.frame := by
    rw [List.map_flatten, List.map_flatten]
    refine congrArg List.flatten (List.ext_getElem (by simp [hlength]) fun i h₁ h₂ => ?_)
    rw [List.getElem_map, List.getElem_map, List.getElem_mapIdx, List.getElem_mapIdx]
    rfl
  have hframes : (headerBlock plan').map Line.frame = (headerBlock plan).map Line.frame := by
    rw [headerBlock, headerBlock, List.map_append, List.map_append, List.map_append, List.map_append,
      hdemandFrames]
    rfl
  obtain ⟨hblock, -⟩ := read_lines hframes (legible_headerBlock hwords) (legible_headerBlock hwords')
    hrest hrest' htext
  have hsize : (openingBlock plan.content.demands.length ++
      (plan.content.demands.mapIdx demandBlock).flatten).length =
    (openingBlock plan'.content.demands.length ++
      (plan'.content.demands.mapIdx demandBlock).flatten).length := by
    have hcount := congrArg List.length hdemandFrames
    rw [List.length_map, List.length_map] at hcount
    rw [List.length_append, List.length_append, hcount]
    rfl
  obtain ⟨hfront, hrecorded⟩ := List.append_inj hblock hsize
  obtain ⟨-, hdemands⟩ := List.append_inj hfront rfl
  simp only [recordedBlock, viewParts, List.cons.injEq, Line.mk.injEq, Prod.mk.injEq, true_and, and_true]
    at hrecorded
  obtain ⟨-, hfingerprint, hcapacity, ⟨hpolicy, -⟩⟩ := hrecorded
  refine ⟨?_, toString_inj ((String.append_left_inj "u").mp hcapacity), hpolicy, hfingerprint⟩
  exact flatten_mapIdx_inj (f := demandBlock) (fun _ _ _ => rfl) (fun _ _ _ => demandBlock_inj) hlength
    hdemands

/-! ### The source -/

theorem words_assertions {plan : Plan} (h : PlanWords plan) : ∀ a ∈ assertions plan, a.Words := by
  have hidentities := h.identities
  simp only [PlanContent.header, List.forall_mem_cons] at hidentities
  obtain ⟨hbackend, htarget, hboard, hcompiler, -⟩ := hidentities
  refine List.forall_mem_append.mpr ⟨?_, fun a ha => ?_⟩
  · simp only [applicationAssertions, List.forall_mem_cons]
    exact ⟨trivial, h.fingerprint, trivial, trivial, hbackend, htarget, hboard, hcompiler, trivial, by simp⟩
  · obtain ⟨i, hi, rfl⟩ := List.mem_mapIdx.mp ha
    exact h.bindings _ (List.getElem_mem hi)

theorem bindingLine_inj {i : Nat} {b b' : BindingRecord String}
    (h : assertionLine (.binding i b) = assertionLine (.binding i b')) : b = b' := by
  obtain ⟨⟨instance', request, kind⟩, owner, configuration, source, selector, entry, snapshot, acknowledge,
    order, shared⟩ := b
  obtain ⟨⟨instance', request', kind'⟩, owner', configuration', source', selector', entry', snapshot',
    acknowledge', order', shared'⟩ := b'
  simp only [assertionLine, literalPart, eventParts, List.cons_append, List.nil_append, List.cons.injEq,
    Line.mk.injEq, Prod.mk.injEq, true_and, and_true] at h
  obtain ⟨rfl, rfl, rfl, rfl, rfl, rfl, rfl, rfl, rfl, rfl, horder, hshared⟩ := h
  obtain rfl := toString_inj horder
  have hflag : ∀ a b : Bool, (if a = true then "true" else "false") =
      (if b = true then "true" else "false") → a = b := by decide
  rw [hflag _ _ hshared]

/-- The first lines of the source. -/
def includeLines (applicationHeader : String) : List String :=
  [generated, "#include \"" ++ applicationHeader ++ "\"", "#include <grevir/interrupt/install.hpp>",
    "#include <grevir/interrupt/binding.hpp>", "#include <grevir/interrupt/demand.hpp>"]

/-- The lines between the assertions on the application and those on its bindings. -/
def deviceLines (backend : String) : List String :=
  ["#if defined(__GNUC__) && !defined(__clang__)",
    "#define GREVIR_IRQ_GUARD_ATTR __attribute__((used, externally_visible))",
    "#elif defined(__clang__)",
    "#define GREVIR_IRQ_GUARD_ATTR __attribute__((used))",
    "#else",
    "#define GREVIR_IRQ_GUARD_ATTR",
    "#endif"] ++
  if backend = "avr" then ["#include <grevir/avr/devices/atmega328p/interrupt_timer1.hpp>"]
  else if backend = "esp32" then ["#include <grevir/arduino_esp32/timer_group0_timer0.hpp>"]
  else []

/-- The lines of some assertions, with their words. -/
def assertionBlock (as : List Assertion) : List Line := as.map assertionLine

theorem text_assertionBlock (as : List Assertion) :
    (assertionBlock as).map Line.text = as.map Assertion.render := by
  rw [assertionBlock, List.map_map]
  exact List.map_congr_left fun a _ => text_assertionLine a

theorem sourceLines_block {plan : Plan} {applicationHeader : String} {lines : List String}
    (h : sourceLines plan applicationHeader = .ok lines) :
    ∃ rest, rest ≠ [] ∧ lines = includeLines applicationHeader ++
      ((assertionBlock (applicationAssertions plan)).map Line.text ++
        (deviceLines plan.content.backend ++
          ((assertionBlock (bindingAssertions plan)).map Line.text ++ rest))) := by
  obtain ⟨rs, -, hlines⟩ := except_bind_eq_ok.mp h
  cases hlines
  refine ⟨rs.flatMap (dispatchLines plan.content.backend) ++ (["namespace grevir::interrupt::detail \x7b",
    "template <> bool install_bindings<::GrevirApplication>() noexcept \x7b"] ++
      (rs.flatMap (installLines plan.content.backend) ++
        ["  return true;", "\x7d", "\x7d", ""])), by simp, ?_⟩
  simp only [includeLines, deviceLines, text_assertionBlock, List.append_assoc]

theorem single_includeLines {applicationHeader : String} (h : Single applicationHeader) :
    ∀ t ∈ includeLines applicationHeader, Single t := by
  simp only [includeLines, List.forall_mem_cons, single_append, h, List.not_mem_nil, false_imp_iff,
    implies_true, and_true]
  and_intros
  all_goals exact single_ofList (by decide)

theorem single_deviceLines (backend : String) : ∀ t ∈ deviceLines backend, Single t := by
  unfold deviceLines
  rw [List.forall_mem_append]
  refine ⟨?_, ?_⟩
  · simp only [List.forall_mem_cons, List.not_mem_nil, false_imp_iff, implies_true, and_true]
    and_intros
    all_goals exact single_ofList (by decide)
  · split_ifs
    · exact List.forall_mem_singleton.mpr (single_ofList (by decide))
    · exact List.forall_mem_singleton.mpr (single_ofList (by decide))
    · simp

/-- What the lines of the assertions on the application tell. -/
theorem applicationBlock_tells {plan plan' : Plan}
    (h : assertionBlock (applicationAssertions plan) = assertionBlock (applicationAssertions plan')) :
    plan.content.backend = plan'.content.backend ∧ plan.content.target = plan'.content.target ∧
      plan.content.board = plan'.content.board ∧ plan.content.compiler = plan'.content.compiler := by
  simp only [assertionBlock, applicationAssertions, List.map_cons, assertionLine, literalPart,
    List.cons.injEq, Line.mk.injEq, Prod.mk.injEq, true_and, and_true] at h
  exact ⟨h.2.1, h.2.2.1, h.2.2.2.1, h.2.2.2.2.1⟩

/-- The lines of the assertions on the bindings tell the bindings. -/
theorem bindingBlock_tells {plan plan' : Plan}
    (h : assertionBlock (bindingAssertions plan) = assertionBlock (bindingAssertions plan')) :
    plan.content.bindings = plan'.content.bindings := by
  have hlength := congrArg List.length h
  simp only [assertionBlock, bindingAssertions, List.length_map, List.length_mapIdx] at hlength
  refine List.ext_getElem hlength fun i h₁ h₂ => ?_
  have hline := congrArg (·[i]?) h
  simp only [assertionBlock, bindingAssertions, List.getElem?_map, List.getElem?_mapIdx,
    List.getElem?_eq_getElem h₁, List.getElem?_eq_getElem h₂, Option.map_some] at hline
  exact bindingLine_inj (Option.some.inj hline)

theorem legible_assertionBlock {as : List Assertion} (h : ∀ a ∈ as, a.Words) :
    ∀ l ∈ assertionBlock as, l.Legible :=
  List.forall_mem_map.mpr fun a ha => legible_assertionLine (h a ha)

/-- **What the lines of a source tell.** -/
theorem sourceLines_tell {plan plan' : Plan} (hwords : PlanWords plan) (hwords' : PlanWords plan')
    (hlength : plan.content.bindings.length = plan'.content.bindings.length)
    {applicationHeader applicationHeader' : String} (hsingle : Single applicationHeader)
    (hsingle' : Single applicationHeader') {lines lines' : List String}
    (h : sourceLines plan applicationHeader = .ok lines)
    (h' : sourceLines plan' applicationHeader' = .ok lines')
    (htext : "\n".intercalate lines = "\n".intercalate lines') :
    applicationHeader = applicationHeader' ∧
      (plan.content.backend = plan'.content.backend ∧ plan.content.target = plan'.content.target ∧
        plan.content.board = plan'.content.board ∧ plan.content.compiler = plan'.content.compiler) ∧
      plan.content.bindings = plan'.content.bindings := by
  obtain ⟨rest, hrest, rfl⟩ := sourceLines_block h
  obtain ⟨rest', hrest', rfl⟩ := sourceLines_block h'
  obtain ⟨happlication, hbindings⟩ := List.forall_mem_append.mp (words_assertions hwords)
  obtain ⟨happlication', hbindings'⟩ := List.forall_mem_append.mp (words_assertions hwords')
  have hmore : ∀ {block more : List String}, more ≠ [] → block ++ more ≠ [] :=
    List.append_ne_nil_of_right_ne_nil _
  have hcount : (includeLines applicationHeader).length = (includeLines applicationHeader').length := rfl
  obtain ⟨hincludes, htext⟩ := lines_inj hcount (single_includeLines hsingle)
    (single_includeLines hsingle') (hmore (hmore (hmore hrest))) (hmore (hmore (hmore hrest'))) htext
  have hframes : (assertionBlock (applicationAssertions plan')).map Line.frame =
      (assertionBlock (applicationAssertions plan)).map Line.frame := rfl
  obtain ⟨hblock, htext⟩ := read_lines hframes (legible_assertionBlock happlication)
    (legible_assertionBlock happlication') (hmore (hmore hrest)) (hmore (hmore hrest')) htext
  have hidentities := applicationBlock_tells hblock
  rw [hidentities.1] at htext
  obtain ⟨-, htext⟩ := lines_inj rfl (single_deviceLines _) (single_deviceLines _) (hmore hrest)
    (hmore hrest') htext
  have hframes' : (assertionBlock (bindingAssertions plan')).map Line.frame =
      (assertionBlock (bindingAssertions plan)).map Line.frame := by
    refine List.ext_getElem (by simp [assertionBlock, bindingAssertions, hlength]) fun i h₁ h₂ => ?_
    simp only [assertionBlock, bindingAssertions, List.getElem_map, List.getElem_mapIdx]
    rfl
  obtain ⟨hblock', -⟩ := read_lines hframes' (legible_assertionBlock hbindings)
    (legible_assertionBlock hbindings') hrest hrest' htext
  refine ⟨?_, hidentities, bindingBlock_tells hblock'⟩
  simp only [includeLines, List.cons.injEq, true_and, and_true] at hincludes
  exact (String.append_right_inj _).mp ((String.append_left_inj _).mp hincludes)

/-! ### Both outputs -/

section Outputs

variable {F : Type} [FloatText F] {sha256 : List UInt8 → String}

theorem planWords_readPlan (hdigest : Digest sha256) {p : PlanContent String} (h : Valid p) :
    PlanWords (readPlan sha256 (jsonBytes : Value F → _) p) := by
  have htexts : ∀ t ∈ p.texts, Word t := by
    intro t ht
    rcases h.texts t ht with hid | rfl
    · exact word_identifier hid
    · exact word_ofList (by decide)
  simp only [PlanContent.texts, List.forall_mem_append, List.forall_mem_flatMap,
    List.forall_mem_singleton] at htexts
  obtain ⟨⟨⟨hheader, hpolicy⟩, hdemands⟩, hbindings⟩ := htexts
  exact ⟨hheader, hpolicy, hdemands, fun b hb => List.forall_mem_append.mpr (hbindings b hb),
    word_hexadecimal (hdigest.hexadecimal _)⟩

/-- The document that is signed tells the application's name. -/
theorem application_of_signed {p p' : PlanContent String}
    (h : jsonBytes (.dict (unsignedItems p) : Value F) = jsonBytes (.dict (unsignedItems p') : Value F)) :
    p.application = p'.application := by
  have hplain : ∀ p : PlanContent String, Plain (.dict (unsignedItems p) : Value F) := by
    intro p
    cases plain_planValue (fun _ => "") (fun _ : Value F => []) p with
    | dict hkeys hitems =>
        exact .dict (hkeys.sublist ((List.sublist_append_left _ _).map _)) fun item hitem =>
          hitems item (List.mem_append_left _ hitem)
  have hsorted : sortKeys (.dict (unsignedItems p) : Value F) = sortKeys (.dict (unsignedItems p')) := by
    have hloads := congrArg (loadsBytes (F := F)) h
    rw [loadsBytes_jsonBytes (hplain p), loadsBytes_jsonBytes (hplain p')] at hloads
    exact Option.some.inj hloads
  have htext : ∀ p : PlanContent String,
      HasText (.dict (unsignedItems p) : Value F) "application" p.application := fun _ => rfl
  exact ((htext p).sortKeys (hplain p)).unique (hsorted ▸ (htext p').sortKeys (hplain p'))

/-- **Both outputs together tell the plan and the application header.** -/
theorem emit_tells (hdigest : Digest sha256) {p p' : PlanContent String} (hvalid : Valid p)
    (hvalid' : Valid p') {applicationHeader applicationHeader' : String} {outputs : List UInt8 × List UInt8}
    (h : emit (readPlan sha256 (jsonBytes : Value F → _) p) applicationHeader = .ok outputs)
    (h' : emit (readPlan sha256 (jsonBytes : Value F → _) p') applicationHeader' = .ok outputs) :
    p = p' ∧ applicationHeader = applicationHeader' := by
  obtain ⟨_, -, h⟩ := except_bind_eq_ok.mp h
  obtain ⟨_, hpath, h⟩ := except_bind_eq_ok.mp h
  obtain ⟨header, hheader, h⟩ := except_bind_eq_ok.mp h
  obtain ⟨source, hsource, h⟩ := except_bind_eq_ok.mp h
  obtain ⟨_, -, h'⟩ := except_bind_eq_ok.mp h'
  obtain ⟨_, hpath', h'⟩ := except_bind_eq_ok.mp h'
  obtain ⟨header', hheader', h'⟩ := except_bind_eq_ok.mp h'
  obtain ⟨source', hsource', h'⟩ := except_bind_eq_ok.mp h'
  cases h
  obtain ⟨hheaders, hsources⟩ := Prod.mk.inj (Except.ok.inj h')
  have hwords := planWords_readPlan (F := F) hdigest hvalid
  have hwords' := planWords_readPlan (F := F) hdigest hvalid'
  obtain ⟨hdemands, hcapacity, hpolicy, hfingerprint⟩ := headerLines_tell hwords hwords' hheader hheader'
    (Utf8.bytes_injective hheaders).symm
  have hlength : p.bindings.length = p'.bindings.length := by
    have hkeys : p.bindings.map (·.event) = p'.bindings.map (·.event) := by
      rw [hvalid.events, hvalid'.events]
      exact congrArg (List.map (·.event)) hdemands
    have hcount := congrArg List.length hkeys
    rwa [List.length_map, List.length_map] at hcount
  have hline : ∀ {path : String}, '\n' ∉ path.toList → Single path := fun h => single_of_notMem h
  obtain ⟨happlication, ⟨hbackend, htarget, hboard, hcompiler⟩, hbindings⟩ := sourceLines_tell hwords
    hwords' hlength (hline (require_eq_ok.mp hpath).2.2) (hline (require_eq_ok.mp hpath').2.2) hsource
    hsource' (Utf8.bytes_injective hsources).symm
  have hname := application_of_signed (F := F) (hdigest.injective hfingerprint)
  refine ⟨?_, happlication⟩
  obtain ⟨backend, target, board, compiler, application, capacity, policy, demands, bindings⟩ := p
  obtain ⟨backend', target', board', compiler', application', capacity', policy', demands', bindings'⟩ := p'
  simp only [readPlan] at hdemands hcapacity hpolicy hbackend htarget hboard hcompiler hbindings hname
  subst hdemands hcapacity hpolicy hbackend htarget hboard hcompiler hbindings hname
  rfl

/-- **An output identity tells the record and the application header**: outputs that were emitted for
two records, with two application headers, have one identity only if both are the same. -/
theorem output_identity_tells (F : Type) [PyFloat F] [FloatText F] (hdigest : Digest sha256)
    {record record' : List UInt8} {plan plan' : Plan} (hplan : generatedPlan F sha256 record = .ok plan)
    (hplan' : generatedPlan F sha256 record' = .ok plan') {applicationHeader applicationHeader' : Argument}
    {outputs outputs' : List UInt8 × List UInt8} (houtputs : emit plan applicationHeader = .ok outputs)
    (houtputs' : emit plan' applicationHeader' = .ok outputs')
    (h : outputIdentity sha256 outputs.1 outputs.2 = outputIdentity sha256 outputs'.1 outputs'.2) :
    record = record' ∧ applicationHeader = applicationHeader' := by
  obtain ⟨p, -, rfl, hvalid, rfl⟩ := (generatedPlan_eq_ok F sha256 .bits32).mp hplan
  obtain ⟨p', -, rfl, hvalid', rfl⟩ := (generatedPlan_eq_ok F sha256 .bits32).mp hplan'
  obtain ⟨hheader, hsource⟩ := emit_nulFree hdigest.nulFree (.sortKeys_planValue sha256 hvalid) hvalid
    (planOf_sortKeys sha256 hvalid) applicationHeader.2 houtputs
  obtain ⟨hheaders, hsources⟩ := Utf8.separated hheader hsource (hdigest.injective h)
  rw [← Prod.ext hheaders hsources] at houtputs'
  obtain ⟨rfl, hpath⟩ := emit_tells hdigest hvalid hvalid' houtputs houtputs'
  exact ⟨rfl, Subtype.ext hpath⟩

end Outputs

theorem output_identity_tells_timer :
    ∃ plan outputs, generatedPlan Empty hexDigest timerRecord = .ok plan ∧
      emit plan "blink.hpp" = .ok outputs ∧
      ∀ applicationHeader : Argument, emit plan applicationHeader = .ok outputs →
        applicationHeader.1 = "blink.hpp" := by
  obtain ⟨outputs, houtputs⟩ := emit_timer hexDigest (jsonBytes : Value Empty → _) "blink"
  refine ⟨_, outputs, generatedPlan_timer _, houtputs, fun applicationHeader h => ?_⟩
  let blink : Argument := ⟨"blink.hpp", by decide⟩
  have hsame : applicationHeader = blink :=
    (output_identity_tells Empty digest_hexDigest (generatedPlan_timer _) (generatedPlan_timer _) h
      (show emit _ blink.1 = _ from houtputs) rfl).2
  rw [hsame]

end Grevir.Irqgen
