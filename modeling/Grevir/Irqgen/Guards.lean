import Grevir.Interrupt.Recorded
import Grevir.Irqgen.Emit
import Grevir.Irqgen.Record
import Grevir.Irqgen.Validators

/-!
# Irqgen — Guards

What the assertions of an emitted source say of the application that is compiled with it, which need
not be the application the plan was made from.  With an emitted header in place the library computes
the binding plan and the deferred context from the demands the header records; the live demands are
those of the application itself.  No assertion is on the application's own name.

* `Assertion.Holds`: an assertion of a source, of some application.
* `generatedPlan_eq_ok`: the plan emitted from a record.
* `compiled_of_holds`, `holds_of_compiled`: what all the assertions of a source say.
-/

namespace Grevir.Irqgen

open Interrupt Json

/-! ### The application compiled with a source -/

/-- An application: the identities of its board, its own name, its demands, what its board has for
deferred events, and the plan its board allocates for some demands. -/
structure LiveApplication (demandCapacity bindingCapacity : Nat) where
  identity : BoardIdentity → Text
  application : Text
  demands : DemandSummary demandCapacity
  queue : Option QueueBoard
  allocate : List (Demand Text) → SelectedPlan bindingCapacity

variable {n m : Nat}

/-- What its own probe would record, where it compiles. -/
def LiveApplication.compiled (live : LiveApplication n m) : Option (CompiledApplication n m) := do
  let deferred ← deferredContextPlan live.demands live.queue
  return {
    backend := live.identity .backend
    target := live.identity .target
    board := live.identity .board
    compiler := live.identity .compiler
    application := live.application
    demands := live.demands
    plan := live.allocate live.demands.demands
    deferred := deferred }

/-- A `std::string_view` of a literal and the length it was emitted with. -/
def viewBytes (value : String) : Text := (literal value).take value.length

/-- The demands the emitted header records. -/
def recordedDemands (plan : Plan) : DemandSummary plan.content.demands.length where
  keys := .ofFn fun i => plan.content.demands[i].event.map literal
  count := plan.content.demands.length
  handlers := .ofFn fun i => viewBytes plan.content.demands[i].handler
  contexts := .ofFn fun i => viewBytes plan.content.demands[i].context
  deliveries := .ofFn fun i => viewBytes plan.content.demands[i].delivery
  count_le := le_refl _

/-- **The assertion holds of the application, with the header of this plan.** -/
def Assertion.Holds (plan : Plan) (live : LiveApplication n m) : Assertion → Prop
  | .sameDemands => Interrupt.sameDemands live.demands (recordedDemands plan)
  | .fingerprint value => literal plan.fingerprint = literal value
  | .capacity => ∃ deferred ∈ deferredContextPlan (recordedDemands plan) live.queue,
      deferred.capacity = plan.content.capacity
  | .policy => ∃ deferred ∈ deferredContextPlan (recordedDemands plan) live.queue,
      deferred.policy = viewBytes plan.content.policy
  | .identity member value => live.identity member = literal value
  | .bindingCount count => (live.allocate (recordedDemands plan).demands).count = count
  | .binding index record =>
      (live.allocate (recordedDemands plan).demands).bindings.toList[index]? =
        some (record.map literal)

/-! ### The plan emitted from a record -/

section Generated

variable (F : Type) [PyFloat F] [FloatText F] (sha256 : List UInt8 → String)

/-- What `emit` reads of the text `plan` writes for a record. -/
def generatedPlan (record : List UInt8) : Except Error Plan := do
  let plan : Value F ← decode sha256 jsonBytes record
  let data ← canonicalBytes sha256 plan
  let parsed : Value F ← parseCanonical sha256 data
  planOf parsed

/-- **The plan emitted from a record is that of the valid content the record was laid out for.** -/
theorem generatedPlan_eq_ok (long : UnsignedLong) {record : List UInt8} {plan : Plan} :
    generatedPlan F sha256 record = .ok plan ↔
      ∃ p, (record.length < 2 ^ 32 ∧ Carried p) ∧ record = recordBytes long (p.map Utf8.bytes) ∧
        Valid p ∧ plan = readPlan sha256 (jsonBytes : Value F → _) p := by
  have hread : ∀ {p}, Valid p → (do
      let data ← canonicalBytes sha256 (planValue sha256 (jsonBytes : Value F → _) p)
      let parsed : Value F ← parseCanonical sha256 data
      planOf parsed) = .ok (readPlan sha256 (jsonBytes : Value F → _) p) := by
    intro p hvalid
    have hdata : canonicalBytes sha256 (planValue sha256 (jsonBytes : Value F → _) p) =
        .ok (jsonBytes (planValue sha256 (jsonBytes : Value F → _) p)) :=
      ((canonicalBytes_answers sha256 _).ok_iff _).mpr ⟨⟨p, .planValue sha256 _ hvalid, hvalid⟩, rfl⟩
    have hparse := parseCanonical_canonicalBytes sha256 hvalid hdata
    rw [hdata]
    show (parseCanonical sha256 _ >>= planOf) = _
    rw [hparse]
    exact planOf_sortKeys sha256 hvalid
  rw [generatedPlan, except_bind_eq_ok]
  constructor
  · rintro ⟨v, hv, hrest⟩
    obtain ⟨p, hcarried, hrecord, hvalid, rfl⟩ := ((decode_answers sha256 _ long record).ok_iff v).mp hv
    rw [hread hvalid] at hrest
    exact ⟨p, hcarried, hrecord, hvalid, (Except.ok.inj hrest).symm⟩
  · rintro ⟨p, hcarried, hrecord, hvalid, rfl⟩
    exact ⟨_, ((decode_answers sha256 _ long record).ok_iff _).mpr ⟨p, hcarried, hrecord, hvalid, rfl⟩,
      hread hvalid⟩

end Generated

/-! ### What the assertions say -/

theorem viewBytes_ascii {s : String} (h : Utf8.Ascii s) : viewBytes s = literal s := by
  have hlength : (literal s).length = s.length := by
    rw [literal, Utf8.bytes_ascii h, List.length_map, String.length_toList]
  rw [viewBytes, ← hlength, List.take_length]

theorem recordedDemands_demands {plan : Plan} (h : ∀ d ∈ plan.content.demands, ValidDemand d) :
    (recordedDemands plan).demands = plan.content.demands.map (Demand.map Utf8.bytes) := by
  refine List.ext_getElem (by rw [DemandSummary.length_demands, List.length_map]; rfl) fun i h₁ h₂ => ?_
  rw [List.length_map] at h₂
  have hroute := identifier_route _ (h _ (List.getElem_mem h₂)).route
  simp only [DemandSummary.demands, List.getElem_ofFn, List.getElem_map, DemandSummary.row,
    recordedDemands, Vector.getElem_ofFn, Demand.map, Fin.getElem_fin,
    viewBytes_ascii (identifier_ascii hroute.1), viewBytes_ascii (identifier_ascii hroute.2.1),
    viewBytes_ascii (identifier_ascii hroute.2.2)]
  rfl

theorem viewBytes_policy {p : PlanContent String} (h : Valid p) :
    viewBytes p.policy = Utf8.bytes p.policy := by
  have hcontext := h.context
  unfold Vocabulary.ValidContext at hcontext
  split at hcontext
  · exact viewBytes_ascii (identifier_ascii hcontext.2)
  · rw [hcontext.2]
    rfl

/-- Bindings asserted one by one, with their count, are all that are held. -/
theorem held_eq {plan : SelectedPlan m} {records : List (BindingRecord Text)}
    (hcount : plan.count = records.length)
    (h : ∀ i (hi : i < records.length), plan.bindings.toList[i]? = some records[i]) :
    plan.held = records := by
  refine List.ext_getElem? fun i => ?_
  rw [SelectedPlan.held, hcount]
  by_cases hi : i < records.length
  · rw [List.getElem?_take_of_lt hi, h i hi, List.getElem?_eq_getElem hi]
  · have hlen : (plan.bindings.toList.take records.length).length ≤ i :=
      (List.length_take_le _ _).trans (Nat.le_of_not_lt hi)
    rw [List.getElem?_eq_none hlen, List.getElem?_eq_none (Nat.le_of_not_lt hi)]

theorem deferredContextPlan_congr {k : Nat} {demands : DemandSummary n} {demands' : DemandSummary k}
    (h : demands.demands = demands'.demands) (queue : Option QueueBoard) :
    deferredContextPlan demands queue = deferredContextPlan demands' queue := by
  unfold deferredContextPlan
  rw [h]

/-- **All the assertions of a source together**: but for the name of the application, what its probe
would record is the content of the plan. -/
theorem compiled_of_holds {F : Type} {sha256 : List UInt8 → String} {json : Value F → List UInt8}
    {p : PlanContent String} (hvalid : Valid p) {live : LiveApplication n m}
    (h : ∀ a ∈ assertions (readPlan sha256 json p), a.Holds (readPlan sha256 json p) live) :
    ∃ a, live.compiled = some a ∧
      a.content = { p.map Utf8.bytes with application := live.application } := by
  simp only [assertions, List.forall_mem_append, applicationAssertions, List.forall_mem_cons] at h
  obtain ⟨⟨hsame, -, hcapacity, hpolicy, hbackend, htarget, hboard, hcompiler, hcount, -⟩, hbindings⟩ := h
  have hdemands : live.demands.demands = p.demands.map (Demand.map Utf8.bytes) :=
    (sameDemands_iff.mp hsame).trans (recordedDemands_demands hvalid.demands)
  obtain ⟨deferred, hdeferred, hcap⟩ := hcapacity
  obtain ⟨deferred', hdeferred', hpol⟩ := hpolicy
  cases Option.mem_unique hdeferred hdeferred'
  rw [← deferredContextPlan_congr (sameDemands_iff.mp hsame)] at hdeferred
  have hheld : (live.allocate live.demands.demands).held =
      p.bindings.map (BindingRecord.map Utf8.bytes) := by
    rw [sameDemands_iff.mp hsame]
    refine held_eq (hcount.trans (List.length_map _).symm) fun i hi => ?_
    rw [List.length_map] at hi
    have hbinding := hbindings (.binding i p.bindings[i]) (List.mem_mapIdx.mpr ⟨i, hi, rfl⟩)
    rw [List.getElem_map]
    exact hbinding
  refine ⟨_, by rw [LiveApplication.compiled, Option.mem_def.mp hdeferred]; rfl, ?_⟩
  show PlanContent.mk (live.identity .backend) (live.identity .target) (live.identity .board)
    (live.identity .compiler) live.application deferred.capacity deferred.policy
    live.demands.demands (live.allocate live.demands.demands).held = _
  have hpol' : deferred.policy = Utf8.bytes p.policy := hpol.trans (viewBytes_policy hvalid)
  rw [hheld, hdemands, hbackend, htarget, hboard, hcompiler, hcap, hpol']
  rfl

/-- Where its probe would record the content of the plan, but for the name, all assertions hold. -/
theorem holds_of_compiled {F : Type} {sha256 : List UInt8 → String} {json : Value F → List UInt8}
    {p : PlanContent String} (hvalid : Valid p) {live : LiveApplication n m}
    (hroom : (live.allocate live.demands.demands).count ≤ m) {a : CompiledApplication n m}
    (ha : live.compiled = some a)
    (hcontent : a.content = { p.map Utf8.bytes with application := live.application }) :
    ∀ x ∈ assertions (readPlan sha256 json p), x.Holds (readPlan sha256 json p) live := by
  obtain ⟨deferred, hdeferred, heq⟩ := Option.bind_eq_some_iff.mp ha
  cases heq
  have hfield : ∀ {β : Type} (f : PlanContent Text → β), f _ = f _ := fun f => congrArg f hcontent
  have hrecorded : (recordedDemands (readPlan sha256 json p)).demands =
      p.demands.map (Demand.map Utf8.bytes) := recordedDemands_demands hvalid.demands
  have hsame : live.demands.demands = (recordedDemands (readPlan sha256 json p)).demands :=
    (hfield PlanContent.demands).trans hrecorded.symm
  rw [deferredContextPlan_congr hsame] at hdeferred
  have hheld : (live.allocate (recordedDemands (readPlan sha256 json p)).demands).held =
      p.bindings.map (BindingRecord.map Utf8.bytes) := by
    rw [← hsame]
    exact hfield PlanContent.bindings
  have hcount : (live.allocate (recordedDemands (readPlan sha256 json p)).demands).count =
      p.bindings.length := by
    have hlen := congrArg List.length hheld
    rwa [SelectedPlan.held, List.length_take, Vector.length_toList, List.length_map,
      Nat.min_eq_left (hsame ▸ hroom)] at hlen
  simp only [assertions, List.forall_mem_append, applicationAssertions, List.forall_mem_cons]
  refine ⟨⟨sameDemands_iff.mpr hsame, rfl, ⟨_, hdeferred, hfield PlanContent.capacity⟩,
    ⟨_, hdeferred, (hfield PlanContent.policy).trans (viewBytes_policy hvalid).symm⟩,
    hfield PlanContent.backend, hfield PlanContent.target, hfield PlanContent.board,
    hfield PlanContent.compiler, hcount, by simp⟩, fun x hx => ?_⟩
  obtain ⟨i, hi, rfl⟩ := List.mem_mapIdx.mp hx
  have hget := congrArg (fun l => l[i]?) hheld
  have hi' : i < p.bindings.length := hi
  rw [SelectedPlan.held, List.getElem?_take_of_lt (hi'.trans_eq hcount.symm), List.getElem?_map,
    List.getElem?_eq_getElem hi'] at hget
  exact hget

/-- **An application whose source's assertions all hold would record what the application of the plan
recorded, but for its name.** -/
theorem guards_reject_stale (F : Type) [PyFloat F] [FloatText F] (sha256 : List UInt8 → String)
    (long : UnsignedLong) {recorded : CompiledApplication n m} {record : List UInt8}
    (hrecord : encodeProbeRecord long recorded.content = some record) {plan : Plan}
    (hplan : generatedPlan F sha256 record = .ok plan) {n' m' : Nat}
    {live : LiveApplication n' m'} (hholds : ∀ a ∈ assertions plan, a.Holds plan live) :
    ∃ a, live.compiled = some a ∧
      { a.content with application := recorded.application } = recorded.content.recorded ∧
      encodeProbeRecord long { a.content with application := recorded.application } = some record := by
  obtain ⟨p, ⟨hlt, hcarried⟩, hbytes, hvalid, rfl⟩ := (generatedPlan_eq_ok F sha256 long).mp hplan
  obtain ⟨a, ha, hcontent⟩ := compiled_of_holds hvalid hholds
  have hsize : probeRecordSize (p.map Utf8.bytes) ≤ 65535 := by
    obtain ⟨hle, -, heq⟩ := encode_eq_some.mp hrecord
    rw [← length_recordBytes long, ← hbytes, heq, length_recordBytes]
    exact hle
  have hencode : encodeProbeRecord long (p.map Utf8.bytes) = some record :=
    encode_eq_some.mpr ⟨hsize, hcarried.fits, hbytes⟩
  have hsays : recorded.content.recorded = p.map Utf8.bytes := by
    rw [recorded_eq_of_encode hrecord hencode]
    exact recorded_eq_self hcarried.capacity (List.forall_mem_map.mpr hcarried.dispatchOrder)
  have happlication : recorded.application = Utf8.bytes p.application :=
    congrArg PlanContent.application hsays
  have heq : { a.content with application := recorded.application } = recorded.content.recorded := by
    rw [hcontent, hsays, happlication]
    rfl
  exact ⟨a, ha, heq, by rw [heq, encode_recorded, hrecord]⟩

/-! ### The name of the application -/

/-- The timer's plan as the generator reads it. -/
def timerPlan : PlanContent String where
  backend := "avr"
  target := "atmega328p"
  board := "uno"
  compiler := "gcc"
  application := "blink"
  capacity := 0
  policy := ""
  demands := [⟨⟨"timer", "tick", "period"⟩, "raw", "isr", "direct"⟩]
  bindings := [⟨⟨"timer", "tick", "period"⟩, "timer", "normal_period", "timer1_ovf", "overflow",
    "timer1_ovf_vect", "timer1_status", "timer1_auto_ack", 0, false⟩]

theorem timerPlan_valid : Valid timerPlan := by
  have hnone : validate [timerEvent] timer.demands timer.plan = .none := by decide
  exact (valid_map_iff spells_bytes).mp ((validate_iff_valid timer_compiles).mp hnone)

/-- The timer's application under some name. -/
def timerNamed (name : String) : LiveApplication 1 1 where
  identity
    | .backend => timer.backend
    | .target => timer.target
    | .board => timer.board
    | .compiler => timer.compiler
  application := literal name
  demands := timer.demands
  queue := none
  allocate _ := timer.plan

theorem timerNamed_holds (name : String) {F : Type} (sha256 : List UInt8 → String)
    (json : Value F → List UInt8) :
    ∀ a ∈ assertions (readPlan sha256 json timerPlan), a.Holds (readPlan sha256 json timerPlan)
      (timerNamed name) :=
  holds_of_compiled timerPlan_valid (le_refl 1) rfl rfl

theorem timer_fits : Fits timer.content := ⟨by decide, by decide, by decide, by decide⟩

/-- The timer's record. -/
def timerRecord : List UInt8 := recordBytes .bits32 timer.content

theorem encode_timer : encodeProbeRecord .bits32 timer.content = some timerRecord :=
  encode_eq_some.mpr ⟨by decide, timer_fits, rfl⟩

theorem timerRecord_length : timerRecord.length < 2 ^ 32 := by
  rw [timerRecord, length_recordBytes]
  decide

theorem timerPlan_carried : Carried timerPlan :=
  ⟨timer_fits, by decide, by decide, by decide, by decide⟩

theorem generatedPlan_timer (sha256 : List UInt8 → String) :
    generatedPlan Empty sha256 timerRecord =
      .ok (readPlan sha256 (jsonBytes : Value Empty → _) timerPlan) :=
  (generatedPlan_eq_ok Empty sha256 .bits32).mpr
    ⟨timerPlan, ⟨timerRecord_length, timerPlan_carried⟩, rfl, timerPlan_valid, rfl⟩

theorem guards_reject_stale_timer :
    ∃ a, (timerNamed "fade").compiled = some a ∧
      { a.content with application := timer.application } = timer.content.recorded ∧
      encodeProbeRecord .bits32 { a.content with application := timer.application } =
        some timerRecord :=
  guards_reject_stale Empty (fun _ => "") .bits32 encode_timer (generatedPlan_timer _)
    (timerNamed_holds "fade" _ _)

/-- The timer's plan under some name. -/
def timerPlanNamed (name : String) : PlanContent String := { timerPlan with application := name }

theorem timerPlanNamed_valid {name : String} (h : identifier name) : Valid (timerPlanNamed name) := by
  refine { timerPlan_valid with header := ?_ }
  have hheader := timerPlan_valid.header
  simp only [PlanContent.header, List.forall_mem_cons] at hheader ⊢
  exact ⟨hheader.1, hheader.2.1, hheader.2.2.1, hheader.2.2.2.1, h, by simp⟩

theorem emit_timer {F : Type} (sha256 : List UInt8 → String) (json : Value F → List UInt8)
    (name : String) :
    ∃ outputs, emit (readPlan sha256 json (timerPlanNamed name)) "blink.hpp" = .ok outputs := by
  have hgroups : sourceGroups (timerPlanNamed name).bindings = [⟨"timer1_ovf", "timer",
      "timer1_ovf_vect", "timer1_status", "timer1_auto_ack",
      [⟨⟨"timer", "tick", "period"⟩, "overflow", 0⟩]⟩] := by
    simp [sourceGroups, canonicalGroups, timerPlanNamed, timerPlan, Group.new, Group.append, setItem,
      Group.sortEvents]
  rw [readPlan, hgroups]
  exact ⟨_, rfl⟩

/-- **The assertions hold of an application that differs in its name alone**, whose record is another. -/
theorem guards_accept_renamed :
    ∃ plan outputs a, generatedPlan Empty (fun _ => "") timerRecord = .ok plan ∧
      emit plan "blink.hpp" = .ok outputs ∧
      (∀ x ∈ assertions plan, x.Holds plan (timerNamed "fade")) ∧
      (timerNamed "fade").compiled = some a ∧ a.application ≠ timer.application ∧
      encodeProbeRecord .bits32 timer.content = some timerRecord ∧
      encodeProbeRecord .bits32 a.content ≠ some timerRecord := by
  obtain ⟨outputs, houtputs⟩ := emit_timer (fun _ => "") (jsonBytes : Value Empty → _) "blink"
  refine ⟨_, outputs, _, generatedPlan_timer _, houtputs, timerNamed_holds "fade" _ _, rfl, by decide,
    encode_timer, fun hencode => ?_⟩
  have hsays := recorded_eq_of_encode hencode encode_timer
  exact absurd (congrArg PlanContent.application hsays) (by decide)

end Grevir.Irqgen
