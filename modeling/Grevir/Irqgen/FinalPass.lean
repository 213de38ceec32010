import Grevir.Interrupt.Inventory
import Grevir.Irqgen.Routing

/-!
# Irqgen — FinalPass

A translation unit in both passes of a build.  The probe pass compiles it alone and lays out the record
of its binding plan.  The final pass compiles it with the header and the source that were emitted for a
plan, which need not be its own: the header says which handlers are bound, the source asserts that the
unit is still the one of the plan, and each routine of the source dispatches one event.

* `probePass`, `finalPass`: what either pass answers, where everything in it compiles.
* `final_pass_exact`: when a unit that was probed compiles in the final pass.
* `final_pass_routes`: what is routed, of any unit that compiles with the outputs of any plan.
-/

namespace Grevir.Irqgen

open Interrupt Json

/-! ### The passes -/

/-- A board: its identities, and what it is asked for an application.  Its context and its `Allocate` are
templates over the whole application, hence read all of it, the order of its declarations too: what is
there for deferred events, and of some demands the inventory, the selected plan, and the board's own check
of a plan. -/
structure AllocatingBoard (E : Type) (capacity : Nat) where
  identity : BoardIdentity → Text
  queue : TranslationUnit E → Option QueueBoard
  problem : TranslationUnit E → List (Demand Text) → Problem
  plan : TranslationUnit E → List (Demand Text) → SelectedPlan capacity
  validates : TranslationUnit E → List (Demand Text) → SelectedPlan capacity → Bool

/-- `EventCatalog::keys`, of the events of a pass. -/
def catalogKeys (events : List Event) : List (EventIdentity Text) :=
  (CatalogData.keys events.toArray.toVector).toList

namespace AllocatingBoard

variable {E : Type} {m : Nat} (board : AllocatingBoard E m) (u : TranslationUnit E)

/-- The assertions of `BindingPlan`, where `DemandSet` has these demands. -/
def bindingPlanAccepted {n : Nat} (events : List Event) (demands : DemandSummary n) : Bool :=
  let keys := catalogKeys events
  let selected := board.plan u demands.demands
  validateInventory keys (board.problem u demands.demands) selected
    && board.validates u demands.demands selected && validate keys demands selected = .none

/-- The application of a pass with these events, under some name. -/
def application (name : Text) (events : List Event) : LiveApplication events.toArray.size m where
  identity := board.identity
  application := name
  demands := DemandData.value events.toArray.toVector
  queue := board.queue u
  allocate := board.plan u

/-- The plan the board selects for the demands of the events. -/
def selected (events : List Event) : SelectedPlan m :=
  board.plan u (DemandData.value events.toArray.toVector).demands

end AllocatingBoard

instance {n m : Nat} (plan : Plan) (live : LiveApplication n m) :
    (a : Assertion) → Decidable (a.Holds plan live)
  | .sameDemands =>
      inferInstanceAs (Decidable (Interrupt.sameDemands live.demands (recordedDemands plan) = true))
  | .fingerprint value => inferInstanceAs (Decidable (literal plan.fingerprint = literal value))
  | .capacity =>
      inferInstanceAs (Decidable (∃ deferred ∈ deferredContextPlan (recordedDemands plan) live.queue,
        deferred.capacity = plan.content.capacity))
  | .policy =>
      inferInstanceAs (Decidable (∃ deferred ∈ deferredContextPlan (recordedDemands plan) live.queue,
        deferred.policy = viewBytes plan.content.policy))
  | .identity member value => inferInstanceAs (Decidable (live.identity member = literal value))
  | .bindingCount count =>
      inferInstanceAs (Decidable ((live.allocate (recordedDemands plan).demands).count = count))
  | .binding index record =>
      inferInstanceAs (Decidable ((live.allocate (recordedDemands plan).demands).bindings.toList[index]? =
        some (record.map literal)))

variable {E : Type} [DecidableEq E] {m : Nat}

/-- **The probe pass**: the record of the unit's plan. -/
def probePass (long : UnsignedLong) (u : TranslationUnit E) (board : AllocatingBoard E m) (name : Text) :
    Option (List UInt8) := do
  let events ← u.compile .probe
  let live := board.application u name events
  guard (board.bindingPlanAccepted u events live.demands)
  let a ← live.compiled
  encodeProbeRecord long a.content

/-- A routine as it compiles: the source it is installed for, the event it dispatches, and how. -/
structure Dispatch (E : Type) where
  source : String
  event : E
  handling : Handling
  deriving DecidableEq

/-- **The final pass** with the outputs of a plan: the routines. -/
def finalPass (plan : Plan) (u : TranslationUnit E) (board : AllocatingBoard E m) (name : Text) :
    Option (List (Dispatch E)) := do
  let bound ← (boundEvents plan).toOption
  let rs ← (routines plan).toOption
  let header := bound.map BoundEvent.boundKey
  let events ← u.compile (.final header)
  let live := board.application u name events
  guard (board.bindingPlanAccepted u events (recordedDemands plan))
  guard (∀ a ∈ assertions plan, a.Holds plan live)
  guard (definedOnce plan.content.backend rs)
  rs.mapM fun r => do
    let e ← u.byKey (r.event.map literal)
    let handling ← u.dispatchBoundInterrupt header (board.queue u).isSome e
    return ⟨r.group.source, e, handling⟩

/-! ### What either pass answers -/

theorem except_toOption_eq_some {ε α : Type} {c : Except ε α} {a : α} :
    c.toOption = some a ↔ c = .ok a := by
  cases c <;> simp [Except.toOption]

section Passes

variable {long : UnsignedLong} {u : TranslationUnit E} {board : AllocatingBoard E m} {name : Text}

theorem probePass_eq_some {record : List UInt8} :
    probePass long u board name = some record ↔
      ∃ events, u.compile .probe = some events ∧
        board.bindingPlanAccepted u events (board.application u name events).demands ∧
        ∃ a, (board.application u name events).compiled = some a ∧
          encodeProbeRecord long a.content = some record := by
  simp only [probePass, Option.bind_eq_bind, Option.bind_eq_some_iff, Option.guard_eq_some']
  constructor
  · rintro ⟨events, hevents, -, haccepted, a, ha, hrecord⟩
    exact ⟨events, hevents, haccepted, a, ha, hrecord⟩
  · rintro ⟨events, hevents, haccepted, a, ha, hrecord⟩
    exact ⟨events, hevents, (), haccepted, a, ha, hrecord⟩

/-- A routine compiles to a dispatch. -/
structure CompilesTo (u : TranslationUnit E) (header : List BoundEventKey) (queue : Bool) (r : Routine)
    (d : Dispatch E) : Prop where
  event : u.byKey (r.event.map literal) = some d.event
  dispatch : u.dispatchBoundInterrupt header queue d.event = some d.handling
  source : d.source = r.group.source

/-- A final pass in which everything compiles. -/
structure FinalPass (plan : Plan) (u : TranslationUnit E) (board : AllocatingBoard E m) (name : Text)
    (bound : List BoundEvent) (rs : List Routine) (events : List Event) (ds : List (Dispatch E)) :
    Prop where
  binds : boundEvents plan = .ok bound
  routes : routines plan = .ok rs
  compile : u.compile (.final (bound.map BoundEvent.boundKey)) = some events
  accepted : board.bindingPlanAccepted u events (recordedDemands plan)
  asserted : ∀ a ∈ assertions plan, a.Holds plan (board.application u name events)
  once : definedOnce plan.content.backend rs
  dispatches : List.Forall₂ (CompilesTo u (bound.map BoundEvent.boundKey) (board.queue u).isSome) rs ds

theorem finalPass_eq_some {plan : Plan} {ds : List (Dispatch E)} :
    finalPass plan u board name = some ds ↔ ∃ bound rs events, FinalPass plan u board name bound rs events ds := by
  have hroutine : ∀ header (r : Routine) (d : Dispatch E), (do
      let e ← u.byKey (r.event.map literal)
      let handling ← u.dispatchBoundInterrupt header (board.queue u).isSome e
      return (⟨r.group.source, e, handling⟩ : Dispatch E)) = some d ↔
        CompilesTo u header (board.queue u).isSome r d := by
    intro header r d
    simp only [Option.bind_eq_bind, Option.bind_eq_some_iff]
    constructor
    · rintro ⟨e, he, handling, hhandling, heq⟩
      cases heq
      exact ⟨he, hhandling, rfl⟩
    · rintro ⟨he, hhandling, hsource⟩
      exact ⟨_, he, _, hhandling, by rw [← hsource]; rfl⟩
  simp only [finalPass, Option.bind_eq_bind, Option.bind_eq_some_iff, Option.guard_eq_some',
    except_toOption_eq_some, option_mapM_eq_some] at hroutine ⊢
  simp only [hroutine]
  constructor
  · rintro ⟨bound, hbound, rs, hrs, events, hevents, -, haccepted, -, hasserted, -, honce, hds⟩
    exact ⟨bound, rs, events, hbound, hrs, hevents, haccepted, hasserted, honce, hds⟩
  · rintro ⟨bound, rs, events, h⟩
    exact ⟨bound, h.binds, rs, h.routes, events, h.compile, (), h.accepted, (), h.asserted, (),
      h.once, h.dispatches⟩

end Passes

theorem compiled_eq_some {n m : Nat} {live : LiveApplication n m} {a : CompiledApplication n m} :
    live.compiled = some a ↔ ∃ deferred, deferredContextPlan live.demands live.queue = some deferred ∧
      a = ⟨live.identity .backend, live.identity .target, live.identity .board,
        live.identity .compiler, live.application, live.demands, live.allocate live.demands.demands,
        deferred⟩ := by
  rw [LiveApplication.compiled, Option.bind_eq_bind, Option.bind_eq_some_iff]
  constructor
  · rintro ⟨deferred, hdeferred, heq⟩
    exact ⟨deferred, hdeferred, (Option.some.inj heq).symm⟩
  · rintro ⟨deferred, hdeferred, rfl⟩
    exact ⟨deferred, hdeferred, rfl⟩

theorem live_demands_perm (events : List Event) :
    (DemandData.value events.toArray.toVector).demands.Perm (DemandData.handled events) := by
  simpa using DemandData.demands_value_perm events.toArray.toVector

section Outputs

variable {F : Type} {sha256 : List UInt8 → String} {json : Value F → List UInt8}
  {p : PlanContent String}

/-- **The header of a valid plan binds its demands.** -/
theorem header_demands (h : Valid p) {bound : List BoundEvent}
    (hbound : boundEvents (readPlan sha256 json p) = .ok bound) :
    (bound.map BoundEvent.boundKey).map BoundEventKey.demand =
      p.demands.map (Demand.map Utf8.bytes) := by
  rw [boundEvents_readPlan sha256 json h] at hbound
  cases hbound
  refine List.ext_getElem (by simp) fun i h₁ h₂ => ?_
  have hi : i < p.demands.length := by simpa using h₂
  have hroute := identifier_route _ (h.demands _ (List.getElem_mem hi)).route
  simp only [List.getElem_map, List.getElem_mapIdx, BoundEvent.boundKey, BoundEventKey.demand,
    Demand.map, viewBytes_ascii (identifier_ascii hroute.1),
    viewBytes_ascii (identifier_ascii hroute.2.1), viewBytes_ascii (identifier_ascii hroute.2.2)]
  rfl

variable {u : TranslationUnit E} {board : AllocatingBoard E m} {name : Text} {bound : List BoundEvent}
  {rs : List Routine} {events : List Event} {ds : List (Dispatch E)}

/-- What is routed of the events of a pass: each handled event once, to the handler that is declared for
it, from a source of its own, which is the one the board selects for it. -/
structure Routed (u : TranslationUnit E) (board : AllocatingBoard E m) (events : List Event)
    (ds : List (Dispatch E)) : Prop where
  handled : (ds.map (·.event)).Perm (u.events.filter u.handles)
  declared : ∀ d ∈ ds, u.declared d.event = some d.handling
  distinct : (ds.map (·.source)).Nodup
  selected : (ds.map fun d => (literal d.source, u.key d.event)).Perm
    ((board.selected u events).held.map fun b => (b.source, b.event))

/-- The demands of a unit that compiles with a plan's outputs are the plan's, and the plan its board
selects for them is the plan's too. -/
theorem FinalPass.agrees (hvalid : Valid p)
    (h : FinalPass (readPlan sha256 json p) u board name bound rs events ds) :
    (board.application u name events).demands.demands = p.demands.map (Demand.map Utf8.bytes) ∧
      (board.selected u events).held = p.bindings.map (BindingRecord.map Utf8.bytes) := by
  obtain ⟨a, ha, hcontent⟩ := compiled_of_holds hvalid h.asserted
  obtain ⟨deferred, -, rfl⟩ := compiled_eq_some.mp ha
  exact ⟨congrArg PlanContent.demands hcontent, congrArg PlanContent.bindings hcontent⟩

/-- **What the final pass routes**, with the outputs of a valid plan. -/
theorem FinalPass.routed (hvalid : Valid p)
    (h : FinalPass (readPlan sha256 json p) u board name bound rs events ds) :
    u.compile .probe = some events ∧ Routed u board events ds := by
  obtain ⟨hprobe, -, -⟩ := u.compile_final_iff.mp h.compile
  obtain ⟨hunique, -⟩ := u.compile_eq_some.mp hprobe
  obtain ⟨hlive, hheld⟩ := h.agrees hvalid
  have hdemands : ((bound.map BoundEvent.boundKey).map BoundEventKey.demand).Perm
      (DemandData.handled events) := by
    rw [header_demands hvalid h.binds, ← hlive]
    exact live_demands_perm events
  obtain ⟨rs', hrs', hperm⟩ := routines_readPlan sha256 json hvalid
  obtain rfl : rs' = rs := Except.ok.inj (hrs'.symm.trans h.routes)
  have hroutine := exists_left_of_forall₂ h.dispatches
  have hevent : ∀ d ∈ ds, d.event ∈ u.events := by
    intro d hd
    obtain ⟨r, -, hrd⟩ := hroutine d hd
    exact (u.find_spec hrd.event).1
  have hpairs : ds.map (fun d => (d.source, u.key d.event)) =
      rs'.map fun r => (r.group.source, r.event.map literal) := by
    rw [← List.forall₂_eq_eq_eq, List.forall₂_map_left_iff, List.forall₂_map_right_iff]
    refine (h.dispatches.imp fun r d hrd => ?_).flip
    show (d.source, u.key d.event) = _
    rw [hrd.source, (u.find_spec hrd.event).2]
  have hbindings : (ds.map fun d => (d.source, u.key d.event)).Perm
      (p.bindings.map fun b => (b.source, b.event.map literal)) := by
    have hmapped := hperm.map fun x => (x.1, x.2.map literal)
    rw [List.map_map, List.map_map] at hmapped
    rw [hpairs]
    exact hmapped
  have hkeys : (ds.map fun d => u.key d.event).Perm ((bound.map BoundEvent.boundKey).map (·.key)) := by
    have hevents : (bound.map BoundEvent.boundKey).map (·.key) =
        (p.bindings.map (·.event)).map (EventIdentity.map literal) := by
      have hheader := congrArg (List.map Demand.event) (header_demands hvalid h.binds)
      rw [hvalid.events]
      simp only [List.map_map] at hheader ⊢
      exact hheader
    have hsnd := hbindings.map Prod.snd
    rw [List.map_map, List.map_map] at hsnd
    rw [hevents, List.map_map]
    exact hsnd
  refine ⟨hprobe, ?_, ?_, ?_, ?_⟩
  · have hnodup : (ds.map fun d => u.key d.event).Nodup := by
      refine (hkeys.trans (TranslationUnit.keys_perm_of_demands hdemands)).nodup_iff.mpr
        (DemandData.nodup_handled ?_)
      rwa [u.keys_of_compile hprobe]
    refine (List.perm_ext_iff_of_nodup ?_ (hunique.of_map.filter _)).mpr fun e => ?_
    · exact List.Nodup.of_map u.key (by rwa [List.map_map])
    · have hbound : ∀ e, (∃ d ∈ ds, u.key d.event = u.key e) ↔
          u.key e ∈ (bound.map BoundEvent.boundKey).map (·.key) := by
        intro e
        rw [← hkeys.mem_iff, List.mem_map]
      rw [List.mem_filter, List.mem_map]
      constructor
      · rintro ⟨d, hd, rfl⟩
        have he := hevent d hd
        exact ⟨he, (TranslationUnit.bound_iff_handles hprobe hdemands he).mp ((hbound _).mp ⟨d, hd, rfl⟩)⟩
      · rintro ⟨he, hhandles⟩
        obtain ⟨d, hd, hkey⟩ := (hbound e).mpr
          ((TranslationUnit.bound_iff_handles hprobe hdemands he).mpr hhandles)
        exact ⟨d, hd, List.inj_on_of_nodup_map hunique (hevent d hd) he hkey⟩
  · intro d hd
    obtain ⟨r, -, hrd⟩ := hroutine d hd
    exact u.declared_of_dispatch h.compile (hevent d hd) hrd.dispatch
  · have hfst := hbindings.map Prod.fst
    rw [List.map_map, List.map_map] at hfst
    exact hfst.nodup_iff.mpr hvalid.exclusive.sources
  · have hmapped := hbindings.map fun x => (literal x.1, x.2)
    rw [List.map_map, List.map_map] at hmapped
    rw [hheld, List.map_map]
    exact hmapped

/-! ### What is accepted -/

omit [DecidableEq E] in
theorem bindingPlanAccepted_congr {n k : Nat} {events : List Event} {demands : DemandSummary n}
    {demands' : DemandSummary k} (h : demands.demands = demands'.demands) :
    board.bindingPlanAccepted u events demands = board.bindingPlanAccepted u events demands' := by
  have hcount : demands.count = demands'.count := by
    rw [← demands.length_demands, h, demands'.length_demands]
  have hvalidate : ∀ plan : SelectedPlan m,
      validate (catalogKeys events) demands plan = validate (catalogKeys events) demands' plan := by
    intro plan
    rw [validate, validate, h, hcount]
  simp only [AllocatingBoard.bindingPlanAccepted, h, hvalidate]

theorem guardName_injective (backend : String) : Function.Injective (guardName backend) := by
  intro s s' h
  exact (String.append_right_inj ("grevir_irq_source_" ++ backend ++ "_")).mp h

/-- The backend of outputs for AVR has one source. -/
theorem source_of_avr {plan : Plan} (h : checkBackend plan = .ok ()) (havr : plan.content.backend = "avr") :
    ∀ group ∈ plan.sourceGroups, group.source = "timer1_ovf" := by
  obtain ⟨_, -, hrest⟩ := except_bind_eq_ok.mp h
  obtain ⟨_, -, hrest⟩ := except_bind_eq_ok.mp hrest
  simp only [if_pos havr] at hrest
  obtain ⟨_, -, hrest⟩ := except_bind_eq_ok.mp hrest
  obtain ⟨_, -, hrest⟩ := except_bind_eq_ok.mp hrest
  obtain ⟨_, hgroups, -⟩ := except_bind_eq_ok.mp hrest
  exact fun group hgroup => (((require_answers _).ok_iff ()).mp hgroups group hgroup).1

theorem definedOnce_readPlan (hvalid : Valid p) (hbackend : checkBackend (readPlan sha256 json p) = .ok ())
    (hrs : routines (readPlan sha256 json p) = .ok rs) : definedOnce p.backend rs := by
  obtain ⟨rs', hrs', hperm⟩ := routines_readPlan sha256 json hvalid
  obtain rfl : rs' = rs := Except.ok.inj (hrs'.symm.trans hrs)
  have hsources : (rs'.map fun r => r.group.source).Nodup := by
    have hfst := hperm.map Prod.fst
    rw [List.map_map, List.map_map] at hfst
    exact hfst.nodup_iff.mpr hvalid.exclusive.sources
  have hguards : (rs'.map fun r => guardName p.backend r.group.source).Nodup := by
    have hmap := hsources.map (guardName_injective p.backend)
    rwa [List.map_map] at hmap
  rw [definedOnce, decide_eq_true hguards, Bool.true_and, Bool.or_eq_true, decide_eq_true_iff,
    decide_eq_true_iff]
  refine or_iff_not_imp_left.mpr fun havr => ?_
  have havr' := source_of_avr hbackend (not_not.mp havr)
  have hall : ∀ s ∈ rs'.map fun r => r.group.source, s = "timer1_ovf" := by
    intro s hs
    obtain ⟨r, hr, rfl⟩ := List.mem_map.mp hs
    exact havr' _ (routine_spec hrs hr).1
  have hlength : (rs'.map fun r => r.group.source).length ≤ ["timer1_ovf"].length :=
    (hsources.subperm fun s hs => List.mem_singleton.mpr (hall s hs)).length_le
  rwa [List.length_map] at hlength

/-- What is deferred has a queue. -/
theorem isSome_queue {n : Nat} {demands : DemandSummary n} {queue : Option QueueBoard}
    {c : DeferredContext} (h : deferredContextPlan demands queue = some c) {d : Demand Text}
    (hd : d ∈ demands.demands) (hcontext : d.context = literal "main_loop") : queue.isSome := by
  have hselected : (demands.demands.any fun d => d.context = literal "main_loop") = true :=
    List.any_eq_true.mpr ⟨d, hd, decide_eq_true hcontext⟩
  unfold deferredContextPlan at h
  rw [hselected] at h
  cases queue with
  | none => cases h
  | some queue => rfl

/-- **A unit whose record is that of a valid plan, in all of it**, compiles with the plan's outputs. -/
theorem exists_finalPass (hvalid : Valid p)
    (hbackend : checkBackend (readPlan sha256 json p) = .ok ()) (hprobe : u.compile .probe = some events)
    (haccepted : board.bindingPlanAccepted u events (board.application u name events).demands)
    {a : CompiledApplication events.toArray.size m}
    (ha : (board.application u name events).compiled = some a)
    (hcontent : a.content = { p.map Utf8.bytes with application := name })
    (hcatalog : ∀ e ∈ u.onInterrupt, e ∈ u.events) :
    ∃ ds, finalPass (readPlan sha256 json p) u board name = some ds := by
  obtain ⟨hunique, -⟩ := u.compile_eq_some.mp hprobe
  obtain ⟨deferred, hdeferred, hfields⟩ := compiled_eq_some.mp ha
  have hlive : (board.application u name events).demands.demands = p.demands.map (Demand.map Utf8.bytes) := by
    rw [hfields] at hcontent
    exact congrArg PlanContent.demands hcontent
  obtain ⟨bound, hbound⟩ : ∃ bound, boundEvents (readPlan sha256 json p) = .ok bound :=
    ⟨_, boundEvents_readPlan sha256 json hvalid⟩
  have hdemands : ((bound.map BoundEvent.boundKey).map BoundEventKey.demand).Perm
      (DemandData.handled events) := by
    rw [header_demands hvalid hbound, ← hlive]
    exact live_demands_perm events
  obtain ⟨rs, hrs, hperm⟩ := routines_readPlan sha256 json hvalid
  have hcompile := (TranslationUnit.compile_final_own hprobe hdemands).mpr hcatalog
  have hrecorded : (recordedDemands (readPlan sha256 json p)).demands =
      (board.application u name events).demands.demands :=
    (recordedDemands_demands hvalid.demands).trans hlive.symm
  have hroom : (board.plan u (board.application u name events).demands.demands).count ≤ m := by
    simp only [AllocatingBoard.bindingPlanAccepted, Bool.and_eq_true, decide_eq_true_iff] at haccepted
    exact (validate_eq_none.mp haccepted.2).2.1.2
  have hroutine : ∀ r ∈ rs, ∃ d, CompilesTo u (bound.map BoundEvent.boundKey) (board.queue u).isSome r d := by
    intro r hr
    -- the routine's event is that of a binding, hence of a demand, which is of a handled event
    have hevent : r.event ∈ p.demands.map (·.event) := by
      obtain ⟨b, hb, heq⟩ := List.mem_map.mp (hperm.mem_iff.mp (List.mem_map_of_mem hr))
      rw [← hvalid.events, ← (Prod.mk.inj heq).2]
      exact List.mem_map_of_mem hb
    obtain ⟨d, hd, hkey⟩ := List.mem_map.mp hevent
    have hlived : d.map Utf8.bytes ∈ (board.application u name events).demands.demands :=
      hlive ▸ List.mem_map_of_mem hd
    obtain ⟨e, he, c, hc, hhandles, hdemand⟩ := (u.mem_handled_iff hprobe).mp
      ((live_demands_perm events).mem_iff.mp hlived)
    have hekey : u.key e = r.event.map literal := (congrArg Demand.event hdemand).trans
      (congrArg (EventIdentity.map literal) hkey)
    have hqueue : u.declared e = some .postFromIsr → (board.queue u).isSome = true := by
      intro hdeclared
      refine isSome_queue hdeferred hlived ?_
      rw [← hdemand]
      exact u.context_of_deferred hc hdeclared
    obtain ⟨handling, hdispatch, -⟩ := u.exists_dispatch hcompile hdemands he hhandles hqueue
    refine ⟨⟨r.group.source, e, handling⟩, ?_, hdispatch, rfl⟩
    rw [← hekey]
    exact u.find_key hunique he
  obtain ⟨ds, hds⟩ := exists_forall₂ hroutine
  refine ⟨ds, finalPass_eq_some.mpr ⟨bound, rs, events, hbound, hrs, hcompile, ?_, ?_, ?_, hds⟩⟩
  · rwa [bindingPlanAccepted_congr hrecorded]
  · exact holds_of_compiled hvalid hroom ha hcontent
  · exact definedOnce_readPlan hvalid hbackend hrs

end Outputs

/-! ### Both passes -/

variable (F : Type) [PyFloat F] [FloatText F] (sha256 : List UInt8 → String)

/-- **What is routed of a unit that compiles with the outputs of a plan**, whatever application the plan
was made for: the unit's own handled events, each once, from the sources its own board selects. -/
theorem final_pass_routes {u : TranslationUnit E} {board : AllocatingBoard E m} {name : Text}
    {record : List UInt8} {plan : Plan} (hplan : generatedPlan F sha256 record = .ok plan)
    {ds : List (Dispatch E)} (hfinal : finalPass plan u board name = some ds) :
    ∃ events, u.compile .probe = some events ∧ Routed u board events ds := by
  obtain ⟨p, -, -, hvalid, rfl⟩ := (generatedPlan_eq_ok F sha256 .bits32).mp hplan
  obtain ⟨bound, rs, events, h⟩ := finalPass_eq_some.mp hfinal
  exact ⟨events, h.routed hvalid⟩

/-- **When a unit that was probed compiles in the final pass**: exactly when every `on_interrupt` is of
an event of the catalog, and the record lost nothing of a dispatch order. -/
theorem final_pass_exact (long : UnsignedLong) {u : TranslationUnit E} {board : AllocatingBoard E m}
    {name : Text} {record : List UInt8} (hprobe : probePass long u board name = some record) {plan : Plan}
    (hplan : generatedPlan F sha256 record = .ok plan) {applicationHeader : String}
    {outputs : List UInt8 × List UInt8} (hemit : emit plan applicationHeader = .ok outputs) :
    ∃ events, u.compile .probe = some events ∧
      ((∃ ds, finalPass plan u board name = some ds) ↔ (∀ e ∈ u.onInterrupt, e ∈ u.events) ∧
        ∀ b ∈ (board.selected u events).held, b.dispatchOrder < 2 ^ 16) := by
  obtain ⟨events, hevents, haccepted, a, ha, hrecord⟩ := probePass_eq_some.mp hprobe
  obtain ⟨p, ⟨hlt, hcarried⟩, hbytes, hvalid, rfl⟩ := (generatedPlan_eq_ok F sha256 long).mp hplan
  obtain ⟨_, hbackend, -⟩ := except_bind_eq_ok.mp hemit
  have hsays : a.content.recorded = p.map Utf8.bytes := by
    have hsize : probeRecordSize (p.map Utf8.bytes) ≤ 65535 := by
      obtain ⟨hle, -, heq⟩ := encode_eq_some.mp hrecord
      rw [← length_recordBytes long, ← hbytes, heq, length_recordBytes]
      exact hle
    rw [recorded_eq_of_encode hrecord (encode_eq_some.mpr ⟨hsize, hcarried.fits, hbytes⟩)]
    exact recorded_eq_self hcarried.capacity (List.forall_mem_map.mpr hcarried.dispatchOrder)
  refine ⟨events, hevents, ?_⟩
  constructor
  · rintro ⟨ds, hds⟩
    obtain ⟨bound, rs, events', h⟩ := finalPass_eq_some.mp hds
    obtain ⟨hevents', -, hcatalog⟩ := u.compile_final_iff.mp h.compile
    obtain rfl : events = events' := Option.some.inj (hevents.symm.trans hevents')
    refine ⟨fun e he => (hcatalog e he).1, ?_⟩
    rw [(h.agrees hvalid).2]
    exact List.forall_mem_map.mpr hcarried.dispatchOrder
  · rintro ⟨hcatalog, horders⟩
    obtain ⟨deferred, hdeferred, rfl⟩ := compiled_eq_some.mp ha
    have hcapacity : deferred.capacity < 2 ^ 16 :=
      (deferredContextPlan_capacity hdeferred).trans_lt (by decide)
    rw [recorded_eq_self hcapacity horders] at hsays
    refine exists_finalPass hvalid hbackend hevents haccepted ha ?_ hcatalog
    rw [← hsays]
    rfl

/-! ### The timer -/

/-- The timer's program: one event, with an `on_interrupt`. -/
def timerUnit : TranslationUnit Unit where
  key _ := timerEvent
  context _ := .mainLoop
  delivery _ := .elide
  onInterrupt := [()]
  onEvent := []
  events := [()]

def timerBoard : AllocatingBoard Unit 1 where
  identity
    | .backend => timer.backend
    | .target => timer.target
    | .board => timer.board
    | .compiler => timer.compiler
  queue _ := none
  problem _ _ := ⟨[⟨timerEvent, false⟩], [⟨timerEvent, timerBinding.owner, timerBinding.configuration,
    timerBinding.source, timerBinding.selector, timerBinding.entry, timerBinding.snapshotPolicy,
    timerBinding.acknowledgePolicy, false, true, false⟩]⟩
  plan _ _ := timer.plan
  validates _ _ _ := true

theorem probePass_timer :
    probePass .bits32 timerUnit timerBoard timer.application = some timerRecord := by
  decide +kernel

theorem finalPass_timer :
    finalPass (readPlan (fun _ => "") (jsonBytes : Value Empty → _) timerPlan) timerUnit timerBoard
      timer.application = some [⟨"timer1_ovf", (), .onInterrupt⟩] := by
  decide +kernel

theorem final_pass_exact_timer :
    ∃ ds, finalPass (readPlan (fun _ => "") (jsonBytes : Value Empty → _) timerPlan) timerUnit timerBoard
      timer.application = some ds := by
  obtain ⟨outputs, houtputs⟩ := emit_timer (fun _ => "") (jsonBytes : Value Empty → _) "blink"
  obtain ⟨events, -, hiff⟩ :=
    final_pass_exact Empty (fun _ => "") .bits32 probePass_timer (generatedPlan_timer _) houtputs
  exact hiff.mpr ⟨by decide, List.forall_mem_singleton.mpr (by decide)⟩

theorem final_pass_routes_timer :
    ∃ events, timerUnit.compile .probe = some events ∧
      Routed timerUnit timerBoard events [⟨"timer1_ovf", (), .onInterrupt⟩] :=
  final_pass_routes Empty (fun _ => "") (generatedPlan_timer _) finalPass_timer

/-- The timer's program with an `on_event`, deferred to the main loop. -/
def deferredUnit : TranslationUnit Unit := { timerUnit with onInterrupt := [], onEvent := [()] }

def deferredBoard : AllocatingBoard Unit 1 :=
  { timerBoard with queue := fun _ => some ⟨1, literal "irq", literal "loop"⟩ }

/-- Its plan as the generator reads it. -/
def deferredPlan : PlanContent String :=
  { timerPlan with
    capacity := 1
    policy := "l3_irq_c4_loop"
    demands := [⟨⟨"timer", "tick", "period"⟩, "event", "main_loop", "elide"⟩] }

def deferredRecord : List UInt8 := recordBytes .bits32 (deferredPlan.map Utf8.bytes)

example : probePass .bits32 deferredUnit deferredBoard timer.application = some deferredRecord := by
  decide +kernel

theorem deferredPlan_valid : Valid deferredPlan :=
  { timerPlan_valid with
    demands := List.forall_mem_singleton.mpr ⟨by decide, by decide⟩
    sorted := List.pairwise_singleton _ _
    context := ⟨⟨by decide, by decide⟩, by decide⟩
    events := rfl }

theorem generatedPlan_deferred (sha256 : List UInt8 → String) :
    generatedPlan Empty sha256 deferredRecord =
      .ok (readPlan sha256 (jsonBytes : Value Empty → _) deferredPlan) := by
  have hlength : deferredRecord.length < 2 ^ 32 := by
    rw [deferredRecord, length_recordBytes]
    decide
  have hcarried : Carried deferredPlan :=
    ⟨⟨by decide, by decide, by decide, by decide⟩, by decide, by decide, by decide, by decide⟩
  exact (generatedPlan_eq_ok Empty sha256 .bits32).mpr
    ⟨deferredPlan, ⟨hlength, hcarried⟩, rfl, deferredPlan_valid, rfl⟩

theorem finalPass_deferred :
    finalPass (readPlan (fun _ => "") (jsonBytes : Value Empty → _) deferredPlan) deferredUnit deferredBoard
      timer.application = some [⟨"timer1_ovf", (), .postFromIsr⟩] := by
  decide +kernel

end Grevir.Irqgen
