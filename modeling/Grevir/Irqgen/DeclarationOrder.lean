import Grevir.Irqgen.FinalPass

/-!
# Irqgen — DeclarationOrder

The same program, declared in another order.  Which order the catalog lists the events in, and the
handlers stand in, is not to be seen in what either pass of a build answers, as far as the board's own
allocation does not look at it.

* `AllocatingBoard.OrderBlind`: a board that does not.
* `compile_perm`: the events of a pass, in another order.
* `live_eq_of_perm`: the keys and, on such a board, the application are the same.
* `build_order_independent`: so are the record of the probe pass and the routines of the final pass; the
  routines on any board that accepts both orders.
-/

namespace Grevir.Irqgen

open Interrupt Json

variable {E : Type}

/-- The same declarations in another order. -/
structure Reordered (u u' : TranslationUnit E) : Prop where
  key : u'.key = u.key
  context : u'.context = u.context
  delivery : u'.delivery = u.delivery
  onInterrupt : u.onInterrupt.Perm u'.onInterrupt
  onEvent : u.onEvent.Perm u'.onEvent
  events : u.events.Perm u'.events

variable {u u' : TranslationUnit E}

theorem Reordered.symm (h : Reordered u u') : Reordered u' u :=
  ⟨h.key.symm, h.context.symm, h.delivery.symm, h.onInterrupt.symm, h.onEvent.symm, h.events.symm⟩

theorem Reordered.nodup (h : Reordered u u') (hkeys : (u.events.map u.key).Nodup) :
    (u'.events.map u'.key).Nodup := by
  rw [h.key]
  exact (h.events.map u.key).nodup_iff.mp hkeys

/-- A board that answers for an application the same in whatever order it is declared. -/
structure AllocatingBoard.OrderBlind {m : Nat} (board : AllocatingBoard E m) : Prop where
  queue : ∀ {u u' : TranslationUnit E}, Reordered u u' → board.queue u = board.queue u'
  problem : ∀ {u u' : TranslationUnit E}, Reordered u u' → board.problem u = board.problem u'
  plan : ∀ {u u' : TranslationUnit E}, Reordered u u' → board.plan u = board.plan u'
  validates : ∀ {u u' : TranslationUnit E}, Reordered u u' → board.validates u = board.validates u'

/-! ### The parts of a pass -/

section Parts

/-- What is found by a key in a catalog of different keys is found in any order. -/
theorem byKey_of_reordered (h : Reordered u u') (hkeys : (u.events.map u.key).Nodup)
    {key : EventIdentity Text} {e : E} (he : u.byKey key = some e) : u'.byKey key = some e := by
  obtain ⟨hmem, rfl⟩ := u.find_spec he
  rw [TranslationUnit.byKey, ← h.key]
  exact u'.find_key (h.nodup hkeys) (h.events.mem_iff.mp hmem)

theorem byKey_eq (h : Reordered u u') (hkeys : (u.events.map u.key).Nodup) : u'.byKey = u.byKey := by
  funext key
  ext e
  exact ⟨byKey_of_reordered h.symm (h.nodup hkeys), byKey_of_reordered h hkeys⟩

theorem boundKey_eq_of_reordered (h : Reordered u u') (header : List BoundEventKey) (e : E) :
    u'.boundKey header e = u.boundKey header e := by
  rw [TranslationUnit.boundKey, TranslationUnit.boundKey, h.key]

variable [DecidableEq E]

theorem gateId_eq (h : Reordered u u') (hkeys : (u.events.map u.key).Nodup) (pass : Pass) (e : E) :
    u'.gateId pass e = u.gateId pass e := by
  cases pass with
  | probe => rfl
  | final header =>
      rw [TranslationUnit.gateId, TranslationUnit.gateId, boundKey_eq_of_reordered h, byKey_eq h hkeys]

theorem handlerChoice_eq (h : Reordered u u') (hkeys : (u.events.map u.key).Nodup) (pass : Pass) (e : E) :
    u'.handlerChoice pass e = u.handlerChoice pass e := by
  have hinterrupt : decide (e ∈ u'.onInterrupt) = decide (e ∈ u.onInterrupt) :=
    decide_eq_decide.mpr h.onInterrupt.mem_iff.symm
  have hevent : decide (e ∈ u'.onEvent) = decide (e ∈ u.onEvent) :=
    decide_eq_decide.mpr h.onEvent.mem_iff.symm
  have hraw : u'.raw pass e = u.raw pass e := by
    cases pass with
    | probe => exact congrArg some hinterrupt
    | final header =>
        rw [TranslationUnit.raw, TranslationUnit.raw, boundKey_eq_of_reordered h, gateId_eq h hkeys,
          hinterrupt]
  rw [TranslationUnit.handlerChoice, TranslationUnit.handlerChoice, hraw, hevent, h.context, h.delivery]

theorem dispatchBoundInterrupt_eq (h : Reordered u u') (hkeys : (u.events.map u.key).Nodup)
    (header : List BoundEventKey) (queue : Bool) (e : E) :
    u'.dispatchBoundInterrupt header queue e = u.dispatchBoundInterrupt header queue e := by
  rw [TranslationUnit.dispatchBoundInterrupt, TranslationUnit.dispatchBoundInterrupt,
    handlerChoice_eq h hkeys, boundKey_eq_of_reordered h]

theorem declared_eq (h : Reordered u u') (e : E) : u'.declared e = u.declared e := by
  rw [TranslationUnit.declared, TranslationUnit.declared, h.context, h.delivery]
  simp only [h.onInterrupt.mem_iff, h.onEvent.mem_iff]

end Parts

/-! ### What is compiled -/

/-- A mapping that answers for a list answers for any order of it, in that order. -/
theorem option_mapM_perm {α β : Type} {f : α → Option β} {l l' : List α} {bs : List β} (hperm : l.Perm l')
    (h : l.mapM f = some bs) : ∃ bs', l'.mapM f = some bs' ∧ bs.Perm bs' := by
  have hrelated := option_mapM_eq_some.mp h
  obtain ⟨bs', hrelated', hperm'⟩ := List.perm_comp_forall₂ hperm.symm hrelated
  exact ⟨bs', option_mapM_eq_some.mpr hrelated', hperm'.symm⟩

theorem catalogKeys_eq {n : Nat} (events : Vector Event n) {events' : List Event}
    (hperm : events.toList.Perm events') (hkeys : (events.toList.map Event.key).Nodup) :
    (CatalogData.keys events).toList = catalogKeys events' := by
  obtain rfl : n = events'.toArray.size := by simpa using hperm.length_eq
  have hsame : CatalogData.keys events = CatalogData.keys events'.toArray.toVector :=
    CatalogData.keys_eq_of_perm hperm hkeys
  rw [catalogKeys, hsame]

/-- **The application of a pass is the same on such a board**, in any order of the events. -/
theorem live_eq_of_perm {m : Nat} {board : AllocatingBoard E m} (hblind : board.OrderBlind)
    (h : Reordered u u') (name : Text) {events events' : List Event} (hperm : events.Perm events')
    (hkeys : (events.map Event.key).Nodup) :
    (⟨_, board.application u name events⟩ : (n : Nat) × LiveApplication n m) =
      ⟨_, board.application u' name events'⟩ := by
  have hsame : ∀ {n : Nat} (v : Vector Event n), v.toList.Perm events' → (v.toList.map Event.key).Nodup →
      (⟨n, ⟨board.identity, name, DemandData.value v, board.queue u, board.plan u⟩⟩ :
        (n : Nat) × LiveApplication n m) = ⟨_, board.application u' name events'⟩ := by
    intro n v hv hnodup
    obtain rfl : n = events'.toArray.size := by simpa using hv.length_eq
    have hvalue : DemandData.value v = DemandData.value events'.toArray.toVector :=
      DemandData.value_eq_of_perm hv hnodup
    rw [AllocatingBoard.application, hvalue, hblind.queue h, hblind.plan h]
  exact hsame events.toArray.toVector hperm hkeys

theorem bindingPlanAccepted_eq {m n : Nat} {board : AllocatingBoard E m} (hblind : board.OrderBlind)
    (h : Reordered u u') {events events' : List Event} (hcatalog : catalogKeys events = catalogKeys events')
    (demands : DemandSummary n) :
    board.bindingPlanAccepted u events demands = board.bindingPlanAccepted u' events' demands := by
  rw [AllocatingBoard.bindingPlanAccepted, AllocatingBoard.bindingPlanAccepted, hcatalog, hblind.plan h,
    hblind.problem h, hblind.validates h]

section Passes

variable [DecidableEq E]

omit [DecidableEq E] in
theorem headerAccepted_eq (h : Reordered u u') (hkeys : (u.events.map u.key).Nodup) (pass : Pass) :
    u'.headerAccepted pass = u.headerAccepted pass := by
  rw [TranslationUnit.headerAccepted, TranslationUnit.headerAccepted, byKey_eq h hkeys]

/-- **A pass compiles the same events**, in another order. -/
theorem compile_perm (h : Reordered u u') {pass : Pass} {events : List Event}
    (hevents : u.compile pass = some events) :
    ∃ events', u'.compile pass = some events' ∧ events.Perm events' ∧ (events.map Event.key).Nodup := by
  obtain ⟨hkeys, hheader, hgates, hchoices, hvalid⟩ := u.compile_eq_some.mp hevents
  obtain ⟨events', hchoices', hperm⟩ := option_mapM_perm h.events hchoices
  have hcompiled : (events.map Event.key).Nodup := by
    have hprobe : u.compile .probe = some events := by
      cases pass with
      | probe => exact hevents
      | final header => exact (u.compile_final_iff.mp hevents).1
    rwa [u.keys_of_compile hprobe]
  refine ⟨events', u'.compile_eq_some.mpr ⟨h.nodup hkeys, ?_, ?_, ?_, ?_⟩, hperm, hcompiled⟩
  · rwa [headerAccepted_eq h hkeys]
  · intro e he
    rw [gateId_eq h hkeys]
    exact hgates e (h.onInterrupt.mem_iff.mpr he)
  · rw [TranslationUnit.choices, ← hchoices']
    refine option_mapM_congr fun e _ => ?_
    rw [handlerChoice_eq h hkeys, h.key]
  · have hcatalog : catalogKeys events = catalogKeys events' :=
      catalogKeys_eq events.toArray.toVector hperm hcompiled
    rw [catalogKeys, catalogKeys] at hcatalog
    rwa [← hcatalog]

variable {m : Nat} {board : AllocatingBoard E m} {name : Text}

theorem probePass_of_reordered (hblind : board.OrderBlind) (h : Reordered u u') {long : UnsignedLong}
    {record : List UInt8} (hrecord : probePass long u board name = some record) :
    probePass long u' board name = some record := by
  obtain ⟨events, hevents, haccepted, a, ha, hencoded⟩ := probePass_eq_some.mp hrecord
  obtain ⟨events', hevents', hperm, hkeys⟩ := compile_perm h hevents
  have hcatalog : catalogKeys events = catalogKeys events' := catalogKeys_eq events.toArray.toVector hperm hkeys
  have hlive := live_eq_of_perm hblind h name hperm hkeys
  have haccepted' : board.bindingPlanAccepted u' events'
      (board.application u' name events').demands = true := by
    rw [← bindingPlanAccepted_eq hblind h hcatalog]
    have hsame := congrArg (fun live : (n : Nat) × LiveApplication n m =>
      board.bindingPlanAccepted u events live.2.demands) hlive
    exact hsame ▸ haccepted
  have hencoded' : ∃ a', (board.application u' name events').compiled = some a' ∧
      encodeProbeRecord long a'.content = some record := by
    have hsame := congrArg (fun live : (n : Nat) × LiveApplication n m =>
      live.2.compiled.bind fun a => encodeProbeRecord long a.content) hlive
    have hbind : ((board.application u name events).compiled.bind fun a =>
        encodeProbeRecord long a.content) = some record := Option.bind_eq_some_iff.mpr ⟨a, ha, hencoded⟩
    exact Option.bind_eq_some_iff.mp (hsame.symm.trans hbind)
  exact probePass_eq_some.mpr ⟨events', hevents', haccepted', hencoded'⟩

theorem finalPass_of_reordered (hblind : board.OrderBlind) (h : Reordered u u') {plan : Plan}
    {ds : List (Dispatch E)} (hds : finalPass plan u board name = some ds) :
    finalPass plan u' board name = some ds := by
  obtain ⟨bound, rs, events, hpass⟩ := finalPass_eq_some.mp hds
  obtain ⟨events', hevents', hperm, hkeys⟩ := compile_perm h hpass.compile
  have hcatalog : catalogKeys events = catalogKeys events' := catalogKeys_eq events.toArray.toVector hperm hkeys
  have hlive := live_eq_of_perm hblind h name hperm hkeys
  have hunique := (u.compile_eq_some.mp hpass.compile).1
  refine finalPass_eq_some.mpr ⟨bound, rs, events', hpass.binds, hpass.routes, hevents', ?_, ?_, hpass.once, ?_⟩
  · rw [← bindingPlanAccepted_eq hblind h hcatalog]
    exact hpass.accepted
  · intro a ha
    have hsame := congrArg (fun live : (n : Nat) × LiveApplication n m => a.Holds plan live.2) hlive
    exact hsame.mp (hpass.asserted a ha)
  · refine hpass.dispatches.imp fun r d hd => ⟨?_, ?_, hd.source⟩
    · rw [byKey_eq h hunique]
      exact hd.event
    · rw [dispatchBoundInterrupt_eq h hunique, ← hblind.queue h]
      exact hd.dispatch

/-- **The routines of both orders are the same**, whatever their boards answered, where both compile. -/
theorem finalPass_unique (h : Reordered u u') {board' : AllocatingBoard E m} {name' : Text} {plan : Plan}
    {ds ds' : List (Dispatch E)} (hds : finalPass plan u board name = some ds)
    (hds' : finalPass plan u' board' name' = some ds') : ds = ds' := by
  obtain ⟨bound, rs, events, hpass⟩ := finalPass_eq_some.mp hds
  obtain ⟨bound', rs', events', hpass'⟩ := finalPass_eq_some.mp hds'
  obtain rfl : rs = rs' := Except.ok.inj (hpass.routes.symm.trans hpass'.routes)
  have hunique := (u.compile_eq_some.mp hpass.compile).1
  -- either routine is the one of the source and of the handling that the program declares
  have hroutine : List.Forall₂ (fun r d => d.source = r.group.source ∧
      u.byKey (r.event.map literal) = some d.event ∧ u.declared d.event = some d.handling) rs ds :=
    hpass.dispatches.imp fun r d hd => ⟨hd.source, hd.event,
      u.declared_of_dispatch hpass.compile (u.find_spec hd.event).1 hd.dispatch⟩
  have hroutine' : List.Forall₂ (fun r d => d.source = r.group.source ∧
      u.byKey (r.event.map literal) = some d.event ∧ u.declared d.event = some d.handling) rs ds' := by
    refine hpass'.dispatches.imp fun r d hd => ⟨hd.source, ?_, ?_⟩
    · rw [← byKey_eq h hunique]
      exact hd.event
    · rw [← declared_eq h]
      exact u'.declared_of_dispatch hpass'.compile (u'.find_spec hd.event).1 hd.dispatch
  refine List.right_unique_forall₂' ?_ hroutine hroutine'
  rintro r ⟨source, e, handling⟩ ⟨source', e', handling'⟩ ⟨hsource, hevent, hhandling⟩
    ⟨hsource', hevent', hhandling'⟩
  obtain rfl : e = e' := Option.some.inj (hevent.symm.trans hevent')
  obtain rfl : handling = handling' := Option.some.inj (hhandling.symm.trans hhandling')
  obtain rfl : source = source' := hsource.trans hsource'.symm
  rfl

end Passes

/-- **A build does not depend on the order of the declarations.**  With the outputs of any plan the final
pass compiles to the same routines in both orders, if both compile.  On a board whose own allocation does
not look at the order, the probe pass records the same, byte for byte, or in neither order a record, and
the final pass compiles in both orders or in neither. -/
theorem build_order_independent [DecidableEq E] (h : Reordered u u') {m : Nat} (board : AllocatingBoard E m)
    (name : Text) :
    (∀ plan ds ds', finalPass plan u board name = some ds → finalPass plan u' board name = some ds' →
      ds = ds') ∧
      (board.OrderBlind → (∀ long, probePass long u board name = probePass long u' board name) ∧
        ∀ plan, finalPass plan u board name = finalPass plan u' board name) := by
  refine ⟨fun plan ds ds' => finalPass_unique h, fun hblind => ⟨fun long => ?_, fun plan => ?_⟩⟩
  · ext record
    exact ⟨probePass_of_reordered hblind h, probePass_of_reordered hblind h.symm⟩
  · ext1 ds
    exact ⟨finalPass_of_reordered hblind h, finalPass_of_reordered hblind h.symm⟩

/-- The timer's event and one that is not handled, in either order. -/
def twoEvents (first second : Bool) : TranslationUnit Bool where
  key
    | true => timerEvent
    | false => ⟨literal "timer", literal "tick", literal "spare"⟩
  context _ := .mainLoop
  delivery _ := .elide
  onInterrupt := [true]
  onEvent := []
  events := [first, second]

/-- The timer's board, with both in its inventory. -/
def twoBoard : AllocatingBoard Bool 1 where
  identity := timerBoard.identity
  queue _ := none
  problem _ demands :=
    ⟨[⟨timerEvent, false⟩, ⟨(twoEvents true false).key false, false⟩],
      (timerBoard.problem timerUnit demands).candidates⟩
  plan _ := timerBoard.plan timerUnit
  validates _ _ _ := true

theorem build_order_independent_two :
    (probePass .bits32 (twoEvents true false) twoBoard timer.application).isSome ∧
      probePass .bits32 (twoEvents true false) twoBoard timer.application =
        probePass .bits32 (twoEvents false true) twoBoard timer.application ∧
      ∃ ds, finalPass (readPlan (fun _ => "") (jsonBytes : Value Empty → _) timerPlan) (twoEvents true false)
          twoBoard timer.application = some ds ∧
        finalPass (readPlan (fun _ => "") (jsonBytes : Value Empty → _) timerPlan) (twoEvents false true)
          twoBoard timer.application = some ds := by
  have hreordered : Reordered (twoEvents true false) (twoEvents false true) :=
    ⟨rfl, rfl, rfl, .refl _, .refl _, .swap _ _ _⟩
  have hblind : twoBoard.OrderBlind := ⟨fun _ => rfl, fun _ => rfl, fun _ => rfl, fun _ => rfl⟩
  have hfinal : ∀ first, ∃ ds, finalPass (readPlan (fun _ => "") (jsonBytes : Value Empty → _) timerPlan)
      (twoEvents first !first) twoBoard timer.application = some ds := by
    intro first
    refine Option.isSome_iff_exists.mp ?_
    cases first <;> decide +kernel
  obtain ⟨ds, hds⟩ := hfinal true
  obtain ⟨ds', hds'⟩ := hfinal false
  obtain ⟨hroutines, hpasses⟩ := build_order_independent hreordered twoBoard timer.application
  obtain rfl := hroutines _ ds ds' hds hds'
  exact ⟨by decide +kernel, (hpasses hblind).1 .bits32, ds, hds, hds'⟩

/-- A board that configures the timer by which event is declared first. -/
def firstDeclaredBoard : AllocatingBoard Bool 1 :=
  let configuration (u : TranslationUnit Bool) : Text :=
    literal (if u.events.head? = some true then "normal_period" else "fast_pwm8_period")
  { twoBoard with
    problem := fun u demands =>
      ⟨(twoBoard.problem u demands).requests, (twoBoard.problem u demands).candidates.map fun c =>
        { c with configuration := configuration u }⟩
    plan := fun u _ => ⟨.singleton { timerBinding with configuration := configuration u }, 1, true, false⟩ }

-- without `OrderBlind` both orders are recorded, but not alike
example :
    (probePass .bits32 (twoEvents true false) firstDeclaredBoard timer.application).isSome ∧
      (probePass .bits32 (twoEvents false true) firstDeclaredBoard timer.application).isSome ∧
      probePass .bits32 (twoEvents true false) firstDeclaredBoard timer.application ≠
        probePass .bits32 (twoEvents false true) firstDeclaredBoard timer.application := by
  decide +kernel

end Grevir.Irqgen
