import Grevir.Interrupt.Binding
import Grevir.Irqgen.Validate

/-!
# Irqgen — Validators

The validator of the compiled side against that of the generator: of the plans an application can be
compiled with, `validate` accepts those whose decoded plan `_validate_plan` accepts.

* `validComponent_bytes`: a component is the encoding of an identifier.
* `validate_iff_valid`: what `validate` accepts is the plan that is valid in the compiled side's words.
-/

namespace Grevir.Irqgen

open Interrupt Json

/-! ### The words of the compiled side -/

theorem componentCharacter_ofNat : ∀ n < 128, componentCharacter (UInt8.ofNat n) =
    ((Char.ofNat n).isAlphanum || Char.ofNat n = '_') := by
  decide

theorem componentCharacter_ascii {b : UInt8} (h : componentCharacter b) : b.toNat < 128 := by
  simp only [componentCharacter, Bool.or_eq_true, Bool.and_eq_true, decide_eq_true_eq,
    UInt8.le_iff_toNat_le, beq_iff_eq] at h
  rcases h with ((h | h) | h) | rfl
  · exact h.2.trans_lt (by decide)
  · exact h.2.trans_lt (by decide)
  · exact h.2.trans_lt (by decide)
  · decide

theorem validComponent_ascii {t : Text} (h : validComponent t) : ∀ b ∈ t, b.toNat < 128 := by
  rw [validComponent, Bool.and_eq_true, List.all_eq_true] at h
  exact fun b hb => componentCharacter_ascii (h.2 b hb)

/-- **A component is the encoding of an identifier.** -/
theorem validComponent_bytes (s : String) : validComponent (Utf8.bytes s) = identifier s := by
  rw [Bool.eq_iff_iff]
  by_cases hs : Utf8.Ascii s
  · have hchar : ∀ c ∈ s.toList, componentCharacter (UInt8.ofNat c.toNat) =
        (c.toNat < 128 && (c.isAlphanum || c = '_')) := by
      intro c hc
      rw [componentCharacter_ofNat c.toNat (hs c hc), Char.ofNat_toNat, decide_eq_true (hs c hc),
        Bool.true_and]
    have hempty : (s.toList.map fun c => UInt8.ofNat c.toNat).isEmpty = s.isEmpty := by
      rw [Bool.eq_iff_iff, List.isEmpty_iff, List.map_eq_nil_iff, String.isEmpty_iff,
        String.toList_eq_nil_iff]
    rw [Utf8.bytes_ascii hs, validComponent, identifier, hempty, Bool.and_eq_true, Bool.and_eq_true,
      List.all_map, List.all_eq_true, List.all_eq_true]
    exact and_congr_right fun _ => forall₂_congr fun c hc => by rw [Function.comp_apply, hchar c hc]
  · refine iff_of_false (fun h => hs ?_) fun h => hs (identifier_ascii h)
    obtain ⟨hascii, hbytes⟩ := Utf8.bytes_ofAscii (validComponent_ascii h)
    rwa [← Utf8.bytes_injective hbytes]

/-- The words of the compiled side. -/
abbrev compiledVocabulary : Vocabulary Text where
  identifier := validComponent
  backends := BACKENDS.map literal
  routes := handlerRoutes.map fun r => (literal r.1, literal r.2.1, literal r.2.2)
  mainLoop := literal "main_loop"
  empty := []

theorem spells_bytes : Spells vocabulary compiledVocabulary Utf8.bytes where
  injective := Utf8.bytes_injective
  identifier := validComponent_bytes
  backends := rfl
  routes := rfl
  mainLoop := rfl
  empty := rfl
  lt_iff _ _ hs ht := Utf8.bytes_lt_iff (identifier_ascii hs) (identifier_ascii ht)

/-! ### The compiled side -/

/-- A demand as `HandlerChoice` makes it has one of the routes. -/
theorem handlerChoice_route {c : HandlerChoice} (h : c.present) (event : EventIdentity Text) :
    let d := c.demand event
    (d.handler, d.context, d.delivery) ∈ compiledVocabulary.routes := by
  have hroutes : ∀ r ∈ handlerRoutes,
      (literal r.1, literal r.2.1, literal r.2.2) ∈ compiledVocabulary.routes :=
    fun r hr => List.mem_map_of_mem hr
  simp only [HandlerChoice.demand, HandlerChoice.handlerText, HandlerChoice.contextText,
    HandlerChoice.deliveryText]
  cases hraw : c.raw with
  | true => exact hroutes ("raw", "isr", "direct") (by decide)
  | false =>
      have hevent : c.event = true := by simpa [HandlerChoice.present, hraw] using h
      rcases c.routed hevent with ⟨hc, hd⟩ | ⟨hc, hd | hd⟩
      · simp only [HandlerChoice.isDirect, hc, hd]
        exact hroutes ("event", "isr", "direct") (by decide)
      · simp only [HandlerChoice.isDirect, hc, hd]
        exact hroutes ("event", "main_loop", "elide") (by decide)
      · simp only [HandlerChoice.isDirect, hc, hd]
        exact hroutes ("event", "main_loop", "stream") (by decide)

theorem deferredContextPlan_valid {n : Nat} {demands : DemandSummary n} {board : Option QueueBoard}
    {c : DeferredContext} (h : deferredContextPlan demands board = some c) :
    compiledVocabulary.ValidContext demands.demands c.capacity c.policy := by
  have hbounds := deferredContextPlan_bounds h
  unfold Vocabulary.ValidContext
  cases hselected : demands.demands.any fun d => d.context = literal "main_loop" with
  | false =>
      rw [hselected, if_neg Bool.false_ne_true] at hbounds
      rw [hbounds, if_neg (by simpa [Vocabulary.deferred] using hselected)]
      exact ⟨rfl, rfl⟩
  | true =>
      rw [hselected, if_pos rfl] at hbounds
      rw [if_pos (by simpa [Vocabulary.deferred] using hselected)]
      exact hbounds

/-- An application as it compiles: the catalog passes its check, the demands are drawn from it in
order with the handlers chosen for them, the plan is an allocation within its capacity, and the
deferred context is the one computed for the demands. -/
structure Compiles {n m : Nat} (catalog : List (EventIdentity Text)) (board : Option QueueBoard)
    (a : CompiledApplication n m) : Prop where
  checked : CatalogData.valid catalog
  sorted : (a.demands.demands.map (·.event)).Pairwise (· < ·)
  drawn : ∀ d ∈ a.demands.demands, d.event ∈ catalog
  handlers : ∀ d ∈ a.demands.demands, ∃ c : HandlerChoice, c.present ∧ d = c.demand d.event
  allocationOk : a.plan.allocationOk = true
  searchExhausted : a.plan.searchExhausted = false
  room : a.plan.count ≤ m
  dispatchOrder : ∀ b ∈ a.plan.held, b.dispatchOrder ≤ 65535
  backend : a.backend ∈ BACKENDS.map literal
  header : ∀ t ∈ a.content.header, validComponent t
  deferred : deferredContextPlan a.demands board = some a.deferred

/-- **Of an application as it compiles, `validate` accepts the plan that is valid in the words of the
compiled side.** -/
theorem validate_iff_valid {n m : Nat} {catalog : List (EventIdentity Text)}
    {board : Option QueueBoard} {a : CompiledApplication n m} (h : Compiles catalog board a) :
    validate catalog a.demands a.plan = .none ↔ compiledVocabulary.Valid a.content := by
  have hcatalog : ∀ e ∈ catalog, ∀ t ∈ e.texts, validComponent t := by
    intro e he
    have hvalid := h.checked
    simp only [CatalogData.valid, List.all_eq_true, Bool.and_eq_true] at hvalid
    obtain ⟨⟨hi, hr⟩, hk⟩ := hvalid e he
    simp only [EventIdentity.texts, List.forall_mem_cons]
    exact ⟨hi, hr, hk, by simp⟩
  have hdrawn : ∀ e ∈ a.demands.demands.map (·.event), e ∈ catalog :=
    List.forall_mem_map.mpr h.drawn
  have hlength : a.plan.held.length = a.plan.count := by
    simp [SelectedPlan.held, Nat.min_eq_left h.room]
  rw [validate_eq_none]
  constructor
  · rintro ⟨-, -, hbindings, hsorted, hex, hdemands⟩
    refine ⟨h.backend, h.header, fun d hd => ⟨hcatalog _ (h.drawn d hd), ?_⟩, h.sorted,
      deferredContextPlan_valid h.deferred, fun b hb => ⟨hcatalog _ (hbindings b hb).known,
        (hbindings b hb).texts, h.dispatchOrder b hb, (hbindings b hb).sharedSource⟩, hex, ?_⟩
    · obtain ⟨c, hc, heq⟩ := h.handlers d hd
      rw [heq]
      exact handlerChoice_route hc d.event
    · refine hsorted.eq_of_mem_iff h.sorted fun e => ⟨?_, ?_⟩
      · exact fun he => List.forall_mem_map.mpr (fun b hb => (hbindings b hb).demanded) e he
      · exact fun he => List.forall_mem_map.mpr hdemands e he
  · intro hvalid
    have hevents : a.plan.held.map (·.event) = a.demands.demands.map (·.event) := hvalid.events
    refine ⟨⟨h.searchExhausted, h.allocationOk⟩, ⟨?_, h.room⟩, fun b hb => ?_, ?_, hvalid.exclusive,
      ?_⟩
    · have hcounts := congrArg List.length hevents
      rwa [List.length_map, List.length_map, hlength, a.demands.length_demands] at hcounts
    · have hb' := hvalid.bindings b hb
      have hdemanded : b.event ∈ a.demands.demands.map (·.event) :=
        hevents ▸ List.mem_map_of_mem hb
      exact ⟨hdrawn _ hdemanded, hdemanded, hb'.sharedSource, hb'.texts⟩
    · rw [hevents]
      exact h.sorted
    · intro d hd
      rw [hevents]
      exact List.mem_map_of_mem hd

/-! ### The two validators -/

theorem exists_bytes_eq {t : Text} (h : validComponent t) : ∃ s, Utf8.bytes s = t :=
  ⟨_, (Utf8.bytes_ofAscii (validComponent_ascii h)).2⟩

/-- Every text of a valid plan of the compiled side is the encoding of a string. -/
theorem exists_map_bytes {p : PlanContent Text} (h : compiledVocabulary.Valid p) :
    ∃ q : PlanContent String, q.map Utf8.bytes = p := by
  refine PlanContent.exists_map_eq fun t ht => ?_
  simp only [PlanContent.texts, List.mem_append, List.mem_flatMap, List.mem_singleton] at ht
  rcases ht with ((hheader | rfl) | ⟨d, hd, htd⟩) | ⟨b, hb, htb⟩
  · exact exists_bytes_eq (h.header t hheader)
  · have hcontext := h.context
    unfold Vocabulary.ValidContext at hcontext
    split at hcontext
    · exact exists_bytes_eq hcontext.2
    · exact ⟨"", hcontext.2.symm⟩
  · rcases List.mem_append.mp htd with he | hroute
    · exact exists_bytes_eq ((h.demands d hd).event t he)
    · obtain ⟨r, -, heq⟩ := List.mem_map.mp (h.demands d hd).route
      simp only [Prod.mk.injEq] at heq
      obtain ⟨hh, hc, hdel⟩ := heq
      simp only [List.mem_cons, List.not_mem_nil, or_false] at hroute
      rcases hroute with rfl | rfl | rfl
      · exact ⟨_, hh⟩
      · exact ⟨_, hc⟩
      · exact ⟨_, hdel⟩
  · rcases htb with he | htexts
    · exact exists_bytes_eq ((h.bindings b hb).event t he)
    · exact exists_bytes_eq ((h.bindings b hb).texts t htexts)

/-- Of distinct sources, every group has one event. -/
theorem length_events_eq_one {bindings : List (BindingRecord String)}
    (h : (bindings.map (·.source)).Nodup) : ∀ g ∈ sourceGroups bindings, g.events.length = 1 := by
  rw [sourceGroups_eq h]
  intro g hg
  obtain ⟨g', hg', rfl⟩ := List.mem_map.mp hg
  obtain ⟨key, -, hlookup⟩ := List.mem_filterMap.mp hg'
  obtain ⟨b, -, heq⟩ := List.mem_map.mp (mem_of_lookup hlookup)
  cases heq
  simp [Group.sortEvents, Group.append, Group.new]

variable {F : Type} [PyFloat F] (sha256 : List UInt8 → String) (json : Value F → List UInt8)

/-- **The compiled side accepts a plan exactly when the generator accepts the plan decoded from it.** -/
theorem validators_agree {n m : Nat} {catalog : List (EventIdentity Text)}
    {board : Option QueueBoard} {a : CompiledApplication n m} (h : Compiles catalog board a) :
    (validate catalog a.demands a.plan = .none ↔
      ∃ p : PlanContent String, p.map Utf8.bytes = a.content ∧
        validatePlan sha256 json (planValue sha256 json p) = .ok (planValue sha256 json p)) ∧
    (validate catalog a.demands a.plan = .none →
      a.plan.held.map (·.event) = a.demands.demands.map (·.event) ∧
        (a.plan.held.map (·.source)).Nodup ∧ (a.plan.held.map (·.entry)).Nodup) ∧
    ∀ p : PlanContent String,
      validatePlan sha256 json (planValue sha256 json p) = .ok (planValue sha256 json p) →
      p.bindings.map (·.event) = p.demands.map (·.event) ∧ (p.bindings.map (·.source)).Nodup ∧
        (p.bindings.map (·.entry)).Nodup ∧ ∀ g ∈ sourceGroups p.bindings, g.events.length = 1 := by
  refine ⟨?_, fun hnone => ?_, fun p hp => ?_⟩
  · rw [validate_iff_valid h]
    constructor
    · intro hvalid
      obtain ⟨p, hp⟩ := exists_map_bytes hvalid
      rw [← hp, valid_map_iff spells_bytes] at hvalid
      exact ⟨p, hp, (validatePlan_planValue sha256 json p).mpr hvalid⟩
    · rintro ⟨p, hp, haccept⟩
      rw [← hp, valid_map_iff spells_bytes]
      exact (validatePlan_planValue sha256 json p).mp haccept
  · have hvalid := (validate_iff_valid h).mp hnone
    exact ⟨hvalid.events, hvalid.exclusive.sources, hvalid.exclusive.entries⟩
  · have hvalid := (validatePlan_planValue sha256 json p).mp hp
    exact ⟨hvalid.events, hvalid.exclusive.sources, hvalid.exclusive.entries,
      length_events_eq_one hvalid.exclusive.sources⟩

/-- One timer whose overflow is handled in the interrupt. -/
def timerEvent : EventIdentity Text := ⟨literal "timer", literal "tick", literal "period"⟩

def timerBinding : BindingRecord Text where
  event := timerEvent
  owner := literal "timer"
  configuration := literal "normal_period"
  source := literal "timer1_ovf"
  selector := literal "overflow"
  entry := literal "timer1_ovf_vect"
  snapshotPolicy := literal "timer1_status"
  acknowledgePolicy := literal "timer1_auto_ack"
  dispatchOrder := 0
  sharedSource := false

def timer : CompiledApplication 1 1 where
  backend := literal "avr"
  target := literal "atmega328p"
  board := literal "uno"
  compiler := literal "gcc"
  application := literal "blink"
  demands := ⟨.singleton timerEvent, 1, .singleton (literal "raw"), .singleton (literal "isr"),
    .singleton (literal "direct"), Nat.le_refl 1⟩
  plan := ⟨.singleton timerBinding, 1, true, false⟩
  deferred := ⟨0, []⟩

theorem timer_compiles : Compiles [timerEvent] none timer where
  checked := by decide
  sorted := by decide
  drawn := by decide
  handlers := by
    intro d hd
    have heq : d = ⟨timerEvent, literal "raw", literal "isr", literal "direct"⟩ :=
      List.mem_singleton.mp hd
    exact ⟨⟨true, false, .other, .other, by decide, by decide⟩, rfl, by rw [heq]; rfl⟩
  allocationOk := rfl
  searchExhausted := rfl
  room := le_refl 1
  dispatchOrder := by decide
  backend := by decide
  header := by decide
  deferred := by decide

theorem validators_agree_timer :
    validate [timerEvent] timer.demands timer.plan = .none ∧
      ∃ p : PlanContent String, p.map Utf8.bytes = timer.content ∧
        validatePlan (fun _ => "") (fun _ : Value Empty => []) (planValue (fun _ => "") (fun _ => []) p) =
          .ok (planValue (fun _ => "") (fun _ => []) p) := by
  have hnone : validate [timerEvent] timer.demands timer.plan = .none := by decide
  exact ⟨hnone, ((validators_agree (fun _ => "") (fun _ => []) timer_compiles).1).mp hnone⟩

end Grevir.Irqgen
