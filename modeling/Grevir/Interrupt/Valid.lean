import Grevir.Interrupt.Plan

/-!
# Interrupt — Valid

What a valid plan is, in the words of either side: a vocabulary says what an identifier is and spells
the backends, the routes of a handler and the main loop.  The bindings of a valid plan are its demands'
in order, one for each source and each entry.

* `valid_map_iff`: validity does not depend on the side, when the texts of one are those of the other.
* `PlanContent.exists_map_eq`: content of the one side, in texts of the other, is content of the other.
-/

namespace Grevir.Interrupt

/-- **What one side calls an identifier, and the words it knows.** -/
structure Vocabulary (T : Type) where
  identifier : T → Bool
  backends : List T
  routes : List (T × T × T)
  mainLoop : T
  empty : T

variable {T U : Type}

/-- All the texts of some content. -/
def PlanContent.texts (p : PlanContent T) : List T :=
  p.header ++ [p.policy] ++ p.demands.flatMap Demand.texts
    ++ p.bindings.flatMap fun b => b.event.texts ++ b.texts

section Texts

variable {f : T → U}

@[simp] theorem EventIdentity.texts_map (e : EventIdentity T) :
    (e.map f).texts = e.texts.map f := rfl

@[simp] theorem Demand.texts_map (d : Demand T) : (d.map f).texts = d.texts.map f := rfl

@[simp] theorem BindingRecord.texts_map (b : BindingRecord T) :
    (b.map f).texts = b.texts.map f := rfl

@[simp] theorem PlanContent.header_map (p : PlanContent T) :
    (p.map f).header = p.header.map f := rfl

theorem EventIdentity.map_eq_self {f : T → T} {e : EventIdentity T} (h : ∀ t ∈ e.texts, f t = t) :
    e.map f = e := by
  simp only [EventIdentity.texts, List.forall_mem_cons] at h
  rw [EventIdentity.map, h.1, h.2.1, h.2.2.1]

theorem Demand.map_eq_self {f : T → T} {d : Demand T} (h : ∀ t ∈ d.texts, f t = t) :
    d.map f = d := by
  rw [Demand.texts, List.forall_mem_append] at h
  have hrest := h.2
  simp only [List.forall_mem_cons] at hrest
  rw [Demand.map, EventIdentity.map_eq_self h.1, hrest.1, hrest.2.1, hrest.2.2.1]

theorem BindingRecord.map_eq_self {f : T → T} {b : BindingRecord T}
    (h : ∀ t ∈ b.event.texts ++ b.texts, f t = t) : b.map f = b := by
  rw [List.forall_mem_append] at h
  have hrest := h.2
  simp only [BindingRecord.texts, List.forall_mem_cons] at hrest
  obtain ⟨h₁, h₂, h₃, h₄, h₅, h₆, h₇, -⟩ := hrest
  rw [BindingRecord.map, EventIdentity.map_eq_self h.1, h₁, h₂, h₃, h₄, h₅, h₆, h₇]

theorem PlanContent.map_eq_self {f : T → T} {p : PlanContent T} (h : ∀ t ∈ p.texts, f t = t) :
    p.map f = p := by
  simp only [PlanContent.texts, List.forall_mem_append, List.forall_mem_flatMap,
    PlanContent.header, List.forall_mem_cons] at h
  obtain ⟨⟨⟨⟨h₁, h₂, h₃, h₄, h₅, -⟩, h₆, -⟩, hds⟩, hbs⟩ := h
  have hdemands : p.demands.map (Demand.map f) = p.demands :=
    (List.map_congr_left fun d hd => Demand.map_eq_self (hds d hd)).trans (List.map_id _)
  have hbindings : p.bindings.map (BindingRecord.map f) = p.bindings :=
    (List.map_congr_left fun b hb => BindingRecord.map_eq_self
      (List.forall_mem_append.mpr (hbs b hb))).trans (List.map_id _)
  rw [PlanContent.map, h₁, h₂, h₃, h₄, h₅, h₆, hdemands, hbindings]

theorem PlanContent.map_map {W : Type} (g : W → T) (p : PlanContent W) :
    (p.map g).map f = p.map (f ∘ g) := by
  simp only [PlanContent.map, List.map_map]
  rfl

/-- Content of the one side whose texts are all those of the other. -/
theorem PlanContent.exists_map_eq {p : PlanContent U} (h : ∀ t ∈ p.texts, ∃ s, f s = t) :
    ∃ q : PlanContent T, q.map f = p := by
  obtain ⟨s, -⟩ := h p.backend (by simp [PlanContent.texts, PlanContent.header])
  have : Nonempty T := ⟨s⟩
  refine ⟨p.map (Function.invFun f), ?_⟩
  rw [PlanContent.map_map]
  exact PlanContent.map_eq_self fun t ht => Function.invFun_eq (h t ht)

end Texts

namespace Vocabulary

variable [LinearOrder T] (V : Vocabulary T)

structure ValidDemand (d : Demand T) : Prop where
  event : ∀ t ∈ d.event.texts, V.identifier t
  route : (d.handler, d.context, d.delivery) ∈ V.routes

structure ValidBinding (b : BindingRecord T) : Prop where
  event : ∀ t ∈ b.event.texts, V.identifier t
  texts : ∀ t ∈ b.texts, V.identifier t
  dispatchOrder : b.dispatchOrder ≤ 65535
  sharedSource : b.sharedSource = false

/-- Some demand is delivered in the main loop. -/
def deferred (demands : List (Demand T)) : Bool := demands.any fun d => d.context = V.mainLoop

def ValidContext (demands : List (Demand T)) (capacity : Nat) (policy : T) : Prop :=
  if V.deferred demands then (1 ≤ capacity ∧ capacity ≤ 2048) ∧ V.identifier policy
  else capacity = 0 ∧ policy = V.empty

/-- **A valid plan.** -/
structure Valid (p : PlanContent T) : Prop where
  backend : p.backend ∈ V.backends
  header : ∀ t ∈ p.header, V.identifier t
  demands : ∀ d ∈ p.demands, V.ValidDemand d
  sorted : (p.demands.map (·.event)).Pairwise (· < ·)
  context : V.ValidContext p.demands p.capacity p.policy
  bindings : ∀ b ∈ p.bindings, V.ValidBinding b
  exclusive : Exclusive p.bindings
  events : p.bindings.map (·.event) = p.demands.map (·.event)

end Vocabulary

/-! ### From one side to the other -/

section Map

variable [LinearOrder T] [LinearOrder U]

/-- The words of one side are those of the other under `f`. -/
structure Spells (V : Vocabulary T) (W : Vocabulary U) (f : T → U) : Prop where
  injective : Function.Injective f
  identifier : ∀ t, W.identifier (f t) = V.identifier t
  backends : W.backends = V.backends.map f
  routes : W.routes = V.routes.map fun r => (f r.1, f r.2.1, f r.2.2)
  mainLoop : W.mainLoop = f V.mainLoop
  empty : W.empty = f V.empty
  lt_iff : ∀ s t, V.identifier s → V.identifier t → (f s < f t ↔ s < t)

variable {V : Vocabulary T} {W : Vocabulary U} {f : T → U}

theorem Spells.event_lt_iff (h : Spells V W f) {e e' : EventIdentity T}
    (he : ∀ t ∈ e.texts, V.identifier t) (he' : ∀ t ∈ e'.texts, V.identifier t) :
    e.map f < e'.map f ↔ e < e' := by
  simp only [EventIdentity.texts, List.forall_mem_cons] at he he'
  rw [EventIdentity.lt_iff, EventIdentity.lt_iff]
  simp only [EventIdentity.map, h.injective.eq_iff, h.lt_iff _ _ he.1 he'.1,
    h.lt_iff _ _ he.2.1 he'.2.1, h.lt_iff _ _ he.2.2.1 he'.2.2.1]

theorem Spells.identifiers_iff (h : Spells V W f) {ts : List T} :
    (∀ t ∈ ts.map f, W.identifier t) ↔ ∀ t ∈ ts, V.identifier t := by
  simp only [List.forall_mem_map, h.identifier]

theorem Spells.validDemand_iff (h : Spells V W f) {d : Demand T} :
    W.ValidDemand (d.map f) ↔ V.ValidDemand d := by
  have hroute : (f d.handler, f d.context, f d.delivery) ∈ W.routes ↔
      (d.handler, d.context, d.delivery) ∈ V.routes := by
    rw [h.routes]
    refine ⟨fun hmem => ?_, List.mem_map_of_mem⟩
    obtain ⟨r, hr, heq⟩ := List.mem_map.mp hmem
    simp only [Prod.mk.injEq, h.injective.eq_iff] at heq
    obtain ⟨hh, hc, hd⟩ := heq
    rwa [← hh, ← hc, ← hd]
  exact ⟨fun hd => ⟨h.identifiers_iff.mp hd.event, hroute.mp hd.route⟩,
    fun hd => ⟨h.identifiers_iff.mpr hd.event, hroute.mpr hd.route⟩⟩

theorem Spells.validBinding_iff (h : Spells V W f) {b : BindingRecord T} :
    W.ValidBinding (b.map f) ↔ V.ValidBinding b := by
  have htexts : (∀ t ∈ (b.map f).texts, W.identifier t) ↔ ∀ t ∈ b.texts, V.identifier t := by
    rw [BindingRecord.texts_map, h.identifiers_iff]
  exact ⟨fun hb => ⟨h.identifiers_iff.mp hb.event, htexts.mp hb.texts, hb.dispatchOrder,
      hb.sharedSource⟩,
    fun hb => ⟨h.identifiers_iff.mpr hb.event, htexts.mpr hb.texts, hb.dispatchOrder,
      hb.sharedSource⟩⟩

theorem Spells.deferred_map (h : Spells V W f) (ds : List (Demand T)) :
    W.deferred (ds.map (Demand.map f)) = V.deferred ds := by
  simp only [Vocabulary.deferred, List.any_map, Function.comp_def, Demand.map, h.mainLoop,
    h.injective.eq_iff]

theorem Spells.validContext_iff (h : Spells V W f) {ds : List (Demand T)} {capacity : Nat}
    {policy : T} :
    W.ValidContext (ds.map (Demand.map f)) capacity (f policy) ↔
      V.ValidContext ds capacity policy := by
  simp only [Vocabulary.ValidContext, h.deferred_map, h.identifier, h.empty, h.injective.eq_iff]

/-- Valid demands are as sorted on the one side as on the other. -/
theorem Spells.sorted_iff (h : Spells V W f) {ds : List (Demand T)}
    (hds : ∀ d ∈ ds, V.ValidDemand d) :
    ((ds.map (Demand.map f)).map (·.event)).Pairwise (· < ·) ↔
      (ds.map (·.event)).Pairwise (· < ·) := by
  simp only [List.pairwise_map]
  exact List.Pairwise.iff_of_mem fun hd hd' => h.event_lt_iff (hds _ hd).event (hds _ hd').event

omit [LinearOrder T] [LinearOrder U] in
theorem EventIdentity.map_injective (hf : Function.Injective f) :
    Function.Injective (EventIdentity.map f) := by
  rintro ⟨i, r, k⟩ ⟨i', r', k'⟩ h
  simpa [EventIdentity.map, hf.eq_iff] using h

theorem Spells.events_iff (h : Spells V W f) {ds : List (Demand T)}
    {bs : List (BindingRecord T)} :
    (bs.map (BindingRecord.map f)).map (·.event) = (ds.map (Demand.map f)).map (·.event) ↔
      bs.map (·.event) = ds.map (·.event) := by
  have hbs : (bs.map (BindingRecord.map f)).map (·.event) =
      (bs.map (·.event)).map (EventIdentity.map f) := by simp [BindingRecord.map]
  have hds : (ds.map (Demand.map f)).map (·.event) =
      (ds.map (·.event)).map (EventIdentity.map f) := by simp [Demand.map]
  rw [hbs, hds, (EventIdentity.map_injective h.injective).list_map.eq_iff]

/-- **A plan is valid on the one side when it is on the other.** -/
theorem valid_map_iff (h : Spells V W f) {p : PlanContent T} : W.Valid (p.map f) ↔ V.Valid p := by
  have hbackend : f p.backend ∈ W.backends ↔ p.backend ∈ V.backends := by
    rw [h.backends, List.mem_map_of_injective h.injective]
  have hheader : (∀ t ∈ (p.map f).header, W.identifier t) ↔ ∀ t ∈ p.header, V.identifier t := by
    rw [PlanContent.header_map, h.identifiers_iff]
  have hdemands : (∀ d ∈ p.demands.map (Demand.map f), W.ValidDemand d) ↔
      ∀ d ∈ p.demands, V.ValidDemand d := by
    simp only [List.forall_mem_map, h.validDemand_iff]
  have hbindings : (∀ b ∈ p.bindings.map (BindingRecord.map f), W.ValidBinding b) ↔
      ∀ b ∈ p.bindings, V.ValidBinding b := by
    simp only [List.forall_mem_map, h.validBinding_iff]
  constructor
  · intro hv
    have hds := hdemands.mp hv.demands
    exact ⟨hbackend.mp hv.backend, hheader.mp hv.header, hds, (h.sorted_iff hds).mp hv.sorted,
      h.validContext_iff.mp hv.context, hbindings.mp hv.bindings,
      (exclusive_map_iff h.injective).mp hv.exclusive, h.events_iff.mp hv.events⟩
  · intro hv
    exact ⟨hbackend.mpr hv.backend, hheader.mpr hv.header, hdemands.mpr hv.demands,
      (h.sorted_iff hv.demands).mpr hv.sorted, h.validContext_iff.mpr hv.context,
      hbindings.mpr hv.bindings, (exclusive_map_iff h.injective).mpr hv.exclusive,
      h.events_iff.mpr hv.events⟩

end Map

end Grevir.Interrupt
