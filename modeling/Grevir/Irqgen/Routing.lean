import Grevir.Interrupt.Handler
import Grevir.Irqgen.Guards
import Grevir.Irqgen.Outputs

/-!
# Irqgen — Routing

What the header of a valid plan binds and its source routes.

* `BoundEvent.boundKey`: what is bound, as a program reads it.
* `boundEvents_readPlan`: each binding's event is bound with its own demand.
* `routines_readPlan`: each binding's source has one routine, for the binding's event.
-/

namespace Grevir.Irqgen

open Interrupt Json

/-- What the lines of a bound event declare. -/
def BoundEvent.boundKey (b : BoundEvent) : BoundEventKey :=
  ⟨b.event.map literal, b.number, viewBytes b.demand.handler, viewBytes b.demand.context,
    viewBytes b.demand.delivery⟩

/-- A source defines nothing twice: not the guard of a source, and with `ISR` not the vector. -/
def definedOnce (backend : String) (rs : List Routine) : Bool :=
  (rs.map fun r => guardName backend r.group.source).Nodup && (backend ≠ "avr" || rs.length ≤ 1)

/-! ### Of a valid plan -/

theorem demandByKey_eq {demands : List (Demand String)} (h : (demands.map (·.event)).Nodup)
    {d : Demand String} (hd : d ∈ demands) : demandByKey demands d.event = .ok d := by
  cases hfind : demands.reverse.find? fun demand => demand.event = d.event with
  | none =>
      exact absurd (decide_eq_true rfl) (List.find?_eq_none.mp hfind d (List.mem_reverse.mpr hd))
  | some d' =>
      have hd' : d' ∈ demands := List.mem_reverse.mp (List.mem_of_find?_eq_some hfind)
      have hevent : d'.event = d.event := by simpa using List.find?_some hfind
      obtain rfl := List.inj_on_of_nodup_map h hd' hd hevent
      rw [demandByKey, hfind]
      rfl

/-- The groups of exclusive bindings are one of each binding. -/
theorem sourceGroups_perm {bindings : List (BindingRecord String)}
    (h : (bindings.map (·.source)).Nodup) :
    (sourceGroups bindings).Perm (bindings.map fun b => (Group.new b).append b) := by
  have hgroups : (Scan.of bindings).groups =
      bindings.map fun b => (b.source, (Group.new b).append b) := rfl
  have hkeys : (Scan.of bindings).groups.map Prod.fst = bindings.map (·.source) := by
    rw [hgroups, List.map_map]
    rfl
  have hlookup : ((Scan.of bindings).groups.map Prod.fst).filterMap
      (fun key => (Scan.of bindings).groups.lookup key) = (Scan.of bindings).groups.map Prod.snd := by
    rw [List.filterMap_map]
    have hsome : ∀ item ∈ (Scan.of bindings).groups,
        ((fun key => (Scan.of bindings).groups.lookup key) ∘ Prod.fst) item =
          (some ∘ Prod.snd) item := by
      intro item hitem
      exact (lookup_eq_some_iff (hkeys ▸ h)).mpr hitem
    rw [List.filterMap_congr hsome, List.filterMap_eq_map]
  rw [sourceGroups_eq h, canonicalGroups]
  refine ((List.Perm.filterMap _ (List.mergeSort_perm _ _)).map Group.sortEvents).trans ?_
  rw [hlookup, hgroups, List.map_map, List.map_map]
  refine List.Perm.of_eq (List.map_congr_left fun b _ => ?_)
  simp [Group.sortEvents, Group.append, Group.new]

section ReadPlan

variable {F : Type} (sha256 : List UInt8 → String) (json : Value F → List UInt8)
  {p : PlanContent String}

/-- **Each binding's event is bound with its own demand.** -/
theorem boundEvents_readPlan (h : Valid p) :
    boundEvents (readPlan sha256 json p) =
      .ok (p.demands.mapIdx fun i demand => ⟨i + 1, demand.event, demand⟩) := by
  have hlength : p.bindings.length = p.demands.length := by
    simpa using congrArg List.length h.events
  refine mapM_eq_ok.mpr (List.forall₂_iff_get.mpr ⟨by simpa [readPlan] using hlength, ?_⟩)
  intro i h₁ h₂
  have hi : i < p.demands.length := by simpa using h₂
  have hi' : i < p.bindings.length := hlength ▸ hi
  have hevent : p.bindings[i].event = p.demands[i].event := by
    have hget := congrArg (fun l => l[i]?) h.events
    simpa [hi, hi'] using hget
  have hdemand : demandByKey p.demands p.demands[i].event = .ok p.demands[i] :=
    demandByKey_eq (h.sorted.imp fun hlt => hlt.ne) (List.getElem_mem hi)
  simp only [readPlan, List.get_eq_getElem, List.getElem_mapIdx, hevent, hdemand]
  rfl

/-- **Each binding's source has one routine, for the binding's event.** -/
theorem routines_readPlan (h : Valid p) :
    ∃ rs, routines (readPlan sha256 json p) = .ok rs ∧
      (rs.map fun r => (r.group.source, r.event)).Perm (p.bindings.map fun b => (b.source, b.event)) := by
  have hgroups : (readPlan sha256 json p).sourceGroups.Perm
      (p.bindings.map fun b => ((Group.new b).append b).sourceGroup) := by
    have hperm := (sourceGroups_perm h.exclusive.sources).map Group.sourceGroup
    rwa [List.map_map] at hperm
  obtain ⟨rs, hrs⟩ : ∃ rs, routines (readPlan sha256 json p) = .ok rs := by
    refine exists_mapM fun item hitem => ?_
    obtain ⟨i, hi, rfl⟩ := List.mem_mapIdx.mp hitem
    obtain ⟨b, -, hgroup⟩ := List.mem_map.mp (hgroups.mem_iff.mp (List.getElem_mem hi))
    exact ⟨⟨i, _, b.event⟩, by simp only [← hgroup]; rfl⟩
  refine ⟨rs, hrs, (List.map_perm_map_iff (f := fun x => (x.1, some x.2)) ?_).mp ?_⟩
  · rintro ⟨s, e⟩ ⟨s', e'⟩ heq
    simpa using heq
  have hhead : rs.map (fun r => (r.group.source, some r.event)) =
      (rs.map fun r => (r.index, r.group)).map fun item => (item.2.source, item.2.events.head?) := by
    rw [List.map_map]
    refine List.map_congr_left fun r hr => ?_
    rw [Function.comp_apply, routines_head hrs r hr]
  have hsources : (rs.map fun r => (r.index, r.group)).map
      (fun item => (item.2.source, item.2.events.head?)) =
      (readPlan sha256 json p).sourceGroups.map fun g => (g.source, g.events.head?) := by
    rw [routines_groups hrs]
    exact List.ext_getElem (by simp) fun i h₁ h₂ => by simp
  rw [List.map_map, List.map_map]
  refine (List.Perm.of_eq (hhead.trans hsources)).trans ((hgroups.map _).trans ?_)
  rw [List.map_map]
  exact .refl _

end ReadPlan

end Grevir.Irqgen
