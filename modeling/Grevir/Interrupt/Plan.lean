import Grevir.Support.Utf8
import Mathlib.Data.Prod.Lex
import Mathlib.Data.List.Nodup

/-!
# Interrupt — Plan

What an interrupt plan says, in the texts of either side: byte strings where the application is
compiled, character strings where the generator reads.  Events are ordered by instance, then request,
then kind.
-/

namespace Grevir.Interrupt

/-- The texts of the compiled side. -/
abbrev Text := List UInt8

structure EventIdentity (T : Type) where
  instance' : T
  request : T
  kind : T
  deriving DecidableEq

/-- A demanded event, with the handler, context and delivery chosen for it. -/
structure Demand (T : Type) where
  event : EventIdentity T
  handler : T
  context : T
  delivery : T
  deriving DecidableEq

structure BindingRecord (T : Type) where
  event : EventIdentity T
  owner : T
  configuration : T
  source : T
  selector : T
  entry : T
  snapshotPolicy : T
  acknowledgePolicy : T
  dispatchOrder : Nat
  sharedSource : Bool
  deriving DecidableEq

/-- All a probe record carries. -/
structure PlanContent (T : Type) where
  backend : T
  target : T
  board : T
  compiler : T
  application : T
  capacity : Nat
  policy : T
  demands : List (Demand T)
  bindings : List (BindingRecord T)
  deriving DecidableEq

variable {T U : Type}

namespace EventIdentity

/-- The members, in the order they are compared in. -/
def key (e : EventIdentity T) : T ×ₗ T ×ₗ T := toLex (e.instance', toLex (e.request, e.kind))

theorem key_injective : Function.Injective (key : EventIdentity T → _) := by
  rintro ⟨i, r, k⟩ ⟨i', r', k'⟩ h
  simpa [key] using h

instance [LinearOrder T] : LinearOrder (EventIdentity T) :=
  LinearOrder.lift' key key_injective

theorem lt_iff [LinearOrder T] {e e' : EventIdentity T} :
    e < e' ↔ e.instance' < e'.instance' ∨ e.instance' = e'.instance' ∧
      (e.request < e'.request ∨ e.request = e'.request ∧ e.kind < e'.kind) := by
  show key e < key e' ↔ _
  simp only [key, Prod.Lex.toLex_lt_toLex]

/-- The event's three components. -/
def texts (e : EventIdentity T) : List T := [e.instance', e.request, e.kind]

def map (f : T → U) (e : EventIdentity T) : EventIdentity U :=
  ⟨f e.instance', f e.request, f e.kind⟩

end EventIdentity

/-- The event's components, then handler, context and delivery. -/
def Demand.texts (d : Demand T) : List T := d.event.texts ++ [d.handler, d.context, d.delivery]

def Demand.map (f : T → U) (d : Demand T) : Demand U :=
  ⟨d.event.map f, f d.handler, f d.context, f d.delivery⟩

/-- The seven keys of a binding, in the record's order. -/
def BindingRecord.texts (b : BindingRecord T) : List T :=
  [b.owner, b.configuration, b.source, b.selector, b.entry, b.snapshotPolicy, b.acknowledgePolicy]

def BindingRecord.map (f : T → U) (b : BindingRecord T) : BindingRecord U :=
  ⟨b.event.map f, f b.owner, f b.configuration, f b.source, f b.selector, f b.entry,
    f b.snapshotPolicy, f b.acknowledgePolicy, b.dispatchOrder, b.sharedSource⟩

/-- The five identities of a plan, in the record's order. -/
def PlanContent.header (p : PlanContent T) : List T :=
  [p.backend, p.target, p.board, p.compiler, p.application]

def PlanContent.map (f : T → U) (p : PlanContent T) : PlanContent U :=
  ⟨f p.backend, f p.target, f p.board, f p.compiler, f p.application, p.capacity, f p.policy,
    p.demands.map (Demand.map f), p.bindings.map (BindingRecord.map f)⟩

/-! ### Exclusive bindings -/

/-- One binding for each source and for each entry. -/
structure Exclusive (bindings : List (BindingRecord T)) : Prop where
  sources : (bindings.map (·.source)).Nodup
  entries : (bindings.map (·.entry)).Nodup

theorem exclusive_append_singleton {bs : List (BindingRecord T)} {b : BindingRecord T} :
    Exclusive (bs ++ [b]) ↔
      Exclusive bs ∧ b.source ∉ bs.map (·.source) ∧ b.entry ∉ bs.map (·.entry) := by
  have hnodup : ∀ f : BindingRecord T → T,
      ((bs ++ [b]).map f).Nodup ↔ (bs.map f).Nodup ∧ f b ∉ bs.map f := fun f => by
    rw [List.map_append, List.map_singleton, ← List.concat_eq_append, List.nodup_concat, and_comm]
  constructor
  · rintro ⟨hs, he⟩
    rw [hnodup] at hs he
    exact ⟨⟨hs.1, he.1⟩, hs.2, he.2⟩
  · rintro ⟨⟨hs, he⟩, hs', he'⟩
    exact ⟨(hnodup _).mpr ⟨hs, hs'⟩, (hnodup _).mpr ⟨he, he'⟩⟩

theorem Exclusive.of_append {bs cs : List (BindingRecord T)} (h : Exclusive (bs ++ cs)) :
    Exclusive bs := by
  obtain ⟨hs, he⟩ := h
  rw [List.map_append] at hs he
  exact ⟨hs.of_append_left, he.of_append_left⟩

theorem exclusive_map_iff {f : T → U} (hf : Function.Injective f) {bs : List (BindingRecord T)} :
    Exclusive (bs.map (BindingRecord.map f)) ↔ Exclusive bs := by
  have hsources : (bs.map (BindingRecord.map f)).map (·.source) = (bs.map (·.source)).map f := by
    simp [BindingRecord.map]
  have hentries : (bs.map (BindingRecord.map f)).map (·.entry) = (bs.map (·.entry)).map f := by
    simp [BindingRecord.map]
  constructor
  · rintro ⟨hs, he⟩
    rw [hsources, List.nodup_map_iff hf] at hs
    rw [hentries, List.nodup_map_iff hf] at he
    exact ⟨hs, he⟩
  · rintro ⟨hs, he⟩
    refine ⟨?_, ?_⟩
    · rwa [hsources, List.nodup_map_iff hf]
    · rwa [hentries, List.nodup_map_iff hf]

end Grevir.Interrupt
