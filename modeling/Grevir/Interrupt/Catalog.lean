import Grevir.Core.Application
import Grevir.Interrupt.Demand
import Grevir.Support.ExchangeSort

/-!
# Interrupt — Catalog

The events of an application, the catalog of their keys, and the demands of those it handles.  The
descriptors of an application are collected through `ModuleClosure`; each asks for requests, and a
request may carry events.  The keys of all events are sorted in place.  The demands are first placed
in four arrays side by side, in the order of the events, and then sorted in place by key, the four
arrays together.

* `rows_value`: the four arrays sorted together are one array of demands, sorted.
* `demands_value_perm`, `demands_value_sorted`: the demands are those of the handled events, by key.
* `normalisation_exact`: what the catalog and the demands list, whatever order the application
  declares its events and descriptors in.
-/

namespace Grevir.Interrupt

/-- An event of a catalog: its `Key`, and the handler the application chooses for it. -/
structure Event where
  key : EventIdentity Text
  choice : HandlerChoice

/-- The demand of an event that is handled. -/
def Event.demand (e : Event) : Demand Text := e.choice.demand e.key

/-! ### Collecting the events -/

/-- A descriptor: what it depends on, and its requests, each with `InterruptEvents` or without. -/
structure EventDescriptor (D : Type) where
  deps : List D
  requests : List (Option (List Event))

/-- `Concat`. -/
def concat {α : Type} : List (List α) → List α
  | [] => []
  | first :: rest => first ++ concat rest

/-- `RequestEvents`: none where the request does not say. -/
def requestEvents (request : Option (List Event)) : List Event :=
  match request with
  | some events => events
  | none => []

/-- `CollectRequests`. -/
def collectRequests (requests : List (Option (List Event))) : List Event :=
  concat (requests.map requestEvents)

def EventDescriptor.events {D : Type} (d : EventDescriptor D) : List Event :=
  collectRequests d.requests

/-- `CollectDescriptors`. -/
def collectDescriptors {D : Type} (descriptors : D → EventDescriptor D) (ds : List D) : List Event :=
  concat (ds.map fun d => (descriptors d).events)

/-- `EventCatalog::Events`, for an `ApplicationSpec` of these descriptors. -/
def catalogEvents {D : Type} [Fintype D] [DecidableEq D] (removeAll : Core.RemoveAll D)
    (descriptors : D → EventDescriptor D) (declared : List D) : List Event :=
  collectDescriptors descriptors
    (Core.moduleClosure removeAll (fun d => (descriptors d).deps) declared)

theorem concat_eq_flatten {α : Type} (ls : List (List α)) : concat ls = ls.flatten := by
  induction ls with
  | nil => rfl
  | cons l ls ih => rw [concat, ih, List.flatten_cons]

theorem collectDescriptors_eq {D : Type} (descriptors : D → EventDescriptor D) (ds : List D) :
    collectDescriptors descriptors ds = ds.flatMap fun d => (descriptors d).events := by
  rw [collectDescriptors, concat_eq_flatten, List.flatMap]

/-! ### The catalog -/

variable {n : Nat}

/-- `CatalogData::keys`. -/
def CatalogData.keys (events : Vector Event n) : Vector (EventIdentity Text) n :=
  ExchangeSort.sort n (fun i j keys =>
      if keys.get j < keys.get i then keys.swap i j i.isLt j.isLt else keys)
    (events.map Event.key)

/-- The catalog is its array of keys, sorted. -/
theorem CatalogData.keys_eq (events : Vector Event n) :
    CatalogData.keys events = ExchangeSort.sortArray id (Nat.le_refl n) (events.map Event.key) := rfl

/-! ### A summary as one array -/

namespace DemandSummary

/-- The four arrays as one. -/
def rows (d : DemandSummary n) : Vector (Demand Text) n :=
  .ofFn fun k => ⟨d.keys.get k, d.handlers.get k, d.contexts.get k, d.deliveries.get k⟩

theorem getElem_rows (d : DemandSummary n) (k : Nat) (hk : k < n) :
    d.rows[k] = ⟨d.keys[k], d.handlers[k], d.contexts[k], d.deliveries[k]⟩ := by
  simp [rows, ExchangeSort.get_mk]

/-- Summaries of the same rows, as many of them in use, are the same. -/
theorem eq_of_rows {d d' : DemandSummary n} (hrows : d.rows = d'.rows) (hcount : d.count = d'.count) :
    d = d' := by
  have hrow : ∀ (k : Nat) (hk : k < n), (⟨d.keys[k], d.handlers[k], d.contexts[k],
      d.deliveries[k]⟩ : Demand Text) = ⟨d'.keys[k], d'.handlers[k], d'.contexts[k],
      d'.deliveries[k]⟩ := by
    intro k hk
    rw [← getElem_rows, ← getElem_rows, hrows]
  simp only [Demand.mk.injEq] at hrow
  obtain ⟨keys, count, handlers, contexts, deliveries, hle⟩ := d
  obtain ⟨keys', count', handlers', contexts', deliveries', hle'⟩ := d'
  obtain rfl : count = count' := hcount
  rw [mk.injEq]
  exact ⟨Vector.ext fun k hk => (hrow k hk).1, rfl, Vector.ext fun k hk => (hrow k hk).2.1,
    Vector.ext fun k hk => (hrow k hk).2.2.1, Vector.ext fun k hk => (hrow k hk).2.2.2⟩

/-- The demands in use are the first rows. -/
theorem demands_eq_take (d : DemandSummary n) : d.demands = d.rows.toList.take d.count := by
  refine List.ext_getElem (by simp [d.count_le]) fun k h₁ h₂ => ?_
  simp [demands, row, getElem_rows]

end DemandSummary

/-! ### The demands -/

namespace DemandData

/-- The entry of an array that has not been assigned. -/
def blank : Demand Text := ⟨⟨[], [], []⟩, [], [], []⟩

/-- A summary as it is declared, with no demand. -/
def empty : DemandSummary n where
  keys := .replicate n blank.event
  count := 0
  handlers := .replicate n blank.handler
  contexts := .replicate n blank.context
  deliveries := .replicate n blank.delivery
  count_le := Nat.zero_le n

/-- Assign the four arrays at `count++`. -/
def place (d : DemandSummary n) (hd : d.count < n) (key : EventIdentity Text)
    (handler context delivery : Text) : DemandSummary n where
  keys := d.keys.set d.count key
  count := d.count + 1
  handlers := d.handlers.set d.count handler
  contexts := d.contexts.set d.count context
  deliveries := d.deliveries.set d.count delivery
  count_le := hd

/-- The summary after the first loop has looked at `i` events. -/
def compact (events : Vector Event n) : (i : Nat) → i ≤ n → { d : DemandSummary n // d.count ≤ i }
  | 0, _ => ⟨empty, Nat.le_refl 0⟩
  | i + 1, hi =>
      let keys := events.map Event.key
      let present := events.map (·.choice.present)
      let handlers := events.map (·.choice.handlerText)
      let contexts := events.map (·.choice.contextText)
      let deliveries := events.map (·.choice.deliveryText)
      let result := compact events i (Nat.le_of_succ_le hi)
      if present[i] then
        ⟨place result.1 (Nat.lt_of_le_of_lt result.2 hi) keys[i] handlers[i] contexts[i]
          deliveries[i], Nat.succ_le_succ result.2⟩
      else ⟨result.1, Nat.le_succ_of_le result.2⟩

/-- The body of the two loops that sort: all four arrays change places together. -/
def exchange (i j : Fin n) (d : DemandSummary n) : DemandSummary n :=
  if d.keys.get j < d.keys.get i then
    { d with
      keys := d.keys.swap i j i.isLt j.isLt
      handlers := d.handlers.swap i j i.isLt j.isLt
      contexts := d.contexts.swap i j i.isLt j.isLt
      deliveries := d.deliveries.swap i j i.isLt j.isLt }
  else d

/-- `DemandData::value`.  No exchange changes `count`, the bound of both loops. -/
def value (events : Vector Event n) : DemandSummary n :=
  let result := (compact events n (Nat.le_refl n)).1
  ExchangeSort.sort result.count
    (fun i j => exchange (i.castLE result.count_le) (j.castLE result.count_le)) result

/-! ### What the first loop places -/

/-- The demands of the handled events. -/
def handled (events : List Event) : List (Demand Text) :=
  (events.filter fun e => e.choice.present).map Event.demand

theorem rows_empty : (empty : DemandSummary n).rows = .replicate n blank := by
  refine Vector.ext fun k hk => ?_
  simp [DemandSummary.getElem_rows, empty, blank]

theorem rows_place (d : DemandSummary n) (hd : d.count < n) (demand : Demand Text) :
    (place d hd demand.event demand.handler demand.context demand.delivery).rows =
      d.rows.set d.count demand := by
  refine Vector.ext fun k hk => ?_
  simp only [DemandSummary.getElem_rows, place, Vector.getElem_set]
  split
  next h => rfl
  next h => rfl

theorem compact_present {events : Vector Event n} {i : Nat} (hi : i + 1 ≤ n)
    (h : events[i].choice.present) :
    (compact events (i + 1) hi).1 = place (compact events i (Nat.le_of_succ_le hi)).1
      (Nat.lt_of_le_of_lt (compact events i (Nat.le_of_succ_le hi)).2 hi) events[i].demand.event
      events[i].demand.handler events[i].demand.context events[i].demand.delivery := by
  simp only [compact, Vector.getElem_map, if_pos h]
  rfl

theorem compact_absent {events : Vector Event n} {i : Nat} (hi : i + 1 ≤ n)
    (h : ¬ events[i].choice.present) :
    (compact events (i + 1) hi).1 = (compact events i (Nat.le_of_succ_le hi)).1 := by
  simp only [compact, Vector.getElem_map, if_neg h]

/-- **The rows after `i` events**: the demands of those that are handled, then blanks. -/
theorem compact_spec (events : Vector Event n) (i : Nat) (hi : i ≤ n) :
    (compact events i hi).1.count = (handled (events.toList.take i)).length ∧
      (compact events i hi).1.rows.toList = handled (events.toList.take i) ++
        List.replicate (n - (handled (events.toList.take i)).length) blank := by
  induction i with
  | zero =>
      refine ⟨rfl, ?_⟩
      show (empty : DemandSummary n).rows.toList = _
      simp [rows_empty, handled]
  | succ i ih =>
      obtain ⟨hcount, hrows⟩ := ih (Nat.le_of_succ_le hi)
      have hhandled : handled (events.toList.take (i + 1)) =
          handled (events.toList.take i) ++ handled [events[i]] := by
        have htake : events.toList.take (i + 1) = events.toList.take i ++ [events[i]] := by
          rw [List.take_add_one]
          simp [show i < n from hi]
        rw [htake, handled, List.filter_append, List.map_append]
        rfl
      by_cases hp : events[i].choice.present
      · have hone : handled [events[i]] = [events[i].demand] := by simp [handled, hp]
        have hlt := Nat.lt_of_le_of_lt (compact events i (Nat.le_of_succ_le hi)).2 hi
        rw [compact_present hi hp, hhandled, hone]
        refine ⟨by simp [place, hcount], ?_⟩
        -- the first blank is the entry that is assigned
        obtain ⟨k, hk⟩ : ∃ k, n - (handled (events.toList.take i)).length = k + 1 :=
          ⟨_, (Nat.sub_add_cancel (Nat.sub_pos_of_lt (hcount ▸ hlt))).symm⟩
        have hk' : n - (handled (events.toList.take i) ++ [events[i].demand]).length = k := by
          rw [List.length_append, List.length_singleton, Nat.sub_add_eq, hk, Nat.add_sub_cancel]
        rw [rows_place, Vector.toList_set, hrows, hcount, hk, hk',
          List.set_append_right _ _ (Nat.le_refl _), Nat.sub_self, List.replicate_succ, List.set_cons_zero,
          List.append_assoc, List.singleton_append]
      · have hnone : handled [events[i]] = [] := by simp [handled, hp]
        rw [compact_absent hi hp, hhandled, hnone, List.append_nil]
        exact ⟨hcount, hrows⟩

/-! ### What the sorting leaves -/

theorem rows_exchange (i j : Fin n) (d : DemandSummary n) :
    (exchange i j d).rows = ExchangeSort.exchange Demand.event i j d.rows := by
  have hkey : ∀ k : Fin n, (d.rows.get k).event = d.keys.get k := fun k => by
    obtain ⟨k, hk⟩ := k
    rw [ExchangeSort.get_mk, DemandSummary.getElem_rows]
    rfl
  rw [exchange, ExchangeSort.exchange, hkey, hkey]
  split
  next h =>
    refine Vector.ext fun k hk => ?_
    simp only [DemandSummary.getElem_rows, Vector.getElem_swap]
    split
    next hki => rfl
    next hki =>
      split
      next hkj => rfl
      next hkj => rfl
  next h => rfl

theorem count_exchange (i j : Fin n) (d : DemandSummary n) : (exchange i j d).count = d.count := by
  rw [exchange]
  split
  next h => rfl
  next h => rfl

/-- The summary before it is sorted. -/
def compacted (events : Vector Event n) : DemandSummary n := (compact events n (Nat.le_refl n)).1

/-- **The four arrays are sorted as one.** -/
theorem rows_value (events : Vector Event n) :
    (value events).rows = ExchangeSort.sortArray Demand.event (compacted events).count_le
      (compacted events).rows := by
  refine ExchangeSort.sort_view DemandSummary.rows (fun i j d => ?_) _
  exact rows_exchange _ _ d

theorem compacted_count (events : Vector Event n) :
    (compacted events).count = (handled events.toList).length := by
  have h := (compact_spec events n (Nat.le_refl n)).1
  rwa [List.take_of_length_le (by simp)] at h

theorem compacted_rows (events : Vector Event n) :
    (compacted events).rows.toList = handled events.toList ++
      List.replicate (n - (handled events.toList).length) blank := by
  have h := (compact_spec events n (Nat.le_refl n)).2
  rwa [List.take_of_length_le (by simp)] at h

theorem count_value (events : Vector Event n) : (value events).count = (compacted events).count :=
  ExchangeSort.sort_keeps DemandSummary.count (fun _ _ d => count_exchange _ _ d) _

theorem take_compacted (events : Vector Event n) :
    (compacted events).rows.toList.take (compacted events).count = handled events.toList := by
  rw [compacted_rows, compacted_count, List.take_left]

/-- Different keys of events are different keys of what is placed. -/
theorem nodup_handled {events : List Event} (h : (events.map Event.key).Nodup) :
    ((handled events).map Demand.event).Nodup := by
  refine List.Nodup.sublist ?_ h
  rw [handled, List.map_map]
  exact (List.filter_sublist (p := fun e => e.choice.present)).map Event.key

/-- The demands are those of the handled events. -/
theorem demands_value_perm (events : Vector Event n) :
    (value events).demands.Perm (handled events.toList) := by
  rw [DemandSummary.demands_eq_take, rows_value, count_value, ← take_compacted events]
  exact ExchangeSort.take_sortArray_perm _ _ _

/-- **The demands stand in strict order.** -/
theorem demands_value_sorted {events : Vector Event n}
    (h : (events.toList.map Event.key).Nodup) :
    (value events).demands.Pairwise fun d d' => d.event < d'.event := by
  rw [DemandSummary.demands_eq_take, rows_value, count_value]
  refine ExchangeSort.take_sortArray_strict _ _ ?_
  rw [take_compacted]
  exact nodup_handled h

/-- **The order in which the events are declared does not matter**, to what is in use or to the
rest. -/
theorem value_eq_of_perm {events events' : Vector Event n}
    (hperm : events.toList.Perm events'.toList) (h : (events.toList.map Event.key).Nodup) :
    value events = value events' := by
  have hhandled : (handled events.toList).Perm (handled events'.toList) :=
    (List.Perm.filter _ hperm).map _
  have hcount : (compacted events').count = (compacted events).count := by
    rw [compacted_count, compacted_count, hhandled.length_eq]
  refine DemandSummary.eq_of_rows ?_ (by rw [count_value, count_value, hcount])
  have hsame : ∀ {c : Nat} (hc : c ≤ n) (v : Vector (Demand Text) n),
      c = (compacted events).count → ExchangeSort.sortArray Demand.event hc v =
        ExchangeSort.sortArray Demand.event (compacted events).count_le v := by
    rintro c hc v rfl
    rfl
  rw [rows_value, rows_value, hsame _ _ hcount]
  refine ExchangeSort.sortArray_eq_of_perm _ _ ?_ ?_ ?_
  · rw [take_compacted]
    exact nodup_handled h
  · rw [← hcount, take_compacted, hcount, take_compacted]
    exact hhandled
  · rw [compacted_rows, compacted_count, List.drop_left, compacted_rows, hhandled.length_eq,
      List.drop_left]

end DemandData

/-! ### The catalog's keys -/

theorem CatalogData.keys_perm (events : Vector Event n) :
    (CatalogData.keys events).toList.Perm (events.toList.map Event.key) := by
  have h := (ExchangeSort.sortArray_sorting id (Nat.le_refl n) (events.map Event.key)).perm.toList
  rwa [← CatalogData.keys_eq, Vector.toList_map] at h

theorem take_keys (events : Vector Event n) :
    (events.map Event.key).toList.take n = events.toList.map Event.key := by
  rw [Vector.toList_map, List.take_of_length_le (by simp)]

theorem CatalogData.keys_sorted {events : Vector Event n}
    (h : (events.toList.map Event.key).Nodup) :
    (CatalogData.keys events).toList.Pairwise (· < ·) := by
  have hs := ExchangeSort.take_sortArray_strict id (Nat.le_refl n) (v := events.map Event.key)
    (by rwa [take_keys, List.map_id])
  rwa [← CatalogData.keys_eq, List.take_of_length_le (by simp)] at hs

theorem CatalogData.keys_eq_of_perm {events events' : Vector Event n}
    (hperm : events.toList.Perm events'.toList) (h : (events.toList.map Event.key).Nodup) :
    CatalogData.keys events = CatalogData.keys events' := by
  rw [CatalogData.keys_eq, CatalogData.keys_eq]
  refine ExchangeSort.sortArray_eq_of_perm id (Nat.le_refl n) ?_ ?_ ?_
  · rwa [take_keys, List.map_id]
  · rw [take_keys, take_keys]
    exact hperm.map Event.key
  · rw [List.drop_of_length_le (by simp), List.drop_of_length_le (by simp)]

/-! ### Declarations in another order -/

section Descriptors

variable {D : Type} [Fintype D] [DecidableEq D] (removeAll : Core.RemoveAll D)
  (descriptors : D → EventDescriptor D) (declared : List D)

/-- `EventCatalog::keys`. -/
def eventCatalogKeys : (n : Nat) × Vector (EventIdentity Text) n :=
  ⟨_, CatalogData.keys (catalogEvents removeAll descriptors declared).toArray.toVector⟩

/-- `LiveDemandSet::value`. -/
def liveDemandSet : (n : Nat) × DemandSummary n :=
  ⟨_, DemandData.value (catalogEvents removeAll descriptors declared).toArray.toVector⟩

/-- The same descriptors with the same events, declared in any order. -/
structure Redeclared (descriptors descriptors' : D → EventDescriptor D) (declared declared' : List D) :
    Prop where
  declared : declared.Perm declared'
  deps : ∀ d, (descriptors d).deps.Perm (descriptors' d).deps
  events : ∀ d, (descriptors d).events.Perm (descriptors' d).events

variable {removeAll descriptors declared} {descriptors' : D → EventDescriptor D} {declared' : List D}

omit [Fintype D] [DecidableEq D] in
theorem Redeclared.reaches (h : Redeclared descriptors descriptors' declared declared') {d : D}
    (hd : Digraph.Reaches (fun d => (descriptors d).deps) declared d) :
    Digraph.Reaches (fun d => (descriptors' d).deps) declared' d := by
  refine hd.mem_of_closed (fun r hr => .of_mem (h.declared.mem_iff.mp hr)) ?_
  rintro a ⟨r, hr, hra⟩ b hab
  exact ⟨r, hr, hra.tail ((h.deps a).mem_iff.mp hab)⟩

omit [Fintype D] [DecidableEq D] in
theorem Redeclared.symm (h : Redeclared descriptors descriptors' declared declared') :
    Redeclared descriptors' descriptors declared' declared :=
  ⟨h.declared.symm, fun d => (h.deps d).symm, fun d => (h.events d).symm⟩

/-- The same events are collected, in some order. -/
theorem Redeclared.catalogEvents_perm (h : Redeclared descriptors descriptors' declared declared') :
    (catalogEvents removeAll descriptors declared).Perm
      (catalogEvents removeAll descriptors' declared') := by
  rw [catalogEvents, catalogEvents, collectDescriptors_eq, collectDescriptors_eq]
  refine List.Perm.flatMap ?_ fun d _ => h.events d
  refine (List.perm_ext_iff_of_nodup (Core.nodup_moduleClosure removeAll _)
    (Core.nodup_moduleClosure removeAll _)).mpr fun d => ?_
  rw [Core.mem_moduleClosure, Core.mem_moduleClosure]
  exact ⟨h.reaches, h.symm.reaches⟩

end Descriptors

/-! ### Normalisation -/

/-- What a catalog's keys and its demands say of the events. -/
structure Normal (events : List Event) (keys : List (EventIdentity Text))
    (demands : List (Demand Text)) : Prop where
  keys_perm : keys.Perm (events.map Event.key)
  keys_sorted : keys.Pairwise (· < ·)
  listed : ∀ key, key ∈ demands.map Demand.event ↔ ∃ e ∈ events, e.choice.present ∧ e.key = key
  sorted : (demands.map Demand.event).Pairwise (· < ·)
  route : ∀ demand ∈ demands, ∀ e ∈ events, e.key = demand.event →
    demand.handler = e.choice.handlerText ∧ demand.context = e.choice.contextText ∧
      demand.delivery = e.choice.deliveryText

theorem mem_handled {events : List Event} {demand : Demand Text} :
    demand ∈ DemandData.handled events ↔ ∃ e ∈ events, e.choice.present ∧ e.demand = demand := by
  simp [DemandData.handled, and_assoc]

theorem normal_value (events : Vector Event n) (h : (events.toList.map Event.key).Nodup) :
    Normal events.toList (CatalogData.keys events).toList (DemandData.value events).demands where
  keys_perm := CatalogData.keys_perm events
  keys_sorted := CatalogData.keys_sorted h
  listed key := by
    rw [((DemandData.demands_value_perm events).map Demand.event).mem_iff, List.mem_map]
    constructor
    · rintro ⟨demand, hd, rfl⟩
      obtain ⟨e, he, hp, rfl⟩ := mem_handled.mp hd
      exact ⟨e, he, hp, rfl⟩
    · rintro ⟨e, he, hp, rfl⟩
      exact ⟨e.demand, mem_handled.mpr ⟨e, he, hp, rfl⟩, rfl⟩
  sorted := List.pairwise_map.mpr (DemandData.demands_value_sorted h)
  route := by
    intro demand hd e he hkey
    obtain ⟨e', he', -, rfl⟩ :=
      mem_handled.mp ((DemandData.demands_value_perm events).mem_iff.mp hd)
    obtain rfl : e = e' := List.inj_on_of_nodup_map h he he' hkey
    exact ⟨rfl, rfl, rfl⟩

/-- **The catalog and the demands are exact, and independent of every order of declaring.** -/
theorem normalisation_exact (events : Vector Event n) (h : (events.toList.map Event.key).Nodup) :
    Normal events.toList (CatalogData.keys events).toList (DemandData.value events).demands ∧
      (∀ events' : Vector Event n, events.toList.Perm events'.toList →
        CatalogData.keys events' = CatalogData.keys events ∧
          DemandData.value events' = DemandData.value events) ∧
      ∀ (D : Type) [Fintype D] [DecidableEq D] (removeAll : Core.RemoveAll D)
        (descriptors descriptors' : D → EventDescriptor D) (declared declared' : List D),
        catalogEvents removeAll descriptors declared = events.toList →
          Redeclared descriptors descriptors' declared declared' →
            eventCatalogKeys removeAll descriptors' declared' = ⟨n, CatalogData.keys events⟩ ∧
              liveDemandSet removeAll descriptors' declared' = ⟨n, DemandData.value events⟩ := by
  refine ⟨normal_value events h, fun events' hperm => ?_, ?_⟩
  · exact ⟨(CatalogData.keys_eq_of_perm hperm h).symm, (DemandData.value_eq_of_perm hperm h).symm⟩
  · intro D _ _ removeAll descriptors descriptors' declared declared' hevents hre
    have hperm : events.toList.Perm (catalogEvents removeAll descriptors' declared') :=
      hevents ▸ hre.catalogEvents_perm
    obtain rfl : n = (catalogEvents removeAll descriptors' declared').toArray.size := by
      simpa using hperm.length_eq
    have hkeys : CatalogData.keys events =
        CatalogData.keys (catalogEvents removeAll descriptors' declared').toArray.toVector :=
      CatalogData.keys_eq_of_perm hperm h
    have hvalue : DemandData.value events =
        DemandData.value (catalogEvents removeAll descriptors' declared').toArray.toVector :=
      DemandData.value_eq_of_perm hperm h
    exact ⟨by rw [hkeys, eventCatalogKeys], by rw [hvalue, liveDemandSet]⟩

/-- Three events: the one of the last key is handled by a raw handler, the one of the first by an
event handler of the main loop. -/
def threeEvents : Vector Event 3 :=
  #v[⟨⟨[99], [99], [99]⟩, ⟨true, false, .mainLoop, .stream, by simp, by simp⟩⟩,
    ⟨⟨[98], [98], [98]⟩, ⟨false, false, .other, .other, by simp, by simp⟩⟩,
    ⟨⟨[97], [97], [97]⟩, ⟨false, true, .mainLoop, .elide, by simp, by simp⟩⟩]

theorem normalisation_exact_three :
    Normal threeEvents.toList (CatalogData.keys threeEvents).toList
      (DemandData.value threeEvents).demands :=
  (normalisation_exact threeEvents (by decide)).1

end Grevir.Interrupt
