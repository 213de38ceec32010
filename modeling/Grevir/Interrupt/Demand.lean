import Grevir.Interrupt.Plan

/-!
# Interrupt — Demand

Components of keys, the catalog's check on them, the handler an application chooses for an event, and
the demands of an application: parallel arrays of some capacity, of which the first `count` are used.
-/

namespace Grevir.Interrupt

/-- The text of a string literal. -/
def literal (value : String) : Text := Utf8.bytes value

/-- A letter, a digit or `_`. -/
def componentCharacter (c : UInt8) : Bool :=
  (97 ≤ c && c ≤ 122) || (65 ≤ c && c ≤ 90) || (48 ≤ c && c ≤ 57) || c == 95

/-- `valid_component`. -/
def validComponent (value : Text) : Bool := !value.isEmpty && value.all componentCharacter

/-- `CatalogData::valid`: the check on the keys of a catalog. -/
def CatalogData.valid (keys : List (EventIdentity Text)) : Bool :=
  keys.all fun key =>
    validComponent key.instance' && validComponent key.request && validComponent key.kind

/-! ### Handlers -/

/-- The context of a route; `other` is any type the library does not know. -/
inductive RouteContext where
  | mainLoop | isrLevel | other
  deriving DecidableEq

inductive RouteDelivery where
  | elide | stream | direct | other
  deriving DecidableEq

/-- `HandlerChoice` of an event: whether it has an `on_interrupt` or an `on_event`, and its route.
The fields that are propositions are the assertions on them. -/
structure HandlerChoice where
  raw : Bool
  event : Bool
  context : RouteContext
  delivery : RouteDelivery
  not_both : ¬ (raw = true ∧ event = true)
  routed : event = true → context = .isrLevel ∧ delivery = .direct ∨
    context = .mainLoop ∧ (delivery = .elide ∨ delivery = .stream)

namespace HandlerChoice

variable (c : HandlerChoice)

/-- The application handles the event. -/
def present : Bool := c.raw || c.event

def isDirect : Bool := c.context = .isrLevel && c.delivery = .direct

def handlerText : Text := if c.raw then literal "raw" else literal "event"

def contextText : Text := if c.raw || c.isDirect then literal "isr" else literal "main_loop"

def deliveryText : Text :=
  if c.raw || c.isDirect then literal "direct"
  else if c.delivery = .elide then literal "elide" else literal "stream"

/-- The demand of the event with this handler. -/
def demand (event : EventIdentity Text) : Demand Text :=
  ⟨event, c.handlerText, c.contextText, c.deliveryText⟩

end HandlerChoice

/-! ### Demand summaries -/

/-- `DemandSummary<capacity>`. -/
structure DemandSummary (capacity : Nat) where
  keys : Vector (EventIdentity Text) capacity
  count : Nat
  handlers : Vector Text capacity
  contexts : Vector Text capacity
  deliveries : Vector Text capacity
  count_le : count ≤ capacity

namespace DemandSummary

variable {n m : Nat}

/-- The entry of each array at one index. -/
def row (d : DemandSummary n) (i : Fin d.count) : Demand Text :=
  have hi : i.val < n := i.isLt.trans_le d.count_le
  ⟨d.keys[i.val], d.handlers[i.val], d.contexts[i.val], d.deliveries[i.val]⟩

/-- The demands in use. -/
def demands (d : DemandSummary n) : List (Demand Text) := List.ofFn d.row

@[simp] theorem length_demands (d : DemandSummary n) : d.demands.length = d.count :=
  List.length_ofFn

end DemandSummary

/-- `same_demands`, of summaries of any two capacities. -/
def sameDemands {n m : Nat} (live : DemandSummary n) (recorded : DemandSummary m) : Bool :=
  if h : live.count = recorded.count then
    (List.finRange live.count).all fun i =>
      let l := live.row i
      let r := recorded.row (i.cast h)
      l.event = r.event && l.handler = r.handler && l.context = r.context
        && l.delivery = r.delivery
  else false

/-- **Summaries are the same when their demands are, whatever room either has left.** -/
theorem sameDemands_iff {n m : Nat} {live : DemandSummary n} {recorded : DemandSummary m} :
    sameDemands live recorded ↔ live.demands = recorded.demands := by
  have hrow : ∀ l r : Demand Text, (l.event = r.event && l.handler = r.handler
      && l.context = r.context && l.delivery = r.delivery) = true ↔ l = r := by
    rintro ⟨e, h, c, d⟩ ⟨e', h', c', d'⟩
    simp [and_assoc]
  unfold sameDemands
  split
  · next h =>
    simp only [List.all_eq_true, List.mem_finRange, true_imp_iff, hrow]
    constructor
    · intro hall
      refine List.ext_getElem (by simp [h]) fun i h₁ h₂ => ?_
      simp only [DemandSummary.demands, List.getElem_ofFn]
      exact hall ⟨i, by simpa using h₁⟩
    · intro heq i
      have hi := congrArg (fun l => l[i.val]?) heq
      simp only [DemandSummary.demands, List.getElem?_ofFn] at hi
      rw [dif_pos i.isLt, dif_pos (i.isLt.trans_eq h)] at hi
      exact Option.some.inj hi
  · next h =>
    refine iff_of_false (by simp) fun heq => h ?_
    rw [← live.length_demands, heq, recorded.length_demands]

end Grevir.Interrupt
