import Grevir.Support.Codec
import Grevir.Interrupt.Plan
import Grevir.Irqgen.Value
import Mathlib.Data.Finset.Sort

/-!
# Irqgen — Protocol

The generator's end of the probe record: the reader, `decode`, and `_validate_plan`, which both the
decoder and the parser of the canonical plan end with.

`sha256` is the hexadecimal digest of some bytes and `json` the serialisation `_json`; nothing here
looks inside either.  A reader holds what is left of its data, so that its position is the length of
the data less the length of what is left.
-/

namespace Grevir.Irqgen

open Codec Interrupt Json

def SCHEMA : Nat := 4

def BACKENDS : List String := ["mock", "avr", "esp32"]

def TEXT_FIELDS : List String :=
  ["owner", "configuration", "source", "selector", "entry", "snapshot_policy",
    "acknowledge_policy"]

def planFields : List String :=
  ["schema", "backend", "target", "board", "compiler", "application", "deferred_context",
    "demands", "bindings", "source_groups", "fingerprint"]

def headerFields : List String := ["backend", "target", "board", "compiler", "application"]

def eventFields : List String := ["instance", "request", "kind"]

def demandFields : List String := ["event", "handler", "context", "delivery"]

def contextFields : List String := ["capacity", "policy"]

def bindingFields : List String := "event" :: TEXT_FIELDS ++ ["dispatch_order", "shared_source"]

/-- The handler, context and delivery a plan may have together. -/
def handlerRoutes : List (String × String × String) :=
  [("raw", "isr", "direct"), ("event", "isr", "direct"), ("event", "main_loop", "elide"),
    ("event", "main_loop", "stream")]

/-- `if not condition: raise PlanError(message)`. -/
def require {m : Type → Type} [Monad m] [MonadExceptOf Error m] (condition : Prop)
    [Decidable condition] (message : String) : m Unit :=
  if condition then pure () else throw (.plan message)

/-- `_identifier`. -/
def identifier (value : String) : Bool :=
  !value.isEmpty && value.toList.all fun c => c.toNat < 128 && (c.isAlphanum || c = '_')

/-! ### Source groups -/

structure GroupEvent where
  event : EventIdentity String
  selector : String
  dispatchOrder : Nat
  deriving DecidableEq

/-- The bindings of one source. -/
structure Group where
  source : String
  owner : String
  entry : String
  snapshotPolicy : String
  acknowledgePolicy : String
  events : List GroupEvent
  deriving DecidableEq

/-- A group for `b`, without an event yet. -/
def Group.new (b : BindingRecord String) : Group :=
  ⟨b.source, b.owner, b.entry, b.snapshotPolicy, b.acknowledgePolicy, []⟩

def Group.append (g : Group) (b : BindingRecord String) : Group :=
  { g with events := g.events ++ [⟨b.event, b.selector, b.dispatchOrder⟩] }

/-- `group["events"].sort(...)`: by dispatch order, then by key. -/
def Group.sortEvents (g : Group) : Group :=
  { g with events := g.events.mergeSort fun a b =>
      toLex (a.dispatchOrder, a.event) ≤ toLex (b.dispatchOrder, b.event) }

/-- `[groups[key] for key in sorted(groups)]`, with the events of each in order. -/
def canonicalGroups (groups : List (String × Group)) : List Group :=
  (((groups.map Prod.fst).mergeSort (· ≤ ·)).filterMap fun key => groups.lookup key).map
    Group.sortEvents

/-- The groups `decode` makes of the bindings. -/
def sourceGroups (bindings : List (BindingRecord String)) : List Group :=
  canonicalGroups <| bindings.foldl (fun groups b =>
    let group := (groups.lookup b.source).getD (.new b)
    setItem b.source (group.append b) groups) []

section Values

variable {F : Type}

def eventValue (e : EventIdentity String) : Value F :=
  .dict [("instance", .str e.instance'), ("request", .str e.request), ("kind", .str e.kind)]

def demandValue (d : Demand String) : Value F :=
  .dict [("event", eventValue d.event), ("handler", .str d.handler), ("context", .str d.context),
    ("delivery", .str d.delivery)]

def bindingValue (b : BindingRecord String) : Value F :=
  .dict <| [("event", eventValue b.event)] ++ TEXT_FIELDS.zip (b.texts.map .str) ++
    [("dispatch_order", .int b.dispatchOrder), ("shared_source", .bool b.sharedSource)]

def groupEventValue (e : GroupEvent) : Value F :=
  .dict [("event", eventValue e.event), ("selector", .str e.selector),
    ("dispatch_order", .int e.dispatchOrder)]

def groupValue (g : Group) : Value F :=
  .dict [("source", .str g.source), ("owner", .str g.owner), ("entry", .str g.entry),
    ("snapshot_policy", .str g.snapshotPolicy), ("acknowledge_policy", .str g.acknowledgePolicy),
    ("events", .list (g.events.map groupEventValue))]

/-- The plan `decode` builds, before its fingerprint. -/
def unsignedItems (p : PlanContent String) : List (String × Value F) :=
  [("schema", .int SCHEMA)] ++ headerFields.zip (p.header.map .str) ++
    [("deferred_context", .dict [("capacity", .int p.capacity), ("policy", .str p.policy)]),
      ("demands", .list (p.demands.map demandValue)),
      ("bindings", .list (p.bindings.map bindingValue)),
      ("source_groups", .list ((sourceGroups p.bindings).map groupValue))]

end Values

variable {F : Type} [PyFloat F] (sha256 : List UInt8 → String) (json : Value F → List UInt8)

/-- The plan of some content: with its source groups and its fingerprint. -/
def planValue (p : PlanContent String) : Value F :=
  .dict <| unsignedItems p ++ [("fingerprint", .str (sha256 (json (.dict (unsignedItems p)))))]

/-! ### `_validate_plan` -/

section Validate

def isInt : Value F → Bool
  | .int _ => true
  | _ => false

/-- `type(value) is str and _identifier(value)`. -/
def isIdentifier : Value F → Bool
  | .str s => identifier s
  | _ => false

def text : Value F → Except Error String
  | .str s => .ok s
  | _ => .error .typeError

/-- `_key`. -/
def key (event : Value F) : Except Error (EventIdentity String) := do
  let instance' ← text (← event.item "instance")
  let request ← text (← event.item "request")
  let kind ← text (← event.item "kind")
  return ⟨instance', request, kind⟩

def checkHeader (plan : Value F) : Except Error Unit := do
  let schema ← plan.item "schema"
  require (schema.eq (.int SCHEMA) ∧ isInt schema) "unsupported interrupt schema"
  let backend ← plan.item "backend"
  require (BACKENDS.any fun b => backend.eq (.str b)) "unsupported interrupt backend"
  headerFields.forM fun field => do
    let value ← plan.item field
    require (isIdentifier value) ("invalid interrupt " ++ field)

def eventLists : Value F → Value F → Except Error (List (Value F) × List (Value F))
  | .list demands, .list bindings => return (demands, bindings)
  | _, _ => throw (.plan "invalid interrupt event lists")

def checkDemand (demand : Value F) : Except Error (EventIdentity String) := do
  require (demand.hasFields demandFields) "invalid interrupt demand"
  let event ← demand.item "event"
  require (event.hasFields eventFields) "invalid interrupt event"
  require (event.values.all isIdentifier) "invalid interrupt event key"
  let handler ← demand.item "handler"
  let context ← demand.item "context"
  let delivery ← demand.item "delivery"
  require (handlerRoutes.any fun r =>
    handler.eq (.str r.1) && context.eq (.str r.2.1) && delivery.eq (.str r.2.2))
    "invalid interrupt handler route"
  key event

/-- `any(demand["context"] == "main_loop" for demand in demands)`. -/
def anyDeferred : List (Value F) → Except Error Bool
  | [] => .ok false
  | demand :: demands => do
      let context ← demand.item "context"
      if context.eq (.str "main_loop") then return true else anyDeferred demands

def checkContextFields (deferred : Bool) : Value F → Value F → Except Error Unit
  | .int capacity, .str policy =>
      if deferred then
        require ((1 ≤ capacity ∧ capacity ≤ 2048) ∧ identifier policy)
          "invalid active deferred context"
      else require (capacity = 0 ∧ policy = "") "unselected deferred context has storage"
  | _, _ => throw (.plan "invalid deferred context fields")

def checkContext (context : Value F) (demands : List (Value F)) : Except Error Unit := do
  require (context.hasFields contextFields) "invalid deferred context"
  let capacity ← context.item "capacity"
  let policy ← context.item "policy"
  let deferred ← anyDeferred demands
  checkContextFields deferred capacity policy

def checkOrder : Value F → Except Error Nat
  | .int order => do
      require (0 ≤ order ∧ order ≤ 65535) "invalid dispatch order"
      return order.toNat
  | _ => throw (.plan "invalid dispatch order")

def checkShared : Value F → Except Error Bool
  | .bool shared => do
      require (shared = false) "shared interrupt sources are not implemented"
      return shared
  | _ => throw (.plan "invalid shared-source flag")

/-- The checks of one binding by itself. -/
def checkBinding (binding : Value F) : Except Error (BindingRecord String) := do
  require (binding.hasFields bindingFields) "invalid interrupt binding"
  let event ← binding.item "event"
  require (event.hasFields eventFields) "invalid binding event"
  require (event.values.all isIdentifier) "invalid binding event key"
  let event ← key event
  TEXT_FIELDS.forM fun field => do
    let value ← binding.item field
    require (isIdentifier value) ("invalid binding " ++ field)
  let order ← checkOrder (← binding.item "dispatch_order")
  let shared ← checkShared (← binding.item "shared_source")
  return {
    event := event
    owner := ← text (← binding.item "owner")
    configuration := ← text (← binding.item "configuration")
    source := ← text (← binding.item "source")
    selector := ← text (← binding.item "selector")
    entry := ← text (← binding.item "entry")
    snapshotPolicy := ← text (← binding.item "snapshot_policy")
    acknowledgePolicy := ← text (← binding.item "acknowledge_policy")
    dispatchOrder := order
    sharedSource := shared }

/-- `{key: value for key, value in plan.items() if key != "fingerprint"}`. -/
def unsigned : Value F → Value F
  | .dict items => .dict (items.filter fun item => item.1 ≠ "fingerprint")
  | plan => plan

/-- What the loop over the bindings has gathered. -/
structure Scan where
  keys : List (EventIdentity String)
  groups : List (String × Group)
  entries : List (String × String)

/-- The checks of one binding against those before it. -/
def Scan.add (scan : Scan) (b : BindingRecord String) : Except Error Scan := do
  require (∀ source ∈ scan.entries.lookup b.entry, source = b.source)
    "exclusive interrupt entry conflict"
  let group := (scan.groups.lookup b.source).getD (.new b)
  require (group.owner = b.owner ∧ group.entry = b.entry
      ∧ group.snapshotPolicy = b.snapshotPolicy ∧ group.acknowledgePolicy = b.acknowledgePolicy)
    "interrupt source has conflicting owners or policies"
  require (group.events = []) "shared interrupt sources are not implemented"
  return {
    keys := scan.keys ++ [b.event]
    groups := setItem b.source (group.append b) scan.groups
    entries := setItem b.entry b.source scan.entries }

/-- One turn of the loop over the bindings. -/
def Scan.step (scan : Scan) (binding : Value F) : Except Error Scan := do
  scan.add (← checkBinding binding)

/-- `_validate_plan`. -/
def validatePlan (plan : Value F) : Except Error (Value F) := do
  require (plan.hasFields planFields) "invalid interrupt plan fields"
  checkHeader plan
  let (demands, bindings) ← eventLists (← plan.item "demands") (← plan.item "bindings")
  require (demands.length = bindings.length) "interrupt demands and bindings differ"
  let demandKeys ← demands.mapM checkDemand
  require (demandKeys = demandKeys.toFinset.sort (· ≤ ·))
    "interrupt demands are duplicated or unordered"
  checkContext (← plan.item "deferred_context") demands
  let scan ← bindings.foldlM Scan.step ⟨[], [], []⟩
  require (scan.keys = demandKeys) "interrupt bindings do not equal demands"
  let sourceGroups ← plan.item "source_groups"
  require (sourceGroups.eq (.list ((canonicalGroups scan.groups).map groupValue)))
    "interrupt source groups do not match bindings"
  let fingerprint ← plan.item "fingerprint"
  require (fingerprint.eq (.str (sha256 (json (unsigned plan)))))
    "interrupt plan fingerprint mismatch"
  return plan

end Validate

/-! ### `decode` -/

namespace Reader

def take (size : Nat) : Codec.Reader Error (List UInt8) := fun data =>
  if size > data.length then .error (.plan "truncated interrupt record")
  else .ok (data.take size, data.drop size)

def byte : Codec.Reader Error Nat := do
  match ← take 1 with
  | b :: _ => return b.toNat
  | [] => throw .indexError

/-- `struct.unpack` of one unsigned little-endian number of `size` bytes. -/
def unpack (size : Nat) (raw : List UInt8) : Codec.Reader Error Nat :=
  if raw.length = size then return fromLe raw else throw .structError

def word : Codec.Reader Error Nat := do unpack 2 (← take 2)

def dword : Codec.Reader Error Nat := do unpack 4 (← take 4)

/-- `raw.decode("utf-8")`. -/
def utf8 (raw : List UInt8) : Codec.Reader Error String :=
  match Utf8.decode raw with
  | some value => return value
  | none => throw (.plan "invalid UTF-8 interrupt key")

def text : Codec.Reader Error String := do utf8 (← take (← byte))

end Reader

/-- `_event`. -/
def readEvent : Codec.Reader Error (EventIdentity String) := do
  let instance' ← Reader.text
  let request ← Reader.text
  let kind ← Reader.text
  return ⟨instance', request, kind⟩

def readDemand : Codec.Reader Error (Demand String) := do
  let event ← readEvent
  let handler ← Reader.text
  let context ← Reader.text
  let delivery ← Reader.text
  return ⟨event, handler, context, delivery⟩

def readFlag : Codec.Reader Error Bool := do
  let flag ← Reader.byte
  require (flag = 0 ∨ flag = 1) "invalid shared-source flag"
  return flag ≠ 0

def readBinding : Codec.Reader Error (BindingRecord String) := do
  let event ← readEvent
  let owner ← Reader.text
  let configuration ← Reader.text
  let source ← Reader.text
  let selector ← Reader.text
  let entry ← Reader.text
  let snapshotPolicy ← Reader.text
  let acknowledgePolicy ← Reader.text
  let dispatchOrder ← Reader.word
  let sharedSource ← readFlag
  return ⟨event, owner, configuration, source, selector, entry, snapshotPolicy,
    acknowledgePolicy, dispatchOrder, sharedSource⟩

/-- The record up to its checksum. -/
def readContent (data : List UInt8) : Codec.Reader Error (PlanContent String) := do
  let magic ← Reader.take 4
  require (magic = [71, 73, 82, 81]) "invalid interrupt record magic"
  let schema ← Reader.word
  require (schema = SCHEMA) "unsupported interrupt schema"
  let length ← Reader.dword
  require (length = data.length) "interrupt record length mismatch"
  let demandCount ← Reader.word
  let bindingCount ← Reader.word
  let backend ← Reader.text
  let target ← Reader.text
  let board ← Reader.text
  let compiler ← Reader.text
  let application ← Reader.text
  let capacity ← Reader.word
  let policy ← Reader.text
  let demands ← many readDemand demandCount
  let bindings ← many readBinding bindingCount
  return ⟨backend, target, board, compiler, application, capacity, policy, demands, bindings⟩

/-- The checksum loop, kept to 32 bits by a mask. -/
def checksum (data : List UInt8) : Nat :=
  data.foldl (fun actual byte => ((actual ^^^ byte.toNat) * 16777619) &&& 0xffffffff) 2166136261

def decode (data : List UInt8) : Except Error (Value F) := do
  let (content, left) ← readContent data data
  require (left.length = 4) "interrupt record trailing bytes"
  let (expected, _) ← Reader.dword left
  require (expected = checksum (data.take (data.length - 4))) "interrupt record checksum mismatch"
  validatePlan sha256 json (planValue sha256 json content)

end Grevir.Irqgen
