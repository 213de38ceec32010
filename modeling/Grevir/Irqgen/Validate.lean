import Grevir.Support.Checks
import Grevir.Interrupt.Valid
import Grevir.Irqgen.Protocol

/-!
# Irqgen — Validate

What `_validate_plan` accepts: a document that represents some content, where the content is valid.
Whatever it is given it fails with nothing but a `PlanError`.

* `validatePlan_answers`: the answer, for any value.
* `validatePlan_planValue`: the plan of some content is accepted exactly when the content is valid.
-/

namespace Grevir.Irqgen

open Interrupt Json

/-- The exception is a `PlanError`. -/
def Error.IsPlanError (e : Error) : Prop := ∃ message, e = .plan message

theorem require_answers {P : Prop} [Decidable P] (message : String) :
    Answers Error.IsPlanError (require P message) fun _ => P := by
  by_cases h : P
  · rw [require, if_pos h]
    exact (Answers.pure ()).congr fun _ => iff_of_true rfl h
  · rw [require, if_neg h]
    exact (Answers.throw ⟨message, rfl⟩).congr fun _ => (iff_false_intro h).symm

/-! ### Valid content -/

/-- The words of the generator. -/
abbrev vocabulary : Vocabulary String where
  identifier := identifier
  backends := BACKENDS
  routes := handlerRoutes
  mainLoop := "main_loop"
  empty := ""

abbrev ValidDemand : Demand String → Prop := vocabulary.ValidDemand

abbrev ValidBinding : BindingRecord String → Prop := vocabulary.ValidBinding

abbrev deferred : List (Demand String) → Bool := vocabulary.deferred

abbrev ValidContext : List (Demand String) → Nat → String → Prop := vocabulary.ValidContext

/-- **The content `_validate_plan` accepts.** -/
abbrev Valid : PlanContent String → Prop := vocabulary.Valid

theorem Valid.capacity_lt {p : PlanContent String} (h : Valid p) : p.capacity < 2 ^ 16 := by
  have hcontext := h.context
  unfold Vocabulary.ValidContext at hcontext
  split at hcontext
  · exact hcontext.1.2.trans_lt (by decide)
  · rw [hcontext.1]
    decide

theorem identifier_ascii {s : String} (h : identifier s) : Utf8.Ascii s := by
  simp only [identifier, Bool.and_eq_true, List.all_eq_true, decide_eq_true_eq] at h
  exact fun c hc => (h.2 c hc).1

theorem identifier_route : ∀ r ∈ handlerRoutes, identifier r.1 ∧ identifier r.2.1 ∧ identifier r.2.2 := by
  decide

/-- Every text of a valid plan is an identifier; only the policy may be empty. -/
theorem Valid.texts {p : PlanContent String} (h : Valid p) : ∀ t ∈ p.texts, identifier t ∨ t = "" := by
  have hpolicy : identifier p.policy ∨ p.policy = "" := by
    have hcontext := h.context
    unfold Vocabulary.ValidContext at hcontext
    split at hcontext
    · exact .inl hcontext.2
    · exact .inr hcontext.2
  have hdemand : ∀ d ∈ p.demands, ∀ t ∈ d.texts, identifier t ∨ t = "" := by
    intro d hd
    obtain ⟨hh, hc, hdel⟩ := identifier_route _ (h.demands d hd).route
    refine List.forall_mem_append.mpr ⟨fun t ht => .inl ((h.demands d hd).event t ht), ?_⟩
    simp only [List.forall_mem_cons]
    exact ⟨.inl hh, .inl hc, .inl hdel, by simp⟩
  simp only [PlanContent.texts, List.forall_mem_append, List.forall_mem_flatMap, List.forall_mem_cons]
  exact ⟨⟨⟨fun t ht => .inl (h.header t ht), hpolicy, by simp⟩, hdemand⟩,
    fun b hb => ⟨fun t ht => .inl ((h.bindings b hb).event t ht),
      fun t ht => .inl ((h.bindings b hb).texts t ht)⟩⟩

variable {F : Type}

/-! ### Documents -/

/-- `v[field]` is the string `t`. -/
def HasText (v : Value F) (field t : String) : Prop := v.item field = .ok (.str t)

structure IsEvent (v : Value F) (e : EventIdentity String) : Prop where
  fields : v.hasFields eventFields
  identifiers : v.values.all isIdentifier
  key : key v = .ok e

structure IsDemand (v : Value F) (d : Demand String) : Prop where
  fields : v.hasFields demandFields
  event : ∃ event, v.item "event" = .ok event ∧ IsEvent event d.event
  handler : HasText v "handler" d.handler
  context : HasText v "context" d.context
  delivery : HasText v "delivery" d.delivery

structure IsBinding (v : Value F) (b : BindingRecord String) : Prop where
  fields : v.hasFields bindingFields
  event : ∃ event, v.item "event" = .ok event ∧ IsEvent event b.event
  texts : List.Forall₂ (HasText v) TEXT_FIELDS b.texts
  dispatchOrder : v.item "dispatch_order" = .ok (.int b.dispatchOrder)
  sharedSource : v.item "shared_source" = .ok (.bool b.sharedSource)

structure IsContext (v : Value F) (capacity : Nat) (policy : String) : Prop where
  fields : v.hasFields contextFields
  capacity : v.item "capacity" = .ok (.int capacity)
  policy : HasText v "policy" policy

variable [PyFloat F] (sha256 : List UInt8 → String) (json : Value F → List UInt8)

/-- **The value is a plan of this content**, with its source groups and its fingerprint. -/
structure Represents (v : Value F) (p : PlanContent String) : Prop where
  fields : v.hasFields planFields
  schema : v.item "schema" = .ok (.int SCHEMA)
  header : List.Forall₂ (HasText v) headerFields p.header
  demands : ∃ demands, v.item "demands" = .ok (.list demands) ∧
    List.Forall₂ IsDemand demands p.demands
  bindings : ∃ bindings, v.item "bindings" = .ok (.list bindings) ∧
    List.Forall₂ IsBinding bindings p.bindings
  context : ∃ context, v.item "deferred_context" = .ok context ∧
    IsContext context p.capacity p.policy
  groups : ∃ groups, v.item "source_groups" = .ok groups ∧
    groups.eq (.list ((sourceGroups p.bindings).map groupValue))
  fingerprint : HasText v "fingerprint" (sha256 (json (unsigned v)))

omit [PyFloat F]

/-! ### Subscripts -/

theorem item_of_hasFields {v : Value F} {fields : List String} {field : String}
    (h : v.hasFields fields) (hfield : field ∈ fields) : ∃ w, v.item field = .ok w := by
  cases v with
  | dict items =>
      simp only [Value.hasFields, Bool.and_eq_true, List.all_eq_true, List.any_eq_true,
        decide_eq_true_eq] at h
      obtain ⟨item, hitem, hkey⟩ := h.2 field hfield
      have hsome : (items.lookup field).isSome :=
        List.lookup_isSome_iff.mpr ⟨item, hitem, by simp [hkey]⟩
      obtain ⟨w, hw⟩ := Option.isSome_iff_exists.mp hsome
      exact ⟨w, by rw [Value.item, hw]⟩
  | _ => simp [Value.hasFields] at h

theorem item_answers {v : Value F} {fields : List String} {field : String}
    (h : v.hasFields fields) (hfield : field ∈ fields) :
    Answers Error.IsPlanError (v.item field) fun w => v.item field = .ok w :=
  .known (item_of_hasFields h hfield)

theorem mem_values_of_item {v w : Value F} {field : String} (h : v.item field = .ok w) :
    w ∈ v.values := by
  cases v with
  | dict items =>
      simp only [Value.item] at h
      split at h
      · next x hx =>
        cases h
        obtain ⟨l₁, l₂, rfl, -⟩ := List.lookup_eq_some_iff.mp hx
        simp [Value.values]
      · cases h
  | _ => cases h

theorem isIdentifier_iff {v : Value F} : isIdentifier v ↔ ∃ s, v = .str s ∧ identifier s := by
  cases v <;> simp [isIdentifier]

theorem eq_str [PyFloat F] {v : Value F} {s : String} : v.eq (.str s) ↔ v = .str s := by
  cases v <;> simp [Value.eq, Value.number]

theorem HasText.unique {v : Value F} {field t t' : String} (h : HasText v field t)
    (h' : HasText v field t') : t = t' := by
  rw [HasText, h] at h'
  simpa using h'

theorem hasText_unique {v : Value F} : Relator.RightUnique (HasText v) :=
  fun _ _ _ => HasText.unique

/-- A field checked to be an identifier. -/
theorem identifier_answers {v : Value F} {fields : List String} {field : String} (message : String)
    (h : v.hasFields fields) (hfield : field ∈ fields) :
    Answers Error.IsPlanError (do
        let value ← v.item field
        require (isIdentifier value) message)
      fun _ => ∃ t, HasText v field t ∧ identifier t := by
  refine ((item_answers h hfield).bind fun w _ => require_answers message).congr fun _ => ?_
  constructor
  · rintro ⟨w, hw, hid⟩
    obtain ⟨t, rfl, ht⟩ := isIdentifier_iff.mp hid
    exact ⟨t, hw, ht⟩
  · rintro ⟨t, hw, ht⟩
    exact ⟨_, hw, isIdentifier_iff.mpr ⟨t, rfl, ht⟩⟩

/-- Where every answer has a property, so does the answer of each member. -/
theorem exists_of_forall₂ {α β : Type} {R : α → β → Prop} {P : β → Prop} {as : List α}
    {bs : List β} (h : List.Forall₂ R as bs) (hbs : ∀ b ∈ bs, P b) : ∀ a ∈ as, ∃ b, R a b ∧ P b := by
  induction h with
  | nil => simp
  | cons hab _ ih =>
      rw [List.forall_mem_cons] at hbs ⊢
      exact ⟨⟨_, hab, hbs.1⟩, ih hbs.2⟩

theorem eq_of_forall₂ {α : Type} {as bs : List α} (h : List.Forall₂ (fun a b => b = a) as bs) :
    bs = as := by
  induction h with
  | nil => rfl
  | cons hab _ ih => rw [hab, ih]

/-! ### Events -/

theorem text_eq_ok {v : Value F} {t : String} : text v = .ok t ↔ v = .str t := by
  cases v <;> simp [text]

theorem key_eq_ok {v : Value F} {e : EventIdentity String} :
    key v = .ok e ↔ List.Forall₂ (HasText v) eventFields e.texts := by
  obtain ⟨i, r, k⟩ := e
  simp only [key, except_bind_eq_ok, text_eq_ok, pure, Except.pure, Except.ok.injEq,
    EventIdentity.mk.injEq, eventFields, EventIdentity.texts, List.forall₂_cons,
    List.forall₂_nil_left_iff, HasText]
  constructor
  · rintro ⟨_, hi, _, rfl, _, hr, _, rfl, _, hk, _, rfl, rfl, rfl, rfl⟩
    exact ⟨hi, hr, hk, trivial⟩
  · rintro ⟨hi, hr, hk, -⟩
    exact ⟨_, hi, _, rfl, _, hr, _, rfl, _, hk, _, rfl, rfl, rfl, rfl⟩

theorem exists_key {v : Value F} (h : v.hasFields eventFields) (hid : v.values.all isIdentifier) :
    ∃ e, key v = .ok e := by
  have htext : ∀ field ∈ eventFields, ∃ t, HasText v field t := by
    intro field hfield
    obtain ⟨w, hw⟩ := item_of_hasFields h hfield
    obtain ⟨t, rfl, -⟩ := isIdentifier_iff.mp (List.all_eq_true.mp hid w (mem_values_of_item hw))
    exact ⟨t, hw⟩
  simp only [eventFields, List.forall_mem_cons] at htext
  obtain ⟨⟨i, hi⟩, ⟨r, hr⟩, ⟨k, hk⟩, -⟩ := htext
  exact ⟨⟨i, r, k⟩, key_eq_ok.mpr (.cons hi (.cons hr (.cons hk .nil)))⟩

theorem key_answers {v : Value F} (h : v.hasFields eventFields)
    (hid : v.values.all isIdentifier) : Answers Error.IsPlanError (key v) (IsEvent v) :=
  (Answers.known (exists_key h hid)).congr fun _ =>
    ⟨fun hkey => ⟨h, hid, hkey⟩, fun he => he.key⟩

theorem IsEvent.texts_identifier {v : Value F} {e : EventIdentity String} (h : IsEvent v e) :
    ∀ t ∈ e.texts, identifier t := by
  have hid : ∀ {field t}, HasText v field t → identifier t := by
    intro field t ht
    obtain ⟨_, heq, hid⟩ := isIdentifier_iff.mp
      (List.all_eq_true.mp h.identifiers _ (mem_values_of_item ht))
    cases heq
    exact hid
  have hkey := key_eq_ok.mp h.key
  simp only [eventFields, EventIdentity.texts, List.forall₂_cons] at hkey
  obtain ⟨hi, hr, hk, -⟩ := hkey
  simp only [EventIdentity.texts, List.forall_mem_cons]
  exact ⟨hid hi, hid hr, hid hk, by simp⟩

/-! ### Demands -/

theorem checkDemand_answers [PyFloat F] (v : Value F) :
    Answers Error.IsPlanError (checkDemand v) fun e =>
      ∃ d, IsDemand v d ∧ ValidDemand d ∧ d.event = e := by
  refine Answers.congr (Answers.check (require_answers _) fun hfields =>
    (item_answers hfields (by decide)).bind fun event _ =>
    Answers.check (require_answers _) fun hevent =>
    Answers.check (require_answers _) fun hids =>
    (item_answers hfields (by decide)).bind fun handler _ =>
    (item_answers hfields (by decide)).bind fun context _ =>
    (item_answers hfields (by decide)).bind fun delivery _ =>
    Answers.check (require_answers _) fun _ => key_answers hevent hids) fun e => ?_
  simp only [List.any_eq_true, Bool.and_eq_true, eq_str]
  constructor
  · rintro ⟨hfields, event, hev, hevent, hids, _, hh, _, hc, _, hd, ⟨r, hr, ⟨rfl, rfl⟩, rfl⟩, he⟩
    exact ⟨⟨e, r.1, r.2.1, r.2.2⟩, ⟨hfields, ⟨event, hev, he⟩, hh, hc, hd⟩,
      ⟨he.texts_identifier, hr⟩, rfl⟩
  · rintro ⟨d, ⟨hfields, ⟨event, hev, he⟩, hh, hc, hd⟩, hvalid, rfl⟩
    exact ⟨hfields, event, hev, he.fields, he.identifiers, _, hh, _, hc, _, hd,
      ⟨_, hvalid.route, ⟨rfl, rfl⟩, rfl⟩, he⟩

/-! ### Bindings -/

theorem checkOrder_answers (v : Value F) :
    Answers Error.IsPlanError (checkOrder v) fun n => v = .int n ∧ n ≤ 65535 := by
  cases v with
  | int order =>
      refine Answers.congr (Answers.check (require_answers _) fun _ => Answers.pure _) fun n => ?_
      rw [Value.int.injEq]
      omega
  | _ => exact (Answers.throw ⟨_, rfl⟩).congr fun n => by simp

theorem checkShared_answers (v : Value F) :
    Answers Error.IsPlanError (checkShared v) fun shared => v = .bool shared ∧ shared = false := by
  cases v with
  | bool flag =>
      refine Answers.congr (Answers.check (require_answers _) fun _ => Answers.pure _) fun n => ?_
      rw [Value.bool.injEq]
      exact ⟨fun h => ⟨h.2.symm, h.2.trans h.1⟩, fun h => ⟨h.1.trans h.2, h.1.symm⟩⟩
  | _ => exact (Answers.throw ⟨_, rfl⟩).congr fun n => by simp

/-- A text field, then the rest. -/
theorem textItem_answers {β : Type} {v : Value F} {field : String} {f : String → Except Error β}
    {R : String → β → Prop} (h : ∃ t, HasText v field t ∧ identifier t)
    (hf : ∀ t, Answers Error.IsPlanError (f t) (R t)) :
    Answers Error.IsPlanError (do
        let value ← v.item field
        let t ← text value
        f t)
      fun b => ∃ t, HasText v field t ∧ R t b := by
  obtain ⟨t, ht, -⟩ := h
  refine Answers.congr (Answers.value ht (hf t)) fun b => ⟨fun hb => ⟨t, ht, hb⟩, ?_⟩
  rintro ⟨t', ht', hb⟩
  rwa [ht.unique ht']

theorem checkBinding_answers [PyFloat F] (v : Value F) :
    Answers Error.IsPlanError (checkBinding v) fun b => IsBinding v b ∧ ValidBinding b := by
  refine Answers.congr (Answers.check (require_answers _) fun hfields =>
    (item_answers hfields (by decide)).bind fun event _ =>
    Answers.check (require_answers _) fun hevent =>
    Answers.check (require_answers _) fun hids =>
    (key_answers hevent hids).bind fun e he =>
    Answers.check (Answers.forM fun field hfield =>
      identifier_answers _ hfields (List.mem_cons_of_mem _ (List.mem_append_left _ hfield)))
      fun htexts =>
    (item_answers hfields (by decide)).bind fun order _ =>
    (checkOrder_answers order).bind fun n hn =>
    (item_answers hfields (by decide)).bind fun shared _ =>
    (checkShared_answers shared).bind fun flag hflag =>
    textItem_answers (htexts _ (by decide)) fun owner =>
    textItem_answers (htexts _ (by decide)) fun configuration =>
    textItem_answers (htexts _ (by decide)) fun source =>
    textItem_answers (htexts _ (by decide)) fun selector =>
    textItem_answers (htexts _ (by decide)) fun entry =>
    textItem_answers (htexts _ (by decide)) fun snapshotPolicy =>
    textItem_answers (htexts _ (by decide)) fun acknowledgePolicy => Answers.pure _) fun b => ?_
  constructor
  · rintro ⟨hfields, event, hev, -, -, e, he, htexts, _, hn, n, ⟨rfl, hle⟩, _, hs, flag,
      ⟨rfl, hflag⟩, o, ho, c, hc, s, hsrc, sel, hsel, en, hen, sn, hsn, ack, hack, rfl⟩
    have hid : ∀ field ∈ TEXT_FIELDS, ∀ t, HasText v field t → identifier t := by
      intro field hfield t ht
      obtain ⟨t', ht', h⟩ := htexts field hfield
      rwa [ht.unique ht']
    refine ⟨⟨hfields, ⟨event, hev, he⟩, ?_, hn, hs⟩, he.texts_identifier, ?_, hle, hflag⟩
    · exact .cons ho (.cons hc (.cons hsrc (.cons hsel (.cons hen (.cons hsn (.cons hack .nil))))))
    · simp only [BindingRecord.texts, List.forall_mem_cons]
      exact ⟨hid _ (by decide) _ ho, hid _ (by decide) _ hc, hid _ (by decide) _ hsrc,
        hid _ (by decide) _ hsel, hid _ (by decide) _ hen, hid _ (by decide) _ hsn,
        hid _ (by decide) _ hack, by simp⟩
  · rintro ⟨⟨hfields, ⟨event, hev, he⟩, htexts, hn, hs⟩, hvalid⟩
    refine ⟨hfields, event, hev, he.fields, he.identifiers, b.event, he,
      exists_of_forall₂ htexts hvalid.texts, _, hn, _, ⟨rfl, hvalid.dispatchOrder⟩, _, hs, _,
      ⟨rfl, hvalid.sharedSource⟩, ?_⟩
    simp only [TEXT_FIELDS, BindingRecord.texts, List.forall₂_cons] at htexts
    obtain ⟨ho, hc, hsrc, hsel, hen, hsn, hack, -⟩ := htexts
    exact ⟨_, ho, _, hc, _, hsrc, _, hsel, _, hen, _, hsn, _, hack, rfl⟩

/-! ### The scan over the bindings -/

/-- What the scan has gathered after bindings of distinct sources and entries. -/
def Scan.of (done : List (BindingRecord String)) : Scan where
  keys := done.map (·.event)
  groups := done.map fun b => (b.source, (Group.new b).append b)
  entries := done.map fun b => (b.entry, b.source)

omit F in
theorem lookup_map_eq_none {α β : Type} {f : α → String} {g : α → β} {l : List α} {k : String} :
    (l.map fun a => (f a, g a)).lookup k = none ↔ k ∉ l.map f := by
  rw [List.lookup_eq_none_iff, List.forall_mem_map]
  simp only [bne_iff_ne, List.mem_map, not_exists, not_and, ne_eq, @eq_comm _ k]

theorem mem_of_lookup {β : Type} {l : List (String × β)} {k : String} {v : β}
    (h : l.lookup k = some v) : (k, v) ∈ l := by
  obtain ⟨l₁, l₂, rfl, -⟩ := List.lookup_eq_some_iff.mp h
  simp

theorem setItem_groups {done : List (BindingRecord String)} {b : BindingRecord String}
    (h : b.source ∉ done.map (·.source)) :
    setItem b.source ((Group.new b).append b) (Scan.of done).groups =
      (Scan.of (done ++ [b])).groups := by
  rw [setItem_of_notMem _ (by simpa [Scan.of] using h)]
  simp [Scan.of]

/-- One binding is added when neither its source nor its entry was there before. -/
theorem Scan.add_answers (done : List (BindingRecord String)) (b : BindingRecord String) :
    Answers Error.IsPlanError ((Scan.of done).add b) fun scan =>
      (b.source ∉ done.map (·.source) ∧ b.entry ∉ done.map (·.entry)) ∧
        scan = Scan.of (done ++ [b]) := by
  refine Answers.congr (Answers.check (require_answers _) fun _ =>
    Answers.check (require_answers _) fun _ =>
    Answers.check (require_answers _) fun _ => Answers.pure _) fun scan => ?_
  by_cases hs : b.source ∈ done.map (·.source)
  · -- the group of the source has an event already
    refine iff_of_false ?_ fun h => h.1.1 hs
    rintro ⟨-, -, hevents, -⟩
    cases hg : (Scan.of done).groups.lookup b.source with
    | none => exact lookup_map_eq_none.mp hg hs
    | some g =>
        rw [hg] at hevents
        obtain ⟨x, -, hx⟩ := List.mem_map.mp (mem_of_lookup hg)
        obtain ⟨-, rfl⟩ := Prod.mk.injEq .. ▸ hx
        simp [Group.append] at hevents
  · have hg : (Scan.of done).groups.lookup b.source = none := lookup_map_eq_none.mpr hs
    rw [hg]
    by_cases he : b.entry ∈ done.map (·.entry)
    · -- the entry is taken by another source
      refine iff_of_false ?_ fun h => h.1.2 he
      rintro ⟨hentry, -⟩
      cases hl : (Scan.of done).entries.lookup b.entry with
      | none => exact lookup_map_eq_none.mp hl he
      | some s =>
          obtain ⟨x, hx, heq⟩ := List.mem_map.mp (mem_of_lookup hl)
          have hsrc : x.source = b.source := (congrArg Prod.snd heq).trans (hentry s hl)
          exact hs (List.mem_map.mpr ⟨x, hx, hsrc⟩)
    · have hl : (Scan.of done).entries.lookup b.entry = none := lookup_map_eq_none.mpr he
      have hentries : setItem b.entry b.source (Scan.of done).entries =
          (Scan.of (done ++ [b])).entries := by
        rw [setItem_of_notMem _ (by simpa [Scan.of] using he)]
        simp [Scan.of]
      have hkeys : (Scan.of done).keys ++ [b.event] = (Scan.of (done ++ [b])).keys := by
        simp [Scan.of]
      rw [hl, Option.getD_none, setItem_groups hs, hentries, hkeys]
      simp [hs, he, Group.new]

/-- The scan of some bindings after others. -/
theorem scan_answers [PyFloat F] (vs : List (Value F)) (done : List (BindingRecord String))
    (hdone : Exclusive done) :
    Answers Error.IsPlanError (vs.foldlM Scan.step (Scan.of done)) fun scan =>
      ∃ bs, List.Forall₂ IsBinding vs bs ∧ (∀ b ∈ bs, ValidBinding b) ∧ Exclusive (done ++ bs) ∧
        scan = Scan.of (done ++ bs) := by
  induction vs generalizing done with
  | nil =>
      refine (Answers.pure _).congr fun scan => ?_
      simp [hdone]
  | cons v vs ih =>
      rw [List.foldlM_cons, Scan.step, bind_assoc]
      have hrest : ∀ b scan,
          (b.source ∉ done.map (·.source) ∧ b.entry ∉ done.map (·.entry)) ∧
            scan = Scan.of (done ++ [b]) →
          Answers Error.IsPlanError (vs.foldlM Scan.step scan) fun scan =>
            ∃ bs, List.Forall₂ IsBinding vs bs ∧ (∀ b ∈ bs, ValidBinding b) ∧
              Exclusive (done ++ b :: bs) ∧ scan = Scan.of (done ++ b :: bs) := by
        rintro b scan ⟨hfresh, rfl⟩
        refine (ih _ (exclusive_append_singleton.mpr ⟨hdone, hfresh⟩)).congr fun scan => ?_
        simp only [List.append_assoc, List.singleton_append]
      refine Answers.congr ((checkBinding_answers v).bind fun b _ =>
        (Scan.add_answers done b).bind (hrest b)) fun scan => ?_
      simp only [List.forall₂_cons_left_iff]
      constructor
      · rintro ⟨b, ⟨hb, hvalid⟩, -, -, bs, hbs, hvalids, hex, rfl⟩
        exact ⟨b :: bs, ⟨b, bs, hb, hbs, rfl⟩, List.forall_mem_cons.mpr ⟨hvalid, hvalids⟩, hex, rfl⟩
      · rintro ⟨_, ⟨b, bs, hb, hbs, rfl⟩, hvalids, hex, rfl⟩
        rw [List.forall_mem_cons] at hvalids
        have hfresh : Exclusive (done ++ [b]) := by
          refine @Exclusive.of_append _ _ bs ?_
          rwa [List.append_assoc, List.singleton_append]
        exact ⟨b, ⟨hb, hvalids.1⟩, _, ⟨(exclusive_append_singleton.mp hfresh).2, rfl⟩, bs, hbs,
          hvalids.2, hex, rfl⟩

/-- **Of distinct sources, the decoder groups as the scan does.** -/
theorem sourceGroups_eq {bindings : List (BindingRecord String)}
    (h : (bindings.map (·.source)).Nodup) :
    sourceGroups bindings = canonicalGroups (Scan.of bindings).groups := by
  have hfold : ∀ done rest : List (BindingRecord String), ((done ++ rest).map (·.source)).Nodup →
      rest.foldl (fun groups b =>
        let group := (groups.lookup b.source).getD (.new b)
        setItem b.source (group.append b) groups) (Scan.of done).groups =
      (Scan.of (done ++ rest)).groups := by
    intro done rest
    induction rest generalizing done with
    | nil => simp
    | cons b rest ih =>
        intro hnodup
        have hb : b.source ∉ done.map (·.source) := by
          rw [List.map_append, List.map_cons, List.nodup_middle, List.nodup_cons,
            List.mem_append, not_or] at hnodup
          exact hnodup.1.1
        have hl : (Scan.of done).groups.lookup b.source = none := lookup_map_eq_none.mpr hb
        rw [List.foldl_cons, hl, Option.getD_none, setItem_groups hb]
        have hassoc : done ++ b :: rest = (done ++ [b]) ++ rest := by simp
        rw [hassoc] at hnodup ⊢
        exact ih (done ++ [b]) hnodup
  exact congrArg canonicalGroups (hfold [] bindings h)

/-! ### The whole plan -/

theorem checkHeader_answers [PyFloat F] {v : Value F} (h : v.hasFields planFields) :
    Answers Error.IsPlanError (checkHeader v) fun _ =>
      v.item "schema" = .ok (.int SCHEMA) ∧
        (∃ backend ∈ BACKENDS, HasText v "backend" backend) ∧
        ∀ field ∈ headerFields, ∃ t, HasText v field t ∧ identifier t := by
  have hheader : ∀ field ∈ headerFields, field ∈ planFields := by decide
  refine Answers.congr ((item_answers h (by decide)).bind fun schema _ =>
    Answers.check (require_answers _) fun _ =>
    (item_answers h (by decide)).bind fun backend _ =>
    Answers.check (require_answers _) fun _ =>
    Answers.forM fun field hfield => identifier_answers _ h (hheader field hfield)) fun _ => ?_
  simp only [List.any_eq_true, eq_str]
  constructor
  · rintro ⟨schema, hschema, ⟨heq, hint⟩, backend, hb, ⟨b, hmem, rfl⟩, htexts⟩
    refine ⟨?_, ⟨b, hmem, hb⟩, htexts⟩
    cases schema with
    | int n =>
        simp only [Value.eq, Value.number, Value.numberEq, decide_eq_true_eq] at heq
        rw [hschema, heq]
    | _ => simp [isInt] at hint
  · rintro ⟨hschema, ⟨b, hmem, hb⟩, htexts⟩
    refine ⟨_, hschema, ⟨?_, rfl⟩, _, hb, ⟨b, hmem, rfl⟩, htexts⟩
    simp [Value.eq, Value.number, Value.numberEq]

theorem anyDeferred_eq [PyFloat F] {vs : List (Value F)} {ds : List (Demand String)}
    (h : List.Forall₂ IsDemand vs ds) : anyDeferred vs = .ok (deferred ds) := by
  induction h with
  | nil => rfl
  | @cons v d vs ds hd _ ih =>
      have hcontext : v.item "context" = .ok (.str d.context) := hd.context
      rw [anyDeferred, hcontext, ih]
      show (if _ then _ else _) = _
      by_cases hmain : d.context = "main_loop"
      · rw [if_pos (eq_str.mpr (by rw [hmain]))]
        simp [Vocabulary.deferred, hmain, pure, Except.pure]
      · rw [if_neg fun heq => hmain (by simpa using eq_str.mp heq)]
        simp [Vocabulary.deferred, hmain]

/-- The two cases of the deferred context, over the numbers as they are read. -/
theorem validContext_iff {ds : List (Demand String)} {n : Int} {t : String} :
    (if deferred ds then (1 ≤ n ∧ n ≤ 2048) ∧ identifier t else n = 0 ∧ t = "") ↔
      ∃ capacity : Nat, n = capacity ∧ ValidContext ds capacity t := by
  unfold ValidContext Vocabulary.ValidContext
  by_cases h : deferred ds
  · simp only [if_pos h]
    constructor
    · rintro ⟨hn, ht⟩
      exact ⟨n.toNat, by omega, by omega, ht⟩
    · rintro ⟨capacity, rfl, hn, ht⟩
      exact ⟨by omega, ht⟩
  · simp only [if_neg h]
    constructor
    · rintro ⟨rfl, ht⟩
      exact ⟨0, rfl, rfl, ht⟩
    · rintro ⟨capacity, rfl, rfl, ht⟩
      exact ⟨rfl, ht⟩

theorem checkContextFields_answers (ds : List (Demand String)) (capacity policy : Value F) :
    Answers Error.IsPlanError (checkContextFields (deferred ds) capacity policy) fun _ =>
      ∃ n t, capacity = .int (n : Nat) ∧ policy = .str t ∧ ValidContext ds n t := by
  cases capacity with
  | int n =>
      cases policy with
      | str t =>
          have hiff := @validContext_iff ds n t
          rw [checkContextFields]
          simp only [Value.int.injEq, Value.str.injEq]
          by_cases hd : deferred ds
          · rw [if_pos hd] at hiff ⊢
            refine (require_answers _).congr fun _ => hiff.trans ?_
            simp
          · rw [if_neg hd] at hiff ⊢
            refine (require_answers _).congr fun _ => hiff.trans ?_
            simp
      | _ => exact (Answers.throw ⟨_, rfl⟩).congr fun _ => by simp
  | _ => exact (Answers.throw ⟨_, rfl⟩).congr fun _ => by simp

theorem checkContext_answers [PyFloat F] (context : Value F) {vs : List (Value F)}
    {ds : List (Demand String)} (h : List.Forall₂ IsDemand vs ds) :
    Answers Error.IsPlanError (checkContext context vs) fun _ =>
      ∃ capacity policy, IsContext context capacity policy ∧ ValidContext ds capacity policy := by
  refine Answers.congr (Answers.check (require_answers _) fun hfields =>
    (item_answers hfields (by decide)).bind fun capacity _ =>
    (item_answers hfields (by decide)).bind fun policy _ =>
    Answers.value (anyDeferred_eq h) (checkContextFields_answers ds capacity policy)) fun _ => ?_
  constructor
  · rintro ⟨hfields, _, hc, _, hp, n, t, rfl, rfl, hvalid⟩
    exact ⟨n, t, ⟨hfields, hc, hp⟩, hvalid⟩
  · rintro ⟨n, t, ⟨hfields, hc, hp⟩, hvalid⟩
    exact ⟨hfields, _, hc, _, hp, n, t, rfl, rfl, hvalid⟩

/-- A list is the sort of its members when it is strictly increasing. -/
theorem eq_sort_toFinset {α : Type} [DecidableEq α] [LinearOrder α] {l : List α} :
    l = l.toFinset.sort (· ≤ ·) ↔ l.Pairwise (· < ·) := by
  constructor
  · intro h
    rw [h]
    exact (Finset.sortedLT_sort _).pairwise
  · intro h
    exact ((List.toFinset_sort (· ≤ ·) h.nodup).mpr (h.imp le_of_lt)).symm

theorem eventLists_answers (demands bindings : Value F) :
    Answers Error.IsPlanError (eventLists demands bindings) fun lists =>
      demands = .list lists.1 ∧ bindings = .list lists.2 := by
  cases demands with
  | list ds =>
      cases bindings with
      | list bs => exact (Answers.pure _).congr fun lists => by simp [Prod.ext_iff, eq_comm]
      | _ => exact (Answers.throw ⟨_, rfl⟩).congr fun _ => by simp
  | _ => exact (Answers.throw ⟨_, rfl⟩).congr fun _ => by simp

theorem IsDemand.unique : Relator.RightUnique (IsDemand : Value F → Demand String → Prop) := by
  rintro v ⟨e, h, c, d⟩ ⟨e', h', c', d'⟩ hd hd'
  obtain ⟨event, hev, he⟩ := hd.event
  obtain ⟨event', hev', he'⟩ := hd'.event
  rw [hev] at hev'
  cases hev'
  have hkey : e = e' := Except.ok.inj (he.key.symm.trans he'.key)
  have hh : h = h' := hd.handler.unique hd'.handler
  have hc : c = c' := hd.context.unique hd'.context
  have hdel : d = d' := hd.delivery.unique hd'.delivery
  rw [hkey, hh, hc, hdel]

theorem demands_answers [PyFloat F] (vs : List (Value F)) :
    Answers Error.IsPlanError (vs.mapM checkDemand) fun keys =>
      ∃ ds, List.Forall₂ IsDemand vs ds ∧ (∀ d ∈ ds, ValidDemand d) ∧ ds.map (·.event) = keys := by
  refine (Answers.mapM checkDemand_answers vs).congr fun keys => ?_
  induction vs generalizing keys with
  | nil => simp
  | cons v vs ih =>
      simp only [List.forall₂_cons_left_iff, ih]
      constructor
      · rintro ⟨_, _, ⟨d, hd, hvalid, rfl⟩, ⟨ds, hds, hvalids, rfl⟩, rfl⟩
        exact ⟨d :: ds, ⟨d, ds, hd, hds, rfl⟩, List.forall_mem_cons.mpr ⟨hvalid, hvalids⟩, rfl⟩
      · rintro ⟨_, ⟨d, ds, hd, hds, rfl⟩, hvalids, rfl⟩
        rw [List.forall_mem_cons] at hvalids
        exact ⟨_, _, ⟨d, hd, hvalids.1, rfl⟩, ⟨ds, hds, hvalids.2, rfl⟩, rfl⟩

section Plan

variable [PyFloat F] (sha256 : List UInt8 → String) (json : Value F → List UInt8)

/-- **Of any value, `_validate_plan` answers the value itself, when it represents valid content, and
else raises `PlanError`.** -/
theorem validatePlan_answers (v : Value F) :
    Answers Error.IsPlanError (validatePlan sha256 json v) fun w =>
      (∃ p, Represents sha256 json v p ∧ Valid p) ∧ w = v := by
  have hnil : Exclusive ([] : List (BindingRecord String)) := ⟨List.nodup_nil, List.nodup_nil⟩
  have hcontext : ∀ (vs : List (Value F)) keys context,
      (∃ ds, List.Forall₂ IsDemand vs ds ∧ (∀ d ∈ ds, ValidDemand d) ∧ ds.map (·.event) = keys) →
      Answers Error.IsPlanError (checkContext context vs) fun _ =>
        ∃ ds capacity policy, List.Forall₂ IsDemand vs ds ∧ IsContext context capacity policy ∧
          ValidContext ds capacity policy := by
    rintro vs keys context ⟨ds, hds, -⟩
    refine (checkContext_answers context hds).congr fun _ => ?_
    constructor
    · rintro ⟨n, t, h⟩
      exact ⟨ds, n, t, hds, h⟩
    · rintro ⟨ds', n, t, hds', h⟩
      rw [IsDemand.unique.forall₂ hds hds']
      exact ⟨n, t, h⟩
  refine Answers.congr (Answers.check (require_answers _) fun hfields =>
    Answers.check (checkHeader_answers hfields) fun _ =>
    (item_answers hfields (by decide)).bind fun demands _ =>
    (item_answers hfields (by decide)).bind fun bindings _ =>
    (eventLists_answers demands bindings).bind fun lists _ =>
    Answers.check (require_answers _) fun _ =>
    (demands_answers lists.1).bind fun keys hkeys =>
    Answers.check (require_answers _) fun _ =>
    (item_answers hfields (by decide)).bind fun context _ =>
    Answers.check (hcontext lists.1 keys context hkeys) fun _ =>
    (scan_answers lists.2 [] hnil).bind fun scan _ =>
    Answers.check (require_answers _) fun _ =>
    (item_answers hfields (by decide)).bind fun groups _ =>
    Answers.check (require_answers _) fun _ =>
    (item_answers hfields (by decide)).bind fun fingerprint _ =>
    Answers.check (require_answers _) fun _ => Answers.pure v) fun w => ?_
  simp only [List.nil_append, eq_str, eq_sort_toFinset]
  constructor
  · rintro ⟨hfields, ⟨hschema, ⟨backend, hmem, hbackend⟩, hheader⟩, _, hdemands, _, hbindings,
      ⟨vs, us⟩, ⟨rfl, rfl⟩, -, _, ⟨ds, hds, hvalids, rfl⟩, hsorted, context, hcontext,
      ⟨ds', n, t, hds', hctx, hvalid⟩, _, ⟨bs, hbs, hvalidbs, hex, rfl⟩, hkeys, groups, hgroups,
      heq, _, hfingerprint, rfl, rfl⟩
    cases IsDemand.unique.forall₂ hds hds'
    simp only [headerFields, List.forall_mem_cons] at hheader
    obtain ⟨⟨b, hb, hb'⟩, ⟨ta, hta, hta'⟩, ⟨bo, hbo, hbo'⟩, ⟨co, hco, hco'⟩, ⟨ap, hap, hap'⟩, -⟩ :=
      hheader
    cases hb.unique hbackend
    rw [← sourceGroups_eq hex.sources] at heq
    exact ⟨⟨⟨backend, ta, bo, co, ap, n, t, ds, bs⟩,
      ⟨hfields, hschema, .cons hb (.cons hta (.cons hbo (.cons hco (.cons hap .nil)))),
        ⟨vs, hdemands, hds⟩, ⟨us, hbindings, hbs⟩, ⟨context, hcontext, hctx⟩, ⟨groups, hgroups, heq⟩,
        hfingerprint⟩,
      ⟨hmem, by simp [PlanContent.header, *], hvalids, hsorted, hvalid, hvalidbs, hex, hkeys⟩⟩, rfl⟩
  · rintro ⟨⟨p, hrep, hvalid⟩, rfl⟩
    obtain ⟨vs, hdemands, hds⟩ := hrep.demands
    obtain ⟨us, hbindings, hbs⟩ := hrep.bindings
    obtain ⟨context, hcontext, hctx⟩ := hrep.context
    obtain ⟨groups, hgroups, heq⟩ := hrep.groups
    have hlen : vs.length = us.length := by
      have h := congrArg List.length hvalid.events
      simp only [List.length_map] at h
      rw [hds.length_eq, hbs.length_eq, h]
    rw [sourceGroups_eq hvalid.exclusive.sources] at heq
    refine ⟨hrep.fields, ⟨hrep.schema, ⟨p.backend, hvalid.backend, ?_⟩,
      exists_of_forall₂ hrep.header hvalid.header⟩, _, hdemands, _, hbindings, (vs, us), ⟨rfl, rfl⟩,
      hlen, _, ⟨_, hds, hvalid.demands, rfl⟩, hvalid.sorted, context, hcontext,
      ⟨_, _, _, hds, hctx, hvalid.context⟩, _, ⟨_, hbs, hvalid.bindings, hvalid.exclusive, rfl⟩,
      hvalid.events, groups, hgroups, heq, _, hrep.fingerprint, rfl, rfl⟩
    have hheader := hrep.header
    simp only [headerFields, PlanContent.header, List.forall₂_cons] at hheader
    exact hheader.1

end Plan

/-! ### The plan of some content -/

theorem IsEvent.eventValue {e : EventIdentity String} (h : ∀ t ∈ e.texts, identifier t) :
    IsEvent (Irqgen.eventValue e : Value F) e where
  fields := rfl
  identifiers := by
    simpa [EventIdentity.texts, Irqgen.eventValue, Value.values, isIdentifier] using h
  key := rfl

theorem IsEvent.eq {e e' : EventIdentity String} (h : IsEvent (Irqgen.eventValue e : Value F) e') :
    e' = e := (Except.ok.inj h.key).symm

theorem IsDemand.demandValue {d : Demand String} (h : ValidDemand d) :
    IsDemand (Irqgen.demandValue d : Value F) d :=
  ⟨rfl, ⟨_, rfl, .eventValue h.event⟩, rfl, rfl, rfl⟩

theorem IsDemand.eq {d d' : Demand String} (h : IsDemand (Irqgen.demandValue d : Value F) d') :
    d' = d := by
  obtain ⟨-, ⟨_, hev, he⟩, hh, hc, hd⟩ := h
  cases hev
  cases d'
  cases he.eq
  cases hh
  cases hc
  cases hd
  rfl

theorem texts_bindingValue (b : BindingRecord String) :
    List.Forall₂ (HasText (bindingValue b : Value F)) TEXT_FIELDS b.texts :=
  .cons rfl (.cons rfl (.cons rfl (.cons rfl (.cons rfl (.cons rfl (.cons rfl .nil))))))

theorem IsBinding.bindingValue {b : BindingRecord String} (h : ValidBinding b) :
    IsBinding (Irqgen.bindingValue b : Value F) b :=
  ⟨rfl, ⟨_, rfl, .eventValue h.event⟩, texts_bindingValue b, rfl, rfl⟩

theorem IsBinding.eq {b b' : BindingRecord String}
    (h : IsBinding (Irqgen.bindingValue b : Value F) b') : b' = b := by
  obtain ⟨-, ⟨_, hev, he⟩, htexts, hn, hs⟩ := h
  have htexts' : b'.texts = b.texts :=
    hasText_unique.forall₂ htexts (texts_bindingValue b)
  cases hev
  cases b'
  cases he.eq
  cases hs
  simp only [BindingRecord.texts, List.cons.injEq, and_true] at htexts'
  obtain ⟨rfl, rfl, rfl, rfl, rfl, rfl, rfl⟩ := htexts'
  cases Int.ofNat.inj (Value.int.inj (Except.ok.inj hn))
  rfl

section Plan

variable [PyFloat F] (sha256 : List UInt8 → String) (json : Value F → List UInt8)

theorem eqList_map_self {α : Type} {f : α → Value F} (h : ∀ a, (f a).eq (f a)) (as : List α) :
    Value.eqList (as.map f) (as.map f) := by
  induction as with
  | nil => rfl
  | cons a as ih => rw [List.map_cons, Value.eqList, h a, ih, Bool.and_self]

theorem eqItems_iff {xs ys : List (String × Value F)} :
    Value.eqItems xs ys ↔ ∀ item ∈ xs, ∃ w, ys.lookup item.1 = some w ∧ item.2.eq w := by
  induction xs with
  | nil => simp [Value.eqItems]
  | cons x xs ih =>
      obtain ⟨k, v⟩ := x
      rw [Value.eqItems, Bool.and_eq_true, ih, List.forall_mem_cons]
      refine and_congr_left' ?_
      cases ys.lookup k <;> simp

/-- A dictionary of distinct keys equals itself when its values do. -/
theorem dict_eq_self {items : List (String × Value F)}
    (h : ∀ item ∈ items, items.lookup item.1 = some item.2 ∧ item.2.eq item.2) :
    (Value.dict items).eq (.dict items) := by
  rw [Value.eq, Bool.and_eq_true]
  exact ⟨by simp, eqItems_iff.mpr fun item hitem => ⟨item.2, h item hitem⟩⟩

theorem eventValue_eq (e : EventIdentity String) :
    (eventValue e : Value F).eq (eventValue e) := by
  refine dict_eq_self ?_
  simp only [List.forall_mem_cons]
  exact ⟨⟨rfl, eq_str.mpr rfl⟩, ⟨rfl, eq_str.mpr rfl⟩, ⟨rfl, eq_str.mpr rfl⟩, by simp⟩

theorem eq_int (n : Int) : (Value.int n : Value F).eq (.int n) := by
  simp [Value.eq, Value.number, Value.numberEq]

theorem groupEventValue_eq (e : GroupEvent) :
    (groupEventValue e : Value F).eq (groupEventValue e) := by
  refine dict_eq_self ?_
  simp only [List.forall_mem_cons]
  exact ⟨⟨rfl, eventValue_eq _⟩, ⟨rfl, eq_str.mpr rfl⟩, ⟨rfl, eq_int _⟩, by simp⟩

theorem groupValue_eq (g : Group) : (groupValue g : Value F).eq (groupValue g) := by
  have hevents : (Value.list (g.events.map groupEventValue) : Value F).eq
      (.list (g.events.map groupEventValue)) := by
    rw [Value.eq]
    exact eqList_map_self groupEventValue_eq _
  refine dict_eq_self ?_
  simp only [List.forall_mem_cons]
  exact ⟨⟨rfl, eq_str.mpr rfl⟩, ⟨rfl, eq_str.mpr rfl⟩, ⟨rfl, eq_str.mpr rfl⟩,
    ⟨rfl, eq_str.mpr rfl⟩, ⟨rfl, eq_str.mpr rfl⟩, ⟨rfl, hevents⟩, by simp⟩

omit [PyFloat F] in
theorem header_planValue (p : PlanContent String) :
    List.Forall₂ (HasText (planValue sha256 json p)) headerFields p.header :=
  .cons rfl (.cons rfl (.cons rfl (.cons rfl (.cons rfl .nil))))

theorem Represents.planValue {p : PlanContent String} (h : Valid p) :
    Represents sha256 json (Irqgen.planValue sha256 json p) p where
  fields := rfl
  schema := rfl
  header := header_planValue sha256 json p
  demands := ⟨_, rfl, by
    rw [List.forall₂_map_left_iff, List.forall₂_same]
    exact fun d hd => .demandValue (h.demands d hd)⟩
  bindings := ⟨_, rfl, by
    rw [List.forall₂_map_left_iff, List.forall₂_same]
    exact fun b hb => .bindingValue (h.bindings b hb)⟩
  context := ⟨_, rfl, rfl, rfl, rfl⟩
  groups := ⟨_, rfl, by
    rw [Value.eq]
    exact eqList_map_self groupValue_eq _⟩
  fingerprint := rfl

theorem Represents.eq {p q : PlanContent String}
    (h : Represents sha256 json (Irqgen.planValue sha256 json p) q) : q = p := by
  obtain ⟨-, -, hheader, ⟨_, hdemands, hds⟩, ⟨_, hbindings, hbs⟩, ⟨_, hcontext, hctx⟩, -, -⟩ := h
  cases hdemands
  cases hbindings
  cases hcontext
  cases q
  have hheader' := hasText_unique.forall₂ hheader (header_planValue sha256 json p)
  simp only [PlanContent.header, List.cons.injEq, and_true] at hheader'
  obtain ⟨rfl, rfl, rfl, rfl, rfl⟩ := hheader'
  rw [List.forall₂_map_left_iff] at hds hbs
  cases eq_of_forall₂ (hds.imp fun _ _ => IsDemand.eq)
  cases eq_of_forall₂ (hbs.imp fun _ _ => IsBinding.eq)
  cases Int.ofNat.inj (Value.int.inj (Except.ok.inj hctx.capacity))
  cases hctx.policy
  rfl

/-- **The plan of some content is accepted exactly when the content is valid.** -/
theorem validatePlan_planValue (p : PlanContent String) :
    validatePlan sha256 json (planValue sha256 json p) = .ok (planValue sha256 json p) ↔ Valid p := by
  rw [(validatePlan_answers sha256 json _).ok_iff]
  constructor
  · rintro ⟨⟨q, hrep, hvalid⟩, -⟩
    cases hrep.eq
    exact hvalid
  · intro h
    exact ⟨⟨p, .planValue sha256 json h, h⟩, rfl⟩

end Plan

end Grevir.Irqgen
