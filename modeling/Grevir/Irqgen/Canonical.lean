import Grevir.Support.JsonText
import Grevir.Irqgen.Validate

/-!
# Irqgen — Canonical

The canonical text of a plan, and its parser, which accepts a text only if it is the canonical text of
what it says.

* `parseCanonical_answers`: what the parser accepts.
* `parseCanonical_canonicalBytes`: the text of some content is accepted, as the plan with its keys in
  order.
-/

namespace Grevir.Irqgen

open Interrupt Json

variable {F : Type} [FloatText F]

/-- `_json`, and the text of the ready marker. -/
def jsonBytes (value : Value F) : List UInt8 :=
  Utf8.bytes (String.ofList (dumps 0 value ++ ['\n']))

/-- `json.loads` of bytes.  It knows other encodings than UTF-8, of which none is canonical. -/
def loadsBytes (data : List UInt8) : Option (Value F) := do
  let text ← Utf8.decode data
  loads text.toList

variable [PyFloat F] (sha256 : List UInt8 → String)

/-- `canonical_bytes`. -/
def canonicalBytes (plan : Value F) : Except Error (List UInt8) := do
  return jsonBytes (← validatePlan sha256 jsonBytes plan)

/-- `parse_canonical`. -/
def parseCanonical (data : List UInt8) : Except Error (Value F) :=
  match loadsBytes data with
  | none => throw (.plan "invalid interrupt plan JSON")
  | some plan => do
      require ((← canonicalBytes sha256 plan) = data) "interrupt plan JSON is not canonical"
      return plan

/-! ### What is accepted -/

theorem canonicalBytes_answers (plan : Value F) :
    Answers Error.IsPlanError (canonicalBytes sha256 plan) fun data =>
      (∃ p, Represents sha256 jsonBytes plan p ∧ Valid p) ∧ data = jsonBytes plan := by
  refine ((validatePlan_answers sha256 jsonBytes plan).bind fun v _ =>
    Answers.pure (jsonBytes v)).congr fun data => ?_
  constructor
  · rintro ⟨_, ⟨h, rfl⟩, rfl⟩
    exact ⟨h, rfl⟩
  · rintro ⟨h, rfl⟩
    exact ⟨plan, ⟨h, rfl⟩, rfl⟩

/-- **The parser accepts a text when it is the canonical text of the valid plan it says.** -/
theorem parseCanonical_answers (data : List UInt8) :
    Answers Error.IsPlanError (parseCanonical sha256 data) fun plan : Value F =>
      loadsBytes data = some plan ∧ (∃ p, Represents sha256 jsonBytes plan p ∧ Valid p) ∧
        data = jsonBytes plan := by
  unfold parseCanonical
  cases hloads : (loadsBytes data : Option (Value F)) with
  | none => exact (Answers.throw ⟨_, rfl⟩).congr fun _ => by simp
  | some plan =>
      refine Answers.congr ((canonicalBytes_answers sha256 plan).bind fun bytes _ =>
        Answers.check (require_answers _) fun _ => Answers.pure plan) fun w => ?_
      constructor
      · rintro ⟨_, ⟨hrep, rfl⟩, rfl, rfl⟩
        exact ⟨rfl, hrep, rfl⟩
      · rintro ⟨hw, hrep, rfl⟩
        cases hw
        exact ⟨_, ⟨hrep, rfl⟩, rfl, rfl⟩

omit [PyFloat F] in
theorem loadsBytes_jsonBytes {v : Value F} (h : Plain v) :
    loadsBytes (jsonBytes v) = some (sortKeys v) := by
  rw [loadsBytes, jsonBytes, Utf8.decode_bytes]
  show loads (String.ofList _).toList = _
  rw [String.toList_ofList, loads_dumps h]

omit [PyFloat F] in
theorem jsonBytes_sortKeys {v : Value F} (h : WellKeyed v) : jsonBytes (sortKeys v) = jsonBytes v := by
  rw [jsonBytes, jsonBytes, dumps_sortKeys h]

/-! ### Keys in order -/

omit [FloatText F] [PyFloat F]

theorem plain_of_item {v w : Value F} {field : String} (h : Plain v) (hw : v.item field = .ok w) :
    Plain w := by
  cases h with
  | @dict items hkeys h =>
      simp only [Value.item] at hw
      split at hw
      · next x hx =>
        cases hw
        exact h _ (mem_of_lookup hx)
      · cases hw
  | _ => cases hw

theorem item_sortKeys {v : Value F} (h : Plain v) (field : String) :
    (sortKeys v).item field = (v.item field).map sortKeys := by
  cases h with
  | @dict items hkeys h =>
      rw [sortKeys, Value.item, Value.item, lookup_sortKeys hkeys]
      cases items.lookup field <;> rfl
  | _ => rfl

theorem item_sortKeys_eq_ok {v w : Value F} {field : String} (h : Plain v)
    (hw : v.item field = .ok w) : (sortKeys v).item field = .ok (sortKeys w) := by
  rw [item_sortKeys h, hw]
  rfl

theorem HasText.sortKeys {v : Value F} {field t : String} (h : HasText v field t) (hv : Plain v) :
    HasText (sortKeys v) field t :=
  item_sortKeys_eq_ok hv h

theorem hasFields_sortKeys (v : Value F) (fields : List String) :
    (sortKeys v).hasFields fields = v.hasFields fields := by
  cases v with
  | dict items =>
      have hperm := (sortItems_perm (sortKeysItems items))
      have hkeys : ∀ p : String → Bool, ((sortKeysItems items).all fun item => p item.1) =
          items.all fun item => p item.1 := fun p => by
        rw [sortKeysItems_eq_map, List.all_map]
        rfl
      have hany : ∀ field : String, ((sortKeysItems items).any fun item => item.1 = field) =
          items.any fun item => item.1 = field := fun field => by
        rw [sortKeysItems_eq_map, List.any_map]
        rfl
      rw [sortKeys, Value.hasFields, Value.hasFields, hperm.all_eq, hkeys]
      simp only [hperm.any_eq, hany]
  | _ => rfl

theorem identifiers_sortKeys (v : Value F) :
    (sortKeys v).values.all isIdentifier = v.values.all isIdentifier := by
  cases v with
  | dict items =>
      have hid : ∀ w : Value F, isIdentifier (sortKeys w) = isIdentifier w := fun w => by cases w <;> rfl
      have hperm := (sortItems_perm (sortKeysItems items)).map Prod.snd
      rw [sortKeys, Value.values, Value.values, hperm.all_eq, sortKeysItems_eq_map, List.map_map,
        List.all_map, List.all_map]
      simp only [Function.comp_def, hid]
  | _ => rfl

theorem IsEvent.sortKeys {v : Value F} {e : EventIdentity String} (h : IsEvent v e) (hv : Plain v) :
    IsEvent (sortKeys v) e where
  fields := by rw [hasFields_sortKeys, h.fields]
  identifiers := by rw [identifiers_sortKeys, h.identifiers]
  key := key_eq_ok.mpr ((key_eq_ok.mp h.key).imp fun _ _ ht => ht.sortKeys hv)

theorem IsDemand.sortKeys {v : Value F} {d : Demand String} (h : IsDemand v d) (hv : Plain v) :
    IsDemand (sortKeys v) d := by
  obtain ⟨event, hev, he⟩ := h.event
  exact ⟨by rw [hasFields_sortKeys, h.fields],
    ⟨_, item_sortKeys_eq_ok hv hev, he.sortKeys (plain_of_item hv hev)⟩, h.handler.sortKeys hv,
    h.context.sortKeys hv, h.delivery.sortKeys hv⟩

theorem IsBinding.sortKeys {v : Value F} {b : BindingRecord String} (h : IsBinding v b)
    (hv : Plain v) : IsBinding (sortKeys v) b := by
  obtain ⟨event, hev, he⟩ := h.event
  exact ⟨by rw [hasFields_sortKeys, h.fields],
    ⟨_, item_sortKeys_eq_ok hv hev, he.sortKeys (plain_of_item hv hev)⟩,
    h.texts.imp fun _ _ ht => ht.sortKeys hv, item_sortKeys_eq_ok hv h.dispatchOrder,
    item_sortKeys_eq_ok hv h.sharedSource⟩

theorem IsContext.sortKeys {v : Value F} {capacity : Nat} {policy : String}
    (h : IsContext v capacity policy) (hv : Plain v) : IsContext (sortKeys v) capacity policy :=
  ⟨by rw [hasFields_sortKeys, h.fields], item_sortKeys_eq_ok hv h.capacity, h.policy.sortKeys hv⟩

/-- A value equals itself under any order of its keys. -/
theorem sortKeys_eq [PyFloat F] {v : Value F} (h : Plain v) : (sortKeys v).eq v := by
  induction h with
  | null => rfl
  | bool b => simp [sortKeys, Value.eq, Value.number, Value.numberEq]
  | int n => exact eq_int n
  | str s => exact eq_str.mpr rfl
  | @list items h ih =>
      rw [sortKeys, sortKeysList_eq_map, Value.eq]
      clear h
      induction items with
      | nil => rfl
      | cons v items ihs =>
          rw [List.forall_mem_cons] at ih
          rw [List.map_cons, Value.eqList, ih.1, ihs ih.2, Bool.and_self]
  | @dict items hkeys h ih =>
      have hperm := sortItems_perm (sortKeysItems items)
      have hlength : (sortItems (sortKeysItems items)).length = items.length := by
        rw [hperm.length_eq, sortKeysItems_eq_map, List.length_map]
      rw [sortKeys, Value.eq, hlength, decide_eq_true rfl, Bool.true_and, eqItems_iff]
      intro item hitem
      rw [hperm.mem_iff, sortKeysItems_eq_map] at hitem
      obtain ⟨item', hitem', rfl⟩ := List.mem_map.mp hitem
      exact ⟨item'.2, (lookup_eq_some_iff hkeys).mpr hitem', ih item' hitem'⟩

/-- What equals a value equals it under any order of the keys. -/
theorem eq_sortKeys [PyFloat F] {v w : Value F} (h : Plain v) (heq : v.eq w) :
    (sortKeys v).eq w := by
  induction h generalizing w with
  | null => exact heq
  | bool b => exact heq
  | int n => exact heq
  | str s => exact heq
  | @list items h ih =>
      rw [sortKeys, sortKeysList_eq_map]
      cases w with
      | list items' =>
          rw [Value.eq] at heq ⊢
          clear h
          induction items generalizing items' with
          | nil => exact heq
          | cons v items ihs =>
              cases items' with
              | nil => exact heq
              | cons w items' =>
                  rw [Value.eqList, Bool.and_eq_true] at heq
                  rw [List.forall_mem_cons] at ih
                  rw [List.map_cons, Value.eqList, ih.1 heq.1, ihs ih.2 items' heq.2, Bool.and_self]
      | _ => exact heq
  | @dict items hkeys h ih =>
      have hperm := sortItems_perm (sortKeysItems items)
      rw [sortKeys]
      cases w with
      | dict items' =>
          rw [Value.eq, Bool.and_eq_true, eqItems_iff] at heq ⊢
          refine ⟨by rw [hperm.length_eq, sortKeysItems_eq_map, List.length_map, heq.1], ?_⟩
          intro item hitem
          rw [hperm.mem_iff, sortKeysItems_eq_map] at hitem
          obtain ⟨item', hitem', rfl⟩ := List.mem_map.mp hitem
          obtain ⟨w, hw, he⟩ := heq.2 item' hitem'
          exact ⟨w, hw, ih item' hitem' he⟩
      | _ => exact heq

/-- What is signed has the same text under any order of the keys. -/
theorem jsonBytes_unsigned_sortKeys [FloatText F] {v : Value F} (h : Plain v) :
    jsonBytes (unsigned (sortKeys v)) = jsonBytes (unsigned v) := by
  cases h with
  | @dict items hkeys h =>
      let signed : String × Value F → Bool := fun item => item.1 ≠ "fingerprint"
      have hplain : Plain (.dict (items.filter signed)) :=
        .dict (hkeys.sublist (List.filter_sublist.map _)) fun item hitem =>
          h item (List.mem_of_mem_filter hitem)
      have hfilter : sortKeysItems (items.filter signed) = (sortKeysItems items).filter signed := by
        rw [sortKeysItems_eq_map, sortKeysItems_eq_map, List.filter_map]
        rfl
      have hperm : ((sortItems (sortKeysItems items)).filter signed).Perm
          (sortItems (sortKeysItems (items.filter signed))) := by
        rw [hfilter]
        exact ((sortItems_perm _).filter _).trans (sortItems_perm _).symm
      have hkeys' : (((sortItems (sortKeysItems items)).filter signed).map Prod.fst).Nodup := by
        have hsorted := hplain.sortKeys
        rw [sortKeys] at hsorted
        cases hsorted with
        | dict hnodup _ => exact (hperm.map Prod.fst).nodup_iff.mpr hnodup
      calc jsonBytes (.dict ((sortItems (sortKeysItems items)).filter signed))
          = jsonBytes (sortKeys (.dict (items.filter signed))) := by
            rw [jsonBytes, dumps_dict_perm hperm hkeys']
            rfl
        _ = jsonBytes (.dict (items.filter signed)) := jsonBytes_sortKeys hplain.wellKeyed
  | list h => exact jsonBytes_sortKeys (.list fun v hv => (h v hv).wellKeyed)
  | _ => rfl

/-! ### The plan of some content -/

theorem plain_zip (fields texts : List String) :
    ∀ item ∈ fields.zip (texts.map .str), Plain (item.2 : Value F) := by
  intro item hitem
  obtain ⟨t, -, ht⟩ := List.mem_map.mp (List.of_mem_zip hitem).2
  rw [← ht]
  exact .str t

theorem plain_map {α : Type} {f : α → Value F} (h : ∀ a, Plain (f a)) (as : List α) :
    Plain (.list (as.map f)) :=
  .list (List.forall_mem_map.mpr fun a _ => h a)

theorem plain_eventValue (e : EventIdentity String) : Plain (eventValue e : Value F) := by
  refine .dict (show eventFields.Nodup by decide) ?_
  simp only [List.forall_mem_cons]
  exact ⟨.str _, .str _, .str _, by simp⟩

theorem plain_demandValue (d : Demand String) : Plain (demandValue d : Value F) := by
  refine .dict (show demandFields.Nodup by decide) ?_
  simp only [List.forall_mem_cons]
  exact ⟨plain_eventValue _, .str _, .str _, .str _, by simp⟩

theorem plain_bindingValue (b : BindingRecord String) : Plain (bindingValue b : Value F) := by
  refine .dict (show bindingFields.Nodup by decide) ?_
  simp only [List.forall_mem_append, List.forall_mem_cons]
  exact ⟨⟨⟨plain_eventValue _, by simp⟩, plain_zip _ _⟩, .int _, .bool _, by simp⟩

theorem plain_groupEventValue (e : GroupEvent) : Plain (groupEventValue e : Value F) := by
  refine .dict (show ["event", "selector", "dispatch_order"].Nodup by decide) ?_
  simp only [List.forall_mem_cons]
  exact ⟨plain_eventValue _, .str _, .int _, by simp⟩

theorem plain_groupValue (g : Group) : Plain (groupValue g : Value F) := by
  refine .dict (show ["source", "owner", "entry", "snapshot_policy", "acknowledge_policy",
    "events"].Nodup by decide) ?_
  simp only [List.forall_mem_cons]
  exact ⟨.str _, .str _, .str _, .str _, .str _, plain_map plain_groupEventValue _, by simp⟩

variable (sha256 : List UInt8 → String) (json : Value F → List UInt8)

theorem plain_planValue (p : PlanContent String) : Plain (planValue sha256 json p) := by
  refine .dict (show planFields.Nodup by decide) ?_
  have hcontext : Plain (.dict [("capacity", .int p.capacity), ("policy", .str p.policy)] : Value F) := by
    refine .dict (show contextFields.Nodup by decide) ?_
    simp only [List.forall_mem_cons]
    exact ⟨.int _, .str _, by simp⟩
  simp only [unsignedItems, List.forall_mem_append, List.forall_mem_cons]
  exact ⟨⟨⟨⟨.int _, by simp⟩, plain_zip _ _⟩, hcontext, plain_map plain_demandValue _,
    plain_map plain_bindingValue _, plain_map plain_groupValue _, by simp⟩, .str _, by simp⟩

theorem forall₂_sortKeys {α : Type} {R : Value F → α → Prop}
    (hR : ∀ v a, R v a → Plain v → R (sortKeys v) a) {vs : List (Value F)} {as : List α}
    (hplain : Plain (.list vs)) (h : List.Forall₂ R vs as) :
    List.Forall₂ R (sortKeysList vs) as := by
  cases hplain with
  | list hplain =>
      rw [sortKeysList_eq_map, List.forall₂_map_left_iff]
      exact ((List.forall₂_and_left vs as).mpr ⟨hplain, h⟩).imp fun v a hva => hR v a hva.2 hva.1

variable [FloatText F] [PyFloat F]

/-- A document represents the same content under any order of its keys. -/
theorem Represents.sortKeys {v : Value F} {p : PlanContent String}
    (h : Represents sha256 jsonBytes v p) (hv : Plain v) :
    Represents sha256 jsonBytes (sortKeys v) p := by
  obtain ⟨demands, hdemands, hds⟩ := h.demands
  obtain ⟨bindings, hbindings, hbs⟩ := h.bindings
  obtain ⟨context, hcontext, hctx⟩ := h.context
  obtain ⟨groups, hgroups, heq⟩ := h.groups
  refine ⟨by rw [hasFields_sortKeys, h.fields], item_sortKeys_eq_ok hv h.schema,
    h.header.imp fun _ _ ht => ht.sortKeys hv,
    ⟨_, item_sortKeys_eq_ok hv hdemands, ?_⟩, ⟨_, item_sortKeys_eq_ok hv hbindings, ?_⟩,
    ⟨_, item_sortKeys_eq_ok hv hcontext, hctx.sortKeys (plain_of_item hv hcontext)⟩,
    ⟨_, item_sortKeys_eq_ok hv hgroups, eq_sortKeys (plain_of_item hv hgroups) heq⟩, ?_⟩
  · exact forall₂_sortKeys (fun _ _ hd hp => hd.sortKeys hp) (plain_of_item hv hdemands) hds
  · exact forall₂_sortKeys (fun _ _ hb hp => hb.sortKeys hp) (plain_of_item hv hbindings) hbs
  · rw [jsonBytes_unsigned_sortKeys hv]
    exact h.fingerprint.sortKeys hv

/-- The plan of valid content represents it under any order of the keys. -/
theorem Represents.sortKeys_planValue {p : PlanContent String} (h : Valid p) :
    Represents sha256 jsonBytes (Json.sortKeys (Irqgen.planValue sha256 (jsonBytes : Value F → _) p)) p :=
  (Represents.planValue sha256 _ h).sortKeys sha256 (plain_planValue sha256 _ p)

/-- **The canonical text of valid content is accepted, as its plan with the keys in order.** -/
theorem parseCanonical_canonicalBytes {p : PlanContent String} (h : Valid p) {data : List UInt8}
    (hdata : canonicalBytes sha256 (planValue sha256 jsonBytes p : Value F) = .ok data) :
    parseCanonical sha256 data = .ok (sortKeys (planValue sha256 jsonBytes p : Value F)) := by
  have hv := plain_planValue sha256 (jsonBytes : Value F → List UInt8) p
  obtain ⟨-, rfl⟩ := ((canonicalBytes_answers sha256 _).ok_iff data).mp hdata
  exact ((parseCanonical_answers sha256 _).ok_iff _).mpr ⟨loadsBytes_jsonBytes hv,
    ⟨p, .sortKeys_planValue sha256 h, h⟩, (jsonBytes_sortKeys hv.wellKeyed).symm⟩

end Grevir.Irqgen
