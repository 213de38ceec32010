import Grevir.Support.JsonKeys
import Grevir.Irqgen.Coherence

/-!
# Irqgen — Spelling

Whether an accepted plan document can be written otherwise.  All that a document says is checked to be
a string, an `int` or a `bool` where one is meant, but for its source groups: these are compared with
those of the bindings, and Python holds `False`, `0.0` and `0` for equal.

* `accepted_canonical_iff`: an accepted document is the canonical text of its content exactly when no
  number of its source groups is a `bool` or a `float`.
-/

namespace Grevir.Irqgen

open Interrupt Json

variable {F : Type}

/-! ### Numbers -/

/-- Every number of the value is an `int`. -/
inductive IntsOnly : Value F → Prop
  | null : IntsOnly .null
  | int (n : Int) : IntsOnly (.int n)
  | str (s : String) : IntsOnly (.str s)
  | list {items : List (Value F)} (h : ∀ v ∈ items, IntsOnly v) : IntsOnly (.list items)
  | dict {items : List (String × Value F)} (h : ∀ item ∈ items, IntsOnly item.2) :
      IntsOnly (.dict items)

theorem IntsOnly.sortKeys {v : Value F} (h : IntsOnly v) : IntsOnly (sortKeys v) := by
  induction h with
  | null => exact .null
  | int n => exact .int n
  | str s => exact .str s
  | list h ih =>
      rw [Json.sortKeys, sortKeysList_eq_map]
      exact .list (List.forall_mem_map.mpr ih)
  | @dict items h ih =>
      rw [Json.sortKeys, sortKeysItems_eq_map]
      refine .dict fun item hitem => ?_
      obtain ⟨item', hitem', rfl⟩ := List.mem_map.mp ((sortItems_perm _).mem_iff.mp hitem)
      exact ih item' hitem'

/-- A dictionary that equals another has its keys. -/
theorem keys_perm_of_eqItems [PyFloat F] {items items' : List (String × Value F)}
    (hkeys : (items.map Prod.fst).Nodup) (hlength : items.length = items'.length)
    (h : Value.eqItems items items') : (items.map Prod.fst).Perm (items'.map Prod.fst) := by
  refine (hkeys.subperm fun key hkey => ?_).perm_of_length_le (by simp [hlength])
  obtain ⟨item, hitem, rfl⟩ := List.mem_map.mp hkey
  obtain ⟨w, hw, -⟩ := eqItems_iff.mp h item hitem
  exact List.mem_map.mpr ⟨_, mem_of_lookup hw, rfl⟩

/-- Equal lists, given that equal members are alike. -/
theorem alike_of_eqList [PyFloat F] {vs ws : List (Value F)}
    (hmembers : ∀ v ∈ vs, ∀ w ∈ ws, v.eq w → Alike v w) (h : Value.eqList vs ws) :
    List.Forall₂ Alike vs ws := by
  induction vs generalizing ws with
  | nil =>
      cases ws with
      | nil => exact .nil
      | cons w ws => simp [Value.eqList] at h
  | cons v vs ih =>
      cases ws with
      | nil => simp [Value.eqList] at h
      | cons w ws =>
          rw [Value.eqList, Bool.and_eq_true] at h
          refine .cons (hmembers v List.mem_cons_self w List.mem_cons_self h.1)
            (ih (fun v hv w hw => ?_) h.2)
          exact hmembers v (List.mem_cons_of_mem _ hv) w (List.mem_cons_of_mem _ hw)

/-- Equal dictionaries, given that equal values are alike. -/
theorem alike_of_eqItems [PyFloat F] {items items' : List (String × Value F)}
    (hkeys : (items.map Prod.fst).Nodup) (hkeys' : (items'.map Prod.fst).Nodup)
    (hlength : items.length = items'.length)
    (hvalues : ∀ item ∈ items, ∀ item' ∈ items', item.2.eq item'.2 → Alike item.2 item'.2)
    (h : Value.eqItems items items') : Alike (.dict items) (.dict items') := by
  have hperm := keys_perm_of_eqItems hkeys hlength h
  refine .dict hkeys hkeys' fun key => ?_
  cases hv : items.lookup key with
  | some v =>
      have hmem := mem_of_lookup hv
      obtain ⟨w, hw, heq⟩ := eqItems_iff.mp h _ hmem
      have halike : Alike v w := hvalues _ hmem _ (mem_of_lookup hw) heq
      rw [hw, Option.map_some, Option.map_some, halike]
  | none =>
      have hnot : key ∉ items'.map Prod.fst := fun hkey => by
        obtain ⟨item, hitem, rfl⟩ := List.mem_map.mp (hperm.mem_iff.mpr hkey)
        rw [(lookup_eq_some_iff hkeys).mpr hitem] at hv
        cases hv
      cases hw : items'.lookup key with
      | none => rfl
      | some w => exact absurd (List.mem_map.mpr ⟨_, mem_of_lookup hw, rfl⟩) hnot

/-- **Where every number is an `int`, equality is but for the order of keys.** -/
theorem alike_of_eq [PyFloat F] {v w : Value F} (hv : IntsOnly v) (hw : IntsOnly w)
    (hkeysv : WellKeyed v) (hkeysw : WellKeyed w) (h : v.eq w) : Alike v w := by
  induction hv generalizing w with
  | null => cases hw <;> simp_all [Value.eq, Value.number, Alike]
  | int n => cases hw <;> simp_all [Value.eq, Value.number, Value.numberEq, Alike]
  | str s => cases hw <;> simp_all [Value.eq, Value.number, Alike]
  | @list items hints ih =>
      cases hw with
      | @list items' hints' =>
          cases hkeysv with
          | list hkeysv =>
          cases hkeysw with
          | list hkeysw =>
          rw [Value.eq] at h
          refine .list (alike_of_eqList (fun v hv w hw => ?_) h)
          exact ih v hv (hints' w hw) (hkeysv v hv) (hkeysw w hw)
      | _ => simp [Value.eq, Value.number] at h
  | @dict items hints ih =>
      cases hw with
      | @dict items' hints' =>
          cases hkeysv with
          | dict hnodup hkeysv =>
          cases hkeysw with
          | dict hnodup' hkeysw =>
          rw [Value.eq, Bool.and_eq_true, decide_eq_true_eq] at h
          refine alike_of_eqItems hnodup hnodup' h.1 (fun item hitem item' hitem' => ?_) h.2
          exact ih item hitem (hints' item' hitem') (hkeysv item hitem) (hkeysw item' hitem')
      | _ => simp [Value.eq, Value.number] at h

/-! ### Documents of some content -/

theorem exists_dict {v : Value F} {fields : List String} (h : v.hasFields fields) :
    ∃ items, v = .dict items ∧ ∀ key, key ∉ fields → items.lookup key = none := by
  cases v with
  | dict items =>
      refine ⟨items, rfl, fun key hkey => ?_⟩
      simp only [Value.hasFields, Bool.and_eq_true, List.all_eq_true] at h
      cases hlookup : items.lookup key with
      | none => rfl
      | some w => exact absurd (by simpa using h.1 _ (mem_of_lookup hlookup)) hkey
  | _ => simp [Value.hasFields] at h

theorem item_dict {items : List (String × Value F)} {field : String} {w : Value F} :
    (Value.dict items).item field = .ok w ↔ items.lookup field = some w := by
  rw [Value.item]
  cases items.lookup field <;> simp

/-- Dictionaries of the same fields, with like values. -/
theorem alike_of_fields {v w : Value F} {fields : List String} (hv : WellKeyed v)
    (hw : WellKeyed w) (hfieldsv : v.hasFields fields) (hfieldsw : w.hasFields fields)
    (h : ∀ field ∈ fields, ∃ x y, v.item field = .ok x ∧ w.item field = .ok y ∧ Alike x y) :
    Alike v w := by
  obtain ⟨items, rfl, hnone⟩ := exists_dict hfieldsv
  obtain ⟨items', rfl, hnone'⟩ := exists_dict hfieldsw
  cases hv with
  | dict hkeys _ =>
  cases hw with
  | dict hkeys' _ =>
  refine .dict hkeys hkeys' fun key => ?_
  by_cases hkey : key ∈ fields
  · obtain ⟨x, y, hx, hy, halike⟩ := h key hkey
    rw [item_dict.mp hx, item_dict.mp hy, Option.map_some, Option.map_some, halike]
  · rw [hnone key hkey, hnone' key hkey]

theorem wellKeyed_item {v w : Value F} {field : String} (h : WellKeyed v)
    (hw : v.item field = .ok w) : WellKeyed w := by
  cases h with
  | dict _ h => exact h _ (mem_of_lookup (item_dict.mp hw))
  | _ => cases hw

/-- A string field of both. -/
theorem HasText.alike {v w : Value F} {field t : String} (hv : HasText v field t)
    (hw : HasText w field t) :
    ∃ x y, v.item field = .ok x ∧ w.item field = .ok y ∧ Alike x y := ⟨_, _, hv, hw, rfl⟩

theorem forall₂_texts {v w : Value F} {fields texts : List String}
    (hv : List.Forall₂ (HasText v) fields texts) (hw : List.Forall₂ (HasText w) fields texts) :
    ∀ field ∈ fields, ∃ x y, v.item field = .ok x ∧ w.item field = .ok y ∧ Alike x y := by
  induction hv with
  | nil => nofun
  | cons ht _ ih =>
      cases hw with
      | cons ht' hw => exact List.forall_mem_cons.mpr ⟨ht.alike ht', ih hw⟩

theorem IsEvent.alike {v w : Value F} {e : EventIdentity String} (hv : IsEvent v e)
    (hw : IsEvent w e) (hkeysv : WellKeyed v) (hkeysw : WellKeyed w) : Alike v w :=
  alike_of_fields hkeysv hkeysw hv.fields hw.fields
    (forall₂_texts (key_eq_ok.mp hv.key) (key_eq_ok.mp hw.key))

theorem IsDemand.alike {v w : Value F} {d : Demand String} (hv : IsDemand v d)
    (hw : IsDemand w d) (hkeysv : WellKeyed v) (hkeysw : WellKeyed w) : Alike v w := by
  refine alike_of_fields hkeysv hkeysw hv.fields hw.fields ?_
  obtain ⟨x, hx, hxe⟩ := hv.event
  obtain ⟨y, hy, hye⟩ := hw.event
  simp only [demandFields, List.forall_mem_cons]
  exact ⟨⟨x, y, hx, hy, hxe.alike hye (wellKeyed_item hkeysv hx) (wellKeyed_item hkeysw hy)⟩,
    hv.handler.alike hw.handler, hv.context.alike hw.context, hv.delivery.alike hw.delivery,
    List.forall_mem_nil _⟩

theorem IsBinding.alike {v w : Value F} {b : BindingRecord String} (hv : IsBinding v b)
    (hw : IsBinding w b) (hkeysv : WellKeyed v) (hkeysw : WellKeyed w) : Alike v w := by
  refine alike_of_fields hkeysv hkeysw hv.fields hw.fields ?_
  obtain ⟨x, hx, hxe⟩ := hv.event
  obtain ⟨y, hy, hye⟩ := hw.event
  refine List.forall_mem_cons.mpr ⟨⟨x, y, hx, hy,
    hxe.alike hye (wellKeyed_item hkeysv hx) (wellKeyed_item hkeysw hy)⟩, ?_⟩
  refine List.forall_mem_append.mpr ⟨forall₂_texts hv.texts hw.texts, ?_⟩
  simp only [List.forall_mem_cons]
  exact ⟨⟨_, _, hv.dispatchOrder, hw.dispatchOrder, rfl⟩,
    ⟨_, _, hv.sharedSource, hw.sharedSource, rfl⟩, List.forall_mem_nil _⟩

theorem IsContext.alike {v w : Value F} {capacity : Nat} {policy : String}
    (hv : IsContext v capacity policy) (hw : IsContext w capacity policy) (hkeysv : WellKeyed v)
    (hkeysw : WellKeyed w) : Alike v w := by
  refine alike_of_fields hkeysv hkeysw hv.fields hw.fields ?_
  simp only [contextFields, List.forall_mem_cons]
  exact ⟨⟨_, _, hv.capacity, hw.capacity, rfl⟩, hv.policy.alike hw.policy, List.forall_mem_nil _⟩

/-- Lists whose members are of the same things. -/
theorem alike_list {α : Type} {R : Value F → α → Prop}
    (hR : ∀ v w a, R v a → R w a → WellKeyed v → WellKeyed w → Alike v w)
    {vs ws : List (Value F)} {as : List α} (hv : List.Forall₂ R vs as) (hw : List.Forall₂ R ws as)
    (hkeysv : WellKeyed (.list vs)) (hkeysw : WellKeyed (.list ws)) :
    Alike (.list vs) (.list ws) := by
  cases hkeysv with
  | list hkeysv =>
  cases hkeysw with
  | list hkeysw =>
  refine .list ?_
  induction hv generalizing ws with
  | nil =>
      cases hw
      exact .nil
  | cons hva _ ih =>
      cases hw with
      | cons hwa hw =>
          rw [List.forall_mem_cons] at hkeysv hkeysw
          exact .cons (hR _ _ _ hva hwa hkeysv.1 hkeysw.1) (ih hw hkeysv.2 hkeysw.2)

theorem wellKeyed_unsigned {v : Value F} (h : WellKeyed v) : WellKeyed (unsigned v) := by
  cases h with
  | dict hkeys h =>
      exact .dict (hkeys.sublist (List.filter_sublist.map _)) fun item hitem =>
        h item (List.mem_of_mem_filter hitem)
  | null => exact .null
  | bool b => exact .bool b
  | int n => exact .int n
  | float x => exact .float x
  | str s => exact .str s
  | list h => exact .list h

/-- What is signed, of two plans with like values but for the fingerprint. -/
theorem alike_unsigned {v w : Value F} (hv : WellKeyed v) (hw : WellKeyed w)
    (hfieldsv : v.hasFields planFields) (hfieldsw : w.hasFields planFields)
    (h : ∀ field ∈ planFields, field ≠ "fingerprint" →
      ∃ x y, v.item field = .ok x ∧ w.item field = .ok y ∧ Alike x y) :
    Alike (unsigned v) (unsigned w) := by
  have hunsignedv := wellKeyed_unsigned hv
  have hunsignedw := wellKeyed_unsigned hw
  obtain ⟨items, rfl, hnone⟩ := exists_dict hfieldsv
  obtain ⟨items', rfl, hnone'⟩ := exists_dict hfieldsw
  cases hunsignedv with
  | dict hkeys _ =>
  cases hunsignedw with
  | dict hkeys' _ =>
  refine .dict hkeys hkeys' fun key => ?_
  rw [lookup_filter_ne, lookup_filter_ne]
  split
  · rfl
  · next hkey =>
    by_cases hfield : key ∈ planFields
    · obtain ⟨x, y, hx, hy, halike⟩ := h key hfield hkey
      rw [item_dict.mp hx, item_dict.mp hy, Option.map_some, Option.map_some, halike]
    · rw [hnone key hfield, hnone' key hfield]

section Plan

variable [FloatText F] [PyFloat F] (sha256 : List UInt8 → String)

omit [PyFloat F] in
theorem jsonBytes_eq_of_alike {v w : Value F} (h : Alike v w) (hv : WellKeyed v)
    (hw : WellKeyed w) : jsonBytes v = jsonBytes w := by
  rw [jsonBytes, jsonBytes, h.dumps_eq hv hw]

/-- **Two documents of one content are alike when their source groups are.** -/
theorem Represents.alike {v w : Value F} {p : PlanContent String}
    (hv : Represents sha256 jsonBytes v p) (hw : Represents sha256 jsonBytes w p)
    (hkeysv : WellKeyed v) (hkeysw : WellKeyed w)
    (hgroups : ∀ x y, v.item "source_groups" = .ok x → w.item "source_groups" = .ok y →
      Alike x y) : Alike v w := by
  have hfields : ∀ field ∈ planFields, field ≠ "fingerprint" →
      ∃ x y, v.item field = .ok x ∧ w.item field = .ok y ∧ Alike x y := by
    obtain ⟨demands, hdemands, hds⟩ := hv.demands
    obtain ⟨demands', hdemands', hds'⟩ := hw.demands
    obtain ⟨bindings, hbindings, hbs⟩ := hv.bindings
    obtain ⟨bindings', hbindings', hbs'⟩ := hw.bindings
    obtain ⟨context, hcontext, hctx⟩ := hv.context
    obtain ⟨context', hcontext', hctx'⟩ := hw.context
    obtain ⟨groups, hg, -⟩ := hv.groups
    obtain ⟨groups', hg', -⟩ := hw.groups
    have hheader := forall₂_texts hv.header hw.header
    simp only [headerFields, List.forall_mem_cons] at hheader
    obtain ⟨hbackend, htarget, hboard, hcompiler, happlication, -⟩ := hheader
    simp only [planFields, List.forall_mem_cons]
    refine ⟨fun _ => ⟨_, _, hv.schema, hw.schema, rfl⟩, fun _ => hbackend, fun _ => htarget,
      fun _ => hboard, fun _ => hcompiler, fun _ => happlication,
      fun _ => ⟨_, _, hcontext, hcontext', hctx.alike hctx' (wellKeyed_item hkeysv hcontext)
        (wellKeyed_item hkeysw hcontext')⟩,
      fun _ => ⟨_, _, hdemands, hdemands', ?_⟩, fun _ => ⟨_, _, hbindings, hbindings', ?_⟩,
      fun _ => ⟨_, _, hg, hg', hgroups _ _ hg hg'⟩, fun hne => absurd rfl hne,
      List.forall_mem_nil _⟩
    · exact alike_list (fun _ _ _ hd hd' => hd.alike hd') hds hds' (wellKeyed_item hkeysv hdemands)
        (wellKeyed_item hkeysw hdemands')
    · exact alike_list (fun _ _ _ hb hb' => hb.alike hb') hbs hbs' (wellKeyed_item hkeysv hbindings)
        (wellKeyed_item hkeysw hbindings')
  have hsigned : jsonBytes (unsigned v) = jsonBytes (unsigned w) :=
    jsonBytes_eq_of_alike (alike_unsigned hkeysv hkeysw hv.fields hw.fields hfields)
      (wellKeyed_unsigned hkeysv) (wellKeyed_unsigned hkeysw)
  refine alike_of_fields hkeysv hkeysw hv.fields hw.fields fun field hfield => ?_
  by_cases hne : field = "fingerprint"
  · subst hne
    exact hv.fingerprint.alike (hsigned ▸ hw.fingerprint)
  · exact hfields field hfield hne

omit [FloatText F] [PyFloat F] in
/-- The numbers of the bindings' source groups are their dispatch orders. -/
theorem intsOnly_groups (gs : List Group) : IntsOnly (.list (gs.map groupValue) : Value F) := by
  have hevent : ∀ e : GroupEvent, IntsOnly (groupEventValue e : Value F) := by
    intro e
    refine .dict ?_
    simp only [List.forall_mem_cons]
    refine ⟨.dict ?_, .str _, .int _, List.forall_mem_nil _⟩
    simp only [List.forall_mem_cons]
    exact ⟨.str _, .str _, .str _, List.forall_mem_nil _⟩
  refine .list (List.forall_mem_map.mpr fun g _ => .dict ?_)
  simp only [List.forall_mem_cons]
  exact ⟨.str _, .str _, .str _, .str _, .str _,
    .list (List.forall_mem_map.mpr fun e _ => hevent e), List.forall_mem_nil _⟩

/-- What is accepted is the text of what it says. -/
theorem accepted_spec {data : List UInt8} {v : Value F} (h : parseCanonical sha256 data = .ok v) :
    WellKeyed v ∧ data = jsonBytes v ∧ ∃ p, Represents sha256 jsonBytes v p ∧ Valid p := by
  obtain ⟨hloads, hrep, hdata⟩ := ((parseCanonical_answers sha256 data).ok_iff v).mp h
  rw [loadsBytes, Option.bind_eq_bind, Option.bind_eq_some_iff] at hloads
  obtain ⟨text, -, htext⟩ := hloads
  exact ⟨loads_wellKeyed htext, hdata, hrep⟩

/-- **An accepted document is the canonical text of its content exactly when no number of its source
groups is a `bool` or a `float`**, and two of one content are the same when their groups are alike. -/
theorem accepted_canonical_iff {data : List UInt8} {v : Value F}
    (h : parseCanonical sha256 data = .ok v) :
    ∃ p groups, Represents sha256 jsonBytes v p ∧ Valid p ∧ v.item "source_groups" = .ok groups ∧
      (canonicalBytes sha256 (planValue sha256 jsonBytes p : Value F) = .ok data ↔
        IntsOnly groups) ∧
      ∀ data' v' groups', parseCanonical sha256 data' = .ok v' →
        Represents sha256 jsonBytes v' p → v'.item "source_groups" = .ok groups' →
        (data' = data ↔ Alike groups' groups) := by
  obtain ⟨hkeys, hdata, p, hrep, hvalid⟩ := accepted_spec sha256 h
  obtain ⟨groups, hgroups, heq⟩ := hrep.groups
  have hplain := plain_planValue sha256 (jsonBytes : Value F → List UInt8) p
  have hplan := Represents.planValue sha256 (jsonBytes : Value F → List UInt8) hvalid
  have hcanonical := ((canonicalBytes_answers sha256
    (planValue sha256 jsonBytes p : Value F)).ok_iff data)
  refine ⟨p, groups, hrep, hvalid, hgroups, ⟨fun hbytes => ?_, fun hints => ?_⟩, ?_⟩
  · -- the text says the plan, so these are the groups of the plan
    have hparse := parseCanonical_canonicalBytes sha256 hvalid hbytes
    rw [h] at hparse
    cases hparse
    have hplanned : (planValue sha256 jsonBytes p : Value F).item "source_groups" =
        .ok (.list ((sourceGroups p.bindings).map groupValue)) := rfl
    have hitem := item_sortKeys_eq_ok hplain hplanned
    rw [hgroups] at hitem
    cases hitem
    exact (intsOnly_groups _).sortKeys
  · have halike := hrep.alike sha256 hplan hkeys hplain.wellKeyed fun x y hx hy => by
      rw [hgroups] at hx
      cases hx
      cases hy
      exact alike_of_eq hints (intsOnly_groups _) (wellKeyed_item hkeys hgroups)
        (plain_map plain_groupValue _).wellKeyed heq
    rw [hcanonical, hdata, jsonBytes_eq_of_alike halike hkeys hplain.wellKeyed]
    exact ⟨⟨p, hplan, hvalid⟩, rfl⟩
  · intro data' v' groups' h' hrep' hgroups'
    obtain ⟨hkeys', hdata', -⟩ := accepted_spec sha256 h'
    constructor
    · rintro rfl
      rw [h] at h'
      cases h'
      rw [hgroups] at hgroups'
      cases hgroups'
      rfl
    · intro halike
      rw [hdata, hdata']
      refine jsonBytes_eq_of_alike (hrep'.alike sha256 hrep hkeys' hkeys fun x y hx hy => ?_) hkeys'
        hkeys
      rw [hgroups'] at hx
      rw [hgroups] at hy
      cases hx
      cases hy
      exact halike

/-! ### Another spelling -/

/-- The plan of some content, with its source groups written so. -/
def planSpelled (groups : Value F) (p : PlanContent String) : Value F :=
  let items := (unsignedItems p).dropLast ++ [("source_groups", groups)]
  .dict (items ++ [("fingerprint", .str (sha256 (jsonBytes (.dict items))))])

theorem Represents.planSpelled {groups : Value F} {p : PlanContent String} (h : Valid p)
    (heq : groups.eq (.list ((sourceGroups p.bindings).map groupValue))) :
    Represents sha256 jsonBytes (Irqgen.planSpelled sha256 groups p) p := by
  have hplan := Represents.planValue sha256 (jsonBytes : Value F → List UInt8) h
  refine ⟨rfl, rfl, .cons rfl (.cons rfl (.cons rfl (.cons rfl (.cons rfl .nil)))), ?_, ?_,
    ⟨_, rfl, rfl, rfl, rfl⟩, ⟨groups, rfl, heq⟩, rfl⟩
  · exact hplan.demands
  · exact hplan.bindings

omit [PyFloat F] in
theorem plain_planSpelled {groups : Value F} (hgroups : Plain groups) (p : PlanContent String) :
    Plain (planSpelled sha256 groups p) := by
  refine .dict (show planFields.Nodup by decide) ?_
  have hplan := plain_planValue sha256 (jsonBytes : Value F → List UInt8) p
  cases hplan with
  | dict _ hitems =>
      simp only [List.forall_mem_append, List.forall_mem_singleton]
      exact ⟨⟨fun item hitem => hitems item (List.mem_append_left _ (List.mem_of_mem_dropLast hitem)),
        hgroups⟩, .str _⟩

/-- **Source groups that equal those of the bindings are accepted as they are written.** -/
theorem parseCanonical_planSpelled {groups : Value F} {p : PlanContent String} (h : Valid p)
    (hgroups : Plain groups) (heq : groups.eq (.list ((sourceGroups p.bindings).map groupValue))) :
    parseCanonical sha256 (jsonBytes (planSpelled sha256 groups p)) =
        .ok (sortKeys (planSpelled sha256 groups p)) ∧
      Represents sha256 jsonBytes (sortKeys (planSpelled sha256 groups p)) p := by
  have hplain := plain_planSpelled sha256 hgroups p
  have hrep := (Represents.planSpelled sha256 h heq).sortKeys sha256 hplain
  exact ⟨((parseCanonical_answers sha256 _).ok_iff _).mpr ⟨loadsBytes_jsonBytes hplain,
    ⟨p, hrep, h⟩, (jsonBytes_sortKeys hplain.wellKeyed).symm⟩, hrep⟩

end Plan

theorem alike_item (field : String) {v w x y : Value F} (hv : Plain v) (hw : Plain w)
    (h : Alike v w) (hx : v.item field = .ok x) (hy : w.item field = .ok y) : Alike x y := by
  have hitem : (v.item field).map sortKeys = (w.item field).map sortKeys := by
    rw [← item_sortKeys hv, ← item_sortKeys hw, h]
  rw [hx, hy] at hitem
  exact Except.ok.inj hitem

/-- The timer's source groups, with its dispatch order written so. -/
def timerGroups (order : Value Empty) : Value Empty :=
  .list [.dict [("source", .str "timer1_ovf"), ("owner", .str "timer"),
    ("entry", .str "timer1_ovf_vect"), ("snapshot_policy", .str "timer1_status"),
    ("acknowledge_policy", .str "timer1_auto_ack"),
    ("events", .list [.dict [("event", eventValue ⟨"timer", "tick", "period"⟩),
      ("selector", .str "overflow"), ("dispatch_order", order)]])]]

theorem timerGroups_derived :
    Value.list ((sourceGroups timerPlan.bindings).map groupValue) = timerGroups (.int 0) := by
  simp [sourceGroups, canonicalGroups, timerPlan, Group.new, Group.append, setItem,
    Group.sortEvents, timerGroups, groupValue, groupEventValue]

theorem plain_timerGroups {order : Value Empty} (h : Plain order) : Plain (timerGroups order) := by
  have hevent : Plain (.dict [("event", eventValue ⟨"timer", "tick", "period"⟩),
      ("selector", .str "overflow"), ("dispatch_order", order)]) := by
    refine .dict (show ["event", "selector", "dispatch_order"].Nodup by decide) ?_
    simp only [List.forall_mem_cons]
    exact ⟨plain_eventValue _, .str _, h, List.forall_mem_nil _⟩
  refine .list (List.forall_mem_singleton.mpr (.dict (show ["source", "owner", "entry",
    "snapshot_policy", "acknowledge_policy", "events"].Nodup by decide) ?_))
  simp only [List.forall_mem_cons]
  exact ⟨.str _, .str _, .str _, .str _, .str _, .list (List.forall_mem_singleton.mpr hevent),
    List.forall_mem_nil _⟩

theorem alike_singleton {v w : Value F} (h : Alike (.list [v]) (.list [w])) : Alike v w :=
  (List.cons.inj (Value.list.inj h)).1

/-- Groups with different orders are not alike. -/
theorem alike_timerGroups {order order' : Value Empty} (h : Plain order) (h' : Plain order')
    (halike : Alike (timerGroups order) (timerGroups order')) : Alike order order' := by
  have hplain := plain_timerGroups h
  have hplain' := plain_timerGroups h'
  rw [timerGroups] at hplain hplain' halike
  cases hplain with
  | list hplain =>
  cases hplain' with
  | list hplain' =>
  have hgroup := List.forall_mem_singleton.mp hplain
  have hgroup' := List.forall_mem_singleton.mp hplain'
  have hevents := alike_item "events" hgroup hgroup' (alike_singleton halike) rfl rfl
  have hevent := plain_of_item hgroup (show Value.item _ "events" = .ok _ from rfl)
  have hevent' := plain_of_item hgroup' (show Value.item _ "events" = .ok _ from rfl)
  cases hevent with
  | list hevent =>
  cases hevent' with
  | list hevent' =>
  exact alike_item "dispatch_order" (List.forall_mem_singleton.mp hevent)
    (List.forall_mem_singleton.mp hevent') (alike_singleton hevents) rfl rfl

/-- The timer's plan is accepted with any order that equals 0. -/
theorem accepted_timer (sha256 : List UInt8 → String) {order : Value Empty} (horder : Plain order)
    (heq : (timerGroups order).eq (timerGroups (.int 0))) :
    parseCanonical sha256 (jsonBytes (planSpelled sha256 (timerGroups order) timerPlan)) =
        .ok (sortKeys (planSpelled sha256 (timerGroups order) timerPlan)) ∧
      Represents sha256 jsonBytes
        (sortKeys (planSpelled sha256 (timerGroups order) timerPlan)) timerPlan :=
  parseCanonical_planSpelled sha256 timerPlan_valid (plain_timerGroups horder)
    (timerGroups_derived ▸ heq)

/-- The timer's plan with `false` for its dispatch order. -/
theorem accepted_canonical_iff_timer :
    let plan : Value Empty := planSpelled (fun _ => "") (timerGroups (.bool false)) timerPlan
    ∃ p groups, (sortKeys plan).item "source_groups" = .ok groups ∧
      (canonicalBytes (fun _ => "") (planValue (fun _ => "") jsonBytes p : Value Empty) =
        .ok (jsonBytes plan) ↔ IntsOnly groups) := by
  intro plan
  obtain ⟨p, groups, -, -, hgroups, hiff, -⟩ :=
    accepted_canonical_iff (fun _ => "") (accepted_timer (fun _ => "") (.bool false) rfl).1
  exact ⟨p, groups, hgroups, hiff⟩

/-- Two spellings of one plan, whatever the digest. -/
theorem exists_spellings (sha256 : List UInt8 → String) :
    ∃ data data' v v',
      parseCanonical sha256 data = .ok (v : Value Empty) ∧
      parseCanonical sha256 data' = .ok (v' : Value Empty) ∧
      Represents sha256 jsonBytes v timerPlan ∧ Represents sha256 jsonBytes v' timerPlan ∧
      data' ≠ data := by
  obtain ⟨hparse, hrep⟩ := accepted_timer sha256 (.int 0) rfl
  obtain ⟨hparse', hrep'⟩ := accepted_timer sha256 (.bool false) rfl
  refine ⟨_, _, _, _, hparse, hparse', hrep, hrep', fun hsame => ?_⟩
  rw [hsame, hparse] at hparse'
  have hplain := plain_planSpelled sha256 (plain_timerGroups (.int 0)) timerPlan
  have hplain' := plain_planSpelled sha256 (plain_timerGroups (.bool false)) timerPlan
  have hgroups := alike_item "source_groups" hplain hplain' (Except.ok.inj hparse') rfl rfl
  exact absurd (alike_timerGroups (.int 0) (.bool false) hgroups) nofun

/-- A plan with `false` for the dispatch order 0 in its source groups is accepted beside the canonical
one. -/
theorem false_order_accepted :
    ∃ data data' v v',
      parseCanonical hexDigest data = .ok (v : Value Empty) ∧
      parseCanonical hexDigest data' = .ok (v' : Value Empty) ∧
      Represents hexDigest jsonBytes v timerPlan ∧ Represents hexDigest jsonBytes v' timerPlan ∧
      data' ≠ data :=
  exists_spellings hexDigest

end Grevir.Irqgen
