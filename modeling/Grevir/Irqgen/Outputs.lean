import Grevir.Irqgen.Emit

/-!
# Irqgen — Outputs

What the emitter makes of any plan the parser accepts, canonical in its text but not in the kind of
its numbers: it reads the content the plan represents and the groups of its bindings, and emits
texts without NUL.

* `planOf_represents`: what is read of a plan.
* `emit_nulFree`: neither output has a zero byte.
-/

namespace Grevir.Irqgen

open Interrupt Json
open Utf8 (NulFree nulFree_append nulFree_ofList)

/-! ### Equal values read alike -/

section Reading

variable {F : Type}

theorem textItem_eq_ok {v : Value F} {field t : String} :
    textItem v field = .ok t ↔ HasText v field t := by
  rw [textItem, except_bind_eq_ok]
  constructor
  · rintro ⟨w, hw, ht⟩
    rw [text_eq_ok.mp ht] at hw
    exact hw
  · exact fun h => ⟨_, h, rfl⟩

theorem listItem_eq_ok {v : Value F} {field : String} {xs : List (Value F)} :
    listItem v field = .ok xs ↔ v.item field = .ok (.list xs) := by
  rw [listItem, except_bind_eq_ok]
  constructor
  · rintro ⟨w, hw, hxs⟩
    cases w with
    | list items =>
        cases hxs
        exact hw
    | _ => cases hxs
  · exact fun h => ⟨_, h, rfl⟩

variable [PyFloat F]

theorem item_of_eq {v w a : Value F} {field : String} (h : v.eq w) (ha : v.item field = .ok a) :
    ∃ b, w.item field = .ok b ∧ a.eq b := by
  cases v with
  | dict xs =>
      cases w with
      | dict ys =>
          rw [Value.eq, Bool.and_eq_true] at h
          simp only [Value.item] at ha
          split at ha
          · next x hx =>
            cases ha
            obtain ⟨b, hb, heq⟩ := eqItems_iff.mp h.2 _ (mem_of_lookup hx)
            exact ⟨b, by rw [Value.item, hb], heq⟩
          · cases ha
      | _ => simp [Value.eq, Value.number] at h
  | _ => cases ha

theorem HasText.of_eq {v w : Value F} {field t : String} (h : v.eq w) (ht : HasText v field t) :
    HasText w field t := by
  obtain ⟨b, hb, heq⟩ := item_of_eq h ht
  cases b with
  | str s =>
      rw [eq_str] at heq
      rw [HasText, hb, heq]
  | _ => simp [Value.eq, Value.number] at heq

theorem key_of_eq {v w : Value F} {e : EventIdentity String} (h : v.eq w) (hkey : key v = .ok e) :
    key w = .ok e :=
  key_eq_ok.mpr ((key_eq_ok.mp hkey).imp fun _ _ => .of_eq h)

/-- A list read of equal values, member by member. -/
theorem mapM_of_eq {α : Type} {f : Value F → Except Error α}
    (hf : ∀ v w a, v.eq w → f v = .ok a → f w = .ok a) {xs ys : List (Value F)} {as : List α}
    (h : Value.eqList xs ys) (hxs : xs.mapM f = .ok as) : ys.mapM f = .ok as := by
  induction xs generalizing ys as with
  | nil =>
      cases ys with
      | nil => exact hxs
      | cons y ys => cases h
  | cons x xs ih =>
      cases ys with
      | nil => cases h
      | cons y ys =>
          rw [Value.eqList, Bool.and_eq_true] at h
          rw [List.mapM_cons, except_bind_eq_ok] at hxs
          obtain ⟨a, ha, hrest⟩ := hxs
          obtain ⟨as', has, heq⟩ := except_bind_eq_ok.mp hrest
          rw [List.mapM_cons, hf x y a h.1 ha, ih h.2 has]
          exact heq

theorem listItem_mapM_of_eq {α : Type} {f : Value F → Except Error α}
    (hf : ∀ v w a, v.eq w → f v = .ok a → f w = .ok a) {v w : Value F} {field : String}
    {as : List α} (h : v.eq w) (hv : (listItem v field >>= List.mapM f) = .ok as) :
    (listItem w field >>= List.mapM f) = .ok as := by
  obtain ⟨xs, hxs, has⟩ := except_bind_eq_ok.mp hv
  obtain ⟨b, hb, heq⟩ := item_of_eq h (listItem_eq_ok.mp hxs)
  cases b with
  | list ys =>
      rw [Value.eq] at heq
      exact except_bind_eq_ok.mpr ⟨ys, listItem_eq_ok.mpr hb, mapM_of_eq hf heq has⟩
  | _ => simp [Value.eq, Value.number] at heq

theorem eventOf_of_eq (v w : Value F) (e : EventIdentity String) (h : v.eq w)
    (he : eventOf v = .ok e) : eventOf w = .ok e := by
  obtain ⟨event, hev, hkey⟩ := except_bind_eq_ok.mp he
  obtain ⟨b, hb, heq⟩ := item_of_eq h hev
  exact except_bind_eq_ok.mpr ⟨b, hb, key_of_eq heq hkey⟩

theorem textItem_of_eq {v w : Value F} {field t : String} (h : v.eq w)
    (ht : textItem v field = .ok t) : textItem w field = .ok t :=
  textItem_eq_ok.mpr (.of_eq h (textItem_eq_ok.mp ht))

theorem groupOf_of_eq (v w : Value F) (g : SourceGroup) (h : v.eq w) (hg : groupOf v = .ok g) :
    groupOf w = .ok g := by
  obtain ⟨source, hs, hg⟩ := except_bind_eq_ok.mp hg
  obtain ⟨entry, he, hg⟩ := except_bind_eq_ok.mp hg
  obtain ⟨snapshot, hsn, hg⟩ := except_bind_eq_ok.mp hg
  obtain ⟨acknowledge, hack, hg⟩ := except_bind_eq_ok.mp hg
  obtain ⟨items, hitems, hg⟩ := except_bind_eq_ok.mp hg
  obtain ⟨events, hevents, hg⟩ := except_bind_eq_ok.mp hg
  have hread := listItem_mapM_of_eq eventOf_of_eq h (except_bind_eq_ok.mpr ⟨items, hitems, hevents⟩)
  obtain ⟨items', hitems', hevents'⟩ := except_bind_eq_ok.mp hread
  rw [groupOf, textItem_of_eq h hs, textItem_of_eq h he, textItem_of_eq h hsn, textItem_of_eq h hack,
    hitems']
  show (List.mapM eventOf items' >>= _) = _
  rw [hevents']
  exact hg

variable [FloatText F] (sha256 : List UInt8 → String)

/-- **What the emitter reads of a plan is what the plan represents.** -/
theorem planOf_represents {v : Value F} {p : PlanContent String} {plan : Plan}
    (h : Represents sha256 jsonBytes v p) (hplan : planOf v = .ok plan) :
    plan = ⟨p, (sourceGroups p.bindings).map Group.sourceGroup, sha256 (jsonBytes (unsigned v))⟩ := by
  obtain ⟨content, hcontent, hrest⟩ := except_bind_eq_ok.mp hplan
  obtain ⟨items, hitems, hrest⟩ := except_bind_eq_ok.mp hrest
  obtain ⟨groups, hgroups, hrest⟩ := except_bind_eq_ok.mp hrest
  obtain ⟨fingerprint, hfingerprint, hrest⟩ := except_bind_eq_ok.mp hrest
  cases hrest
  obtain ⟨_, hitem, heq⟩ := h.groups
  rw [listItem_eq_ok.mp hitems] at hitem
  cases hitem
  have hread : ((sourceGroups p.bindings).map groupValue).mapM (groupOf (F := F)) = .ok groups := by
    rw [Value.eq] at heq
    exact mapM_of_eq groupOf_of_eq heq hgroups
  have hgroup : ∀ g : Group, groupOf (groupValue g : Value F) = .ok g.sourceGroup := fun g =>
    groupOf_of_eq _ _ _ (sortKeys_eq (plain_groupValue g)) (groupOf_sortKeys g)
  have hmap : ((sourceGroups p.bindings).map groupValue).mapM (groupOf (F := F)) =
      .ok ((sourceGroups p.bindings).map Group.sourceGroup) := by
    refine mapM_eq (R := fun w g => groupOf w = .ok g) (fun _ _ => id) ?_
    rw [List.forall₂_map_left_iff, List.forall₂_map_right_iff, List.forall₂_same]
    exact fun g _ => hgroup g
  have hcontent' : content = p := Except.ok.inj (hcontent.symm.trans (contentOf_eq sha256 h))
  have hgroups' : groups = (sourceGroups p.bindings).map Group.sourceGroup :=
    Except.ok.inj (hread.symm.trans hmap)
  have hfingerprint' : fingerprint = sha256 (jsonBytes (unsigned v)) :=
    (textItem_eq_ok.mp hfingerprint).unique h.fingerprint
  rw [hcontent', hgroups', hfingerprint']

end Reading

/-! ### Texts without NUL -/

theorem nulFree_identifier {s : String} (h : identifier s) : NulFree s := by
  simp only [identifier, Bool.and_eq_true, List.all_eq_true, decide_eq_true_eq] at h
  intro hnul
  exact absurd (h.2 _ hnul).2 (by decide)

@[simp] theorem nulFree_toString (n : Nat) : NulFree (toString n) := by
  rw [NulFree, Nat.toString_eq_repr, Nat.toList_repr]
  intro hnul
  exact absurd (Nat.isDigit_of_mem_toDigits (by decide) (by decide) hnul) (by decide)

theorem nulFree_intercalate {sep : String} (hsep : NulFree sep) {lines : List String}
    (h : ∀ line ∈ lines, NulFree line) : NulFree (sep.intercalate lines) := by
  rw [NulFree, String.toList_intercalate]
  refine fun hnul => forall_mem_intercalate (P := fun c => c ≠ '\x00') (fun c hc heq => ?_)
    (List.forall_mem_map.mpr fun line hline c hc heq => ?_) _ hnul rfl
  · exact hsep (heq ▸ hc)
  · exact h line hline (heq ▸ hc)

/-- No text of the event has a NUL. -/
abbrev EventNulFree (e : EventIdentity String) : Prop := ∀ t ∈ e.texts, NulFree t

theorem nulFree_eventType {e : EventIdentity String} (h : EventNulFree e) : NulFree (eventType e) := by
  simp only [EventNulFree, EventIdentity.texts, List.forall_mem_cons] at h
  unfold eventType
  simp only [nulFree_append, h, and_true]
  and_intros
  all_goals exact nulFree_ofList (by decide)

theorem nulFree_sourceType {source : String} (h : NulFree source) : NulFree (sourceType source) := by
  unfold sourceType
  simp only [nulFree_append, h, and_true]
  and_intros
  all_goals exact nulFree_ofList (by decide)

theorem nulFree_viewText {value : String} (h : NulFree value) : NulFree (viewText value) := by
  unfold viewText
  simp only [nulFree_append, h, nulFree_toString, and_true]
  and_intros
  all_goals exact nulFree_ofList (by decide)

theorem nulFree_literalText {value : String} (h : NulFree value) : NulFree (literalText value) := by
  unfold literalText
  simp only [nulFree_append, h, and_true]
  and_intros
  all_goals exact nulFree_ofList (by decide)

theorem nulFree_guardName {backend source : String} (hb : NulFree backend) (hs : NulFree source) :
    NulFree (guardName backend source) := by
  unfold guardName
  simp only [nulFree_append, hb, hs, and_true]
  and_intros
  all_goals exact nulFree_ofList (by decide)

/-- A plan whose texts have no NUL. -/
structure PlanNulFree (plan : Plan) : Prop where
  identities : ∀ t ∈ plan.content.header, NulFree t
  policy : NulFree plan.content.policy
  demands : ∀ d ∈ plan.content.demands, ∀ t ∈ d.texts, NulFree t
  bindings : ∀ b ∈ plan.content.bindings, ∀ t ∈ b.event.texts ++ b.texts, NulFree t
  groups : ∀ g ∈ plan.sourceGroups, NulFree g.source ∧ ∀ e ∈ g.events, EventNulFree e
  fingerprint : NulFree plan.fingerprint

/-! ### The header -/

theorem nulFree_demandLines (index : Nat) {d : Demand String} (h : ∀ t ∈ d.texts, NulFree t) :
    ∀ line ∈ demandLines index d, NulFree line := by
  rw [Demand.texts, List.forall_mem_append] at h
  obtain ⟨hevent, htexts⟩ := h
  simp only [List.forall_mem_cons] at htexts
  unfold demandLines
  simp only [List.forall_mem_cons, nulFree_append, nulFree_toString, nulFree_eventType hevent,
    nulFree_viewText htexts.1, nulFree_viewText htexts.2.1, nulFree_viewText htexts.2.2.1, and_true,
    List.not_mem_nil, false_imp_iff, implies_true]
  and_intros
  all_goals exact nulFree_ofList (by decide)

theorem nulFree_lines {b : BoundEvent} (he : EventNulFree b.event) (h : ∀ t ∈ b.demand.texts, NulFree t) :
    ∀ line ∈ b.lines, NulFree line := by
  rw [Demand.texts, List.forall_mem_append] at h
  obtain ⟨-, htexts⟩ := h
  simp only [List.forall_mem_cons] at htexts
  unfold BoundEvent.lines
  simp only [List.forall_mem_cons, nulFree_append, nulFree_toString, nulFree_eventType he,
    nulFree_viewText htexts.1, nulFree_viewText htexts.2.1, nulFree_viewText htexts.2.2.1, and_true,
    List.not_mem_nil, false_imp_iff, implies_true]
  and_intros
  all_goals exact nulFree_ofList (by decide)

theorem demandByKey_mem {demands : List (Demand String)} {e : EventIdentity String}
    {d : Demand String} (h : demandByKey demands e = .ok d) : d ∈ demands := by
  unfold demandByKey at h
  split at h
  · next hfind =>
    cases h
    exact List.mem_reverse.mp (List.mem_of_find?_eq_some hfind)
  · cases h

theorem nulFree_headerLines {plan : Plan} (h : PlanNulFree plan) {lines : List String}
    (hlines : headerLines plan = .ok lines) : ∀ line ∈ lines, NulFree line := by
  obtain ⟨bound, hbound, heq⟩ := except_bind_eq_ok.mp hlines
  cases heq
  have hbounds : ∀ b ∈ bound, ∀ line ∈ b.lines, NulFree line := by
    intro b hb
    obtain ⟨item, hitem, hf⟩ := exists_of_mem_mapM hbound b hb
    obtain ⟨d, hd, heq⟩ := except_bind_eq_ok.mp hf
    cases heq
    obtain ⟨i, hi, rfl⟩ := List.mem_mapIdx.mp hitem
    have hevent := (List.forall_mem_append.mp (h.bindings _ (List.getElem_mem hi))).1
    exact nulFree_lines hevent (h.demands d (demandByKey_mem hd))
  have hdemands : ∀ texts ∈ plan.content.demands.mapIdx demandLines, ∀ line ∈ texts, NulFree line := by
    intro texts htexts
    obtain ⟨i, hi, rfl⟩ := List.mem_mapIdx.mp htexts
    exact nulFree_demandLines i (h.demands _ (List.getElem_mem hi))
  simp only [List.forall_mem_append, List.forall_mem_flatten, List.forall_mem_flatMap,
    List.forall_mem_cons, nulFree_append, nulFree_toString, nulFree_viewText h.policy, h.fingerprint, and_true, List.not_mem_nil,
    false_imp_iff, implies_true]
  and_intros
  any_goals exact nulFree_ofList (by decide)
  · exact hdemands
  · exact hbounds

/-! ### The source -/

theorem nulFree_recordText {b : BindingRecord String} (h : ∀ t ∈ b.event.texts ++ b.texts, NulFree t) :
    NulFree (recordText b) := by
  obtain ⟨hevent, htexts⟩ := List.forall_mem_append.mp h
  have hshared : NulFree (if b.sharedSource then "true" else "false") := by
    split
    all_goals exact nulFree_ofList (by decide)
  have hidentity : NulFree ("::grevir::interrupt::identity<" ++ eventType b.event ++ ">()") :=
    nulFree_append.mpr ⟨nulFree_append.mpr ⟨nulFree_ofList (by decide), nulFree_eventType hevent⟩,
      nulFree_ofList (by decide)⟩
  refine nulFree_intercalate (nulFree_ofList (by decide)) ?_
  rw [List.forall_mem_append, List.forall_mem_cons, List.forall_mem_map]
  refine ⟨⟨hidentity, fun t ht => nulFree_literalText (htexts t ht)⟩, ?_⟩
  simp only [List.forall_mem_cons]
  exact ⟨nulFree_toString _, hshared, by simp⟩

theorem nulFree_name (member : BoardIdentity) : NulFree member.name := by
  cases member
  all_goals exact nulFree_ofList (by decide)

theorem nulFree_render {plan : Plan} (h : PlanNulFree plan) :
    ∀ a ∈ assertions plan, NulFree a.render := by
  have hbinding : ∀ a ∈ bindingAssertions plan, NulFree a.render := by
    intro a ha
    obtain ⟨i, hi, rfl⟩ := List.mem_mapIdx.mp ha
    have hrecord := nulFree_recordText (h.bindings _ (List.getElem_mem hi))
    unfold Assertion.render
    simp only [nulFree_append, nulFree_toString, hrecord, and_true]
    and_intros
    all_goals exact nulFree_ofList (by decide)
  refine List.forall_mem_append.mpr ⟨?_, hbinding⟩
  have hidentities := h.identities
  simp only [PlanContent.header, List.forall_mem_cons] at hidentities
  obtain ⟨hbackend, htarget, hboard, hcompiler, -⟩ := hidentities
  unfold applicationAssertions
  simp only [List.forall_mem_cons]
  unfold Assertion.render
  simp only [nulFree_append, nulFree_toString, nulFree_name, nulFree_literalText h.fingerprint,
    nulFree_literalText hbackend, nulFree_literalText htarget, nulFree_literalText hboard,
    nulFree_literalText hcompiler, and_true, List.not_mem_nil, false_imp_iff, implies_true]
  and_intros
  all_goals exact nulFree_ofList (by decide)

section Routines

variable {backend : String} (hbackend : NulFree backend) {r : Routine} (hsource : NulFree r.group.source)

include hbackend hsource

theorem nulFree_dispatchLines (hevent : EventNulFree r.event) :
    ∀ line ∈ dispatchLines backend r, NulFree line := by
  unfold dispatchLines
  split
  all_goals
    simp only [List.forall_mem_cons, nulFree_append, nulFree_guardName hbackend hsource,
      nulFree_eventType hevent, nulFree_toString, and_true, List.not_mem_nil, false_imp_iff, implies_true]
    and_intros
    all_goals exact nulFree_ofList (by decide)

theorem nulFree_installLines : ∀ line ∈ installLines backend r, NulFree line := by
  unfold installLines
  split
  all_goals
    simp only [List.forall_mem_cons, nulFree_append, nulFree_guardName hbackend hsource,
      nulFree_sourceType hsource, nulFree_toString, and_true, List.not_mem_nil, false_imp_iff,
      implies_true]
    and_intros
    all_goals exact nulFree_ofList (by decide)

end Routines

theorem nulFree_sourceLines {plan : Plan} (h : PlanNulFree plan) {applicationHeader : String}
    (hheader : NulFree applicationHeader) {lines : List String}
    (hlines : sourceLines plan applicationHeader = .ok lines) : ∀ line ∈ lines, NulFree line := by
  obtain ⟨rs, hrs, heq⟩ := except_bind_eq_ok.mp hlines
  cases heq
  have hbackend : NulFree plan.content.backend := h.identities _ List.mem_cons_self
  have hroutine : ∀ r ∈ rs, NulFree r.group.source ∧ EventNulFree r.event := by
    intro r hr
    obtain ⟨hgroup, hevent⟩ := routine_spec hrs hr
    obtain ⟨hsource, hevents⟩ := h.groups _ hgroup
    exact ⟨hsource, hevents _ hevent⟩
  have hdispatch : ∀ r ∈ rs, ∀ line ∈ dispatchLines plan.content.backend r, NulFree line :=
    fun r hr => nulFree_dispatchLines hbackend (hroutine r hr).1 (hroutine r hr).2
  have hinstall : ∀ r ∈ rs, ∀ line ∈ installLines plan.content.backend r, NulFree line :=
    fun r hr => nulFree_installLines hbackend (hroutine r hr).1
  obtain ⟨happlication, hbindings⟩ := List.forall_mem_append.mp (nulFree_render h)
  simp only [List.forall_mem_append, List.forall_mem_flatMap, List.forall_mem_map,
    List.forall_mem_cons, nulFree_append, hheader, and_true, List.not_mem_nil, false_imp_iff,
    implies_true]
  and_intros
  any_goals exact nulFree_ofList (by decide)
  · exact happlication
  · -- the device header of the backend
    split
    · exact List.forall_mem_singleton.mpr (nulFree_ofList (by decide))
    · split
      · exact List.forall_mem_singleton.mpr (nulFree_ofList (by decide))
      · simp
  · exact hbindings
  · exact hdispatch
  · exact hinstall

/-! ### The outputs -/

/-- A source group of exclusive bindings is that of one of them. -/
theorem exists_of_mem_sourceGroups {bindings : List (BindingRecord String)} (h : Exclusive bindings)
    {g : Group} (hg : g ∈ sourceGroups bindings) :
    ∃ b ∈ bindings, g = (Group.new b).append b := by
  rw [sourceGroups_eq h.sources] at hg
  obtain ⟨g', hg', rfl⟩ := List.mem_map.mp hg
  obtain ⟨k, -, hlookup⟩ := List.mem_filterMap.mp hg'
  obtain ⟨b, hb, heq⟩ := List.mem_map.mp (mem_of_lookup hlookup)
  cases heq
  exact ⟨b, hb, by simp [Group.sortEvents, Group.append, Group.new]⟩

variable {F : Type} [PyFloat F] [FloatText F] {sha256 : List UInt8 → String}

theorem planNulFree (hsha : ∀ data, NulFree (sha256 data)) {p : PlanContent String} (h : Valid p)
    (data : List UInt8) :
    PlanNulFree ⟨p, (sourceGroups p.bindings).map Group.sourceGroup, sha256 data⟩ := by
  have htexts : ∀ t ∈ p.texts, NulFree t := by
    intro t ht
    rcases h.texts t ht with hid | rfl
    · exact nulFree_identifier hid
    · exact nulFree_ofList (by decide)
  simp only [PlanContent.texts, List.forall_mem_append, List.forall_mem_flatMap,
    List.forall_mem_singleton] at htexts
  obtain ⟨⟨⟨hheader, hpolicy⟩, hdemands⟩, hbindings⟩ := htexts
  refine ⟨hheader, hpolicy, hdemands, fun b hb => List.forall_mem_append.mpr (hbindings b hb), ?_,
    hsha data⟩
  intro g hg
  obtain ⟨group, hgroup, rfl⟩ := List.mem_map.mp hg
  obtain ⟨b, hb, rfl⟩ := exists_of_mem_sourceGroups h.exclusive hgroup
  obtain ⟨hevent, htexts⟩ := hbindings b hb
  refine ⟨htexts b.source (by simp [BindingRecord.texts]), ?_⟩
  simpa [Group.sourceGroup, Group.append, Group.new] using hevent

/-- **Neither output of a plan that is read has a zero byte.** -/
theorem emit_nulFree (hsha : ∀ data, NulFree (sha256 data)) {v : Value F} {p : PlanContent String}
    (hrep : Represents sha256 jsonBytes v p) (hvalid : Valid p) {plan : Plan} (hplan : planOf v = .ok plan)
    {applicationHeader : String} (hheader : NulFree applicationHeader) {outputs : List UInt8 × List UInt8}
    (houtputs : emit plan applicationHeader = .ok outputs) : 0 ∉ outputs.1 ∧ 0 ∉ outputs.2 := by
  have hnul : PlanNulFree plan := by
    rw [planOf_represents sha256 hrep hplan]
    exact planNulFree hsha hvalid _
  obtain ⟨_, -, hrest⟩ := except_bind_eq_ok.mp houtputs
  obtain ⟨_, -, hrest⟩ := except_bind_eq_ok.mp hrest
  obtain ⟨header, hheaderLines, hrest⟩ := except_bind_eq_ok.mp hrest
  obtain ⟨source, hsourceLines, hrest⟩ := except_bind_eq_ok.mp hrest
  cases hrest
  have hline : NulFree "\n" := nulFree_ofList (by decide)
  exact ⟨Utf8.zero_notMem_bytes (nulFree_intercalate hline (nulFree_headerLines hnul hheaderLines)),
    Utf8.zero_notMem_bytes (nulFree_intercalate hline (nulFree_sourceLines hnul hheader hsourceLines))⟩

end Grevir.Irqgen
