import Grevir.Support.Json
import Mathlib.Data.Option.Basic

/-!
# Support — JsonKeys

The keys of dictionaries: a reader answers with no key twice, and two values that differ in the order
of their keys alone have one text.

* `loads_wellKeyed`: what a reader answers.
* `Alike.dict`: dictionaries with like values under the same keys are alike.
-/

namespace Json

/-! ### What a reader answers -/

section Items

variable {α : Type} {items : List (String × α)}

theorem mem_setItem {key : String} {value : α} {item : String × α}
    (h : item ∈ setItem key value items) : item = (key, value) ∨ item ∈ items := by
  induction items with
  | nil => exact .inl (List.mem_singleton.mp h)
  | cons first items ih =>
      rw [setItem] at h
      split at h
      · exact (List.mem_cons.mp h).imp_right (List.mem_cons_of_mem _)
      · rcases List.mem_cons.mp h with rfl | h
        · exact .inr List.mem_cons_self
        · exact (ih h).imp_right (List.mem_cons_of_mem _)

theorem nodup_setItem {key : String} {value : α} (h : (items.map Prod.fst).Nodup) :
    ((setItem key value items).map Prod.fst).Nodup := by
  induction items with
  | nil => exact List.nodup_singleton _
  | cons first items ih =>
      rw [List.map_cons, List.nodup_cons] at h
      rw [setItem]
      split
      · next heq => exact List.nodup_cons.mpr ⟨heq ▸ h.1, h.2⟩
      · next hne =>
        refine List.nodup_cons.mpr ⟨fun hmem => ?_, ih h.2⟩
        obtain ⟨item, hitem, hfst⟩ := List.mem_map.mp hmem
        rcases mem_setItem hitem with rfl | hitem
        · exact hne hfst.symm
        · exact h.1 (List.mem_map.mpr ⟨item, hitem, hfst⟩)

theorem ofItems_spec (items : List (String × α)) :
    ((ofItems items).map Prod.fst).Nodup ∧ ∀ item ∈ ofItems items, item ∈ items := by
  have hfold : ∀ done rest : List (String × α), (done.map Prod.fst).Nodup →
      ((rest.foldl (fun done item => setItem item.1 item.2 done) done).map Prod.fst).Nodup ∧
        ∀ item ∈ rest.foldl (fun done item => setItem item.1 item.2 done) done,
          item ∈ done ∨ item ∈ rest := by
    intro done rest hdone
    induction rest generalizing done with
    | nil => exact ⟨hdone, fun item hitem => .inl hitem⟩
    | cons first rest ih =>
        obtain ⟨hnodup, hmem⟩ := ih (setItem first.1 first.2 done) (nodup_setItem hdone)
        refine ⟨hnodup, fun item hitem => ?_⟩
        rcases hmem item hitem with h | h
        · exact (mem_setItem h).elim (fun heq => .inr (heq ▸ List.mem_cons_self)) .inl
        · exact .inr (List.mem_cons_of_mem _ h)
  obtain ⟨hnodup, hmem⟩ := hfold [] items List.nodup_nil
  exact ⟨hnodup, fun item hitem => (hmem item hitem).resolve_left (List.not_mem_nil)⟩

/-- What each member has, all members have. -/
theorem forall_members {P : α → Prop} {member : List Char → Option (α × List Char)}
    (hmember : ∀ text a rest, member text = some (a, rest) → P a) {closing : Char} {fuel : Nat}
    {text rest : List Char} {as : List α} (h : members member closing fuel text = some (as, rest)) :
    ∀ a ∈ as, P a := by
  induction fuel generalizing text as rest with
  | zero => cases h
  | succ fuel ih =>
      rw [members, Option.bind_eq_bind, Option.bind_eq_some_iff] at h
      obtain ⟨⟨a, rest₁⟩, ha, h⟩ := h
      have hfirst := hmember _ _ _ ha
      dsimp only at h
      split at h
      · cases h
      · split at h
        · cases h
          exact List.forall_mem_singleton.mpr hfirst
        · split at h
          · obtain ⟨⟨as', rest₂⟩, has, h⟩ := Option.bind_eq_some_iff.mp h
            cases h
            exact List.forall_mem_cons.mpr ⟨hfirst, ih has⟩
          · cases h

theorem forall_bracketed {P : α → Prop} {member : List Char → Option (α × List Char)}
    (hmember : ∀ text a rest, member text = some (a, rest) → P a) {closing : Char}
    {text rest : List Char} {as : List α} (h : bracketed member closing text = some (as, rest)) :
    ∀ a ∈ as, P a := by
  rw [bracketed] at h
  split at h
  · cases h
  · split at h
    · cases h
      exact List.forall_mem_nil _
    · exact forall_members hmember h

theorem readItem_value {value : List Char → Option (α × List Char)} {P : α → Prop}
    (hvalue : ∀ text a rest, value text = some (a, rest) → P a) {text rest : List Char}
    {item : String × α} (h : readItem value text = some (item, rest)) : P item.2 := by
  cases text with
  | nil => cases h
  | cons c text =>
      simp only [readItem, Option.bind_eq_bind, Option.bind_eq_some_iff] at h
      obtain ⟨-, -, ⟨key, rest₁⟩, -, h⟩ := h
      dsimp only at h
      split at h
      · cases h
      · simp only [Option.bind_eq_some_iff] at h
        obtain ⟨-, -, ⟨a, rest₂⟩, ha, h⟩ := h
        cases h
        exact hvalue _ _ _ ha

end Items

variable {F : Type}

section Reader

variable [FloatText F]

theorem readWord_wellKeyed {text rest : List Char} {v : Value F}
    (h : readWord text = some (v, rest)) : WellKeyed v := by
  have hword : ∀ {w : List Char} {n : Nat} {value : Option (Value F)},
      (if w <+: text then value.map fun v => (v, text.drop n) else none) = some (v, rest) →
      value = some v := by
    intro w n value hw
    split at hw
    · obtain ⟨x, hx, heq⟩ := Option.map_eq_some_iff.mp hw
      cases heq
      exact hx
    · cases hw
  have hnumber : ∀ {w : List Char}, ((FloatText.read w).map .float : Option (Value F)) = some v →
      WellKeyed v := by
    intro w hw
    obtain ⟨x, -, rfl⟩ := Option.map_eq_some_iff.mp hw
    exact .float x
  simp only [readWord, Option.orElse_eq_orElse, Option.orElse_eq_or, Option.or_eq_some_iff] at h
  rcases h with h | ⟨-, h | ⟨-, h | ⟨-, h | ⟨-, h | ⟨-, h⟩⟩⟩⟩⟩
  · cases hword h
    exact .null
  · cases hword h
    exact .bool true
  · cases hword h
    exact .bool false
  · exact hnumber (hword h)
  · exact hnumber (hword h)
  · exact hnumber (hword h)

theorem readUnsigned_wellKeyed {negative : Bool} {text rest : List Char} {v : Value F}
    (h : readUnsigned negative text = some (v, rest)) : WellKeyed v := by
  simp only [readUnsigned, Option.bind_eq_bind, Option.bind_eq_some_iff] at h
  obtain ⟨⟨whole, rest₁⟩, -, h⟩ := h
  split at h
  · cases h
    exact .int _
  · obtain ⟨x, -, h⟩ := Option.bind_eq_some_iff.mp h
    cases h
    exact .float x

theorem readNumber_wellKeyed {text rest : List Char} {v : Value F}
    (h : readNumber text = some (v, rest)) : WellKeyed v := by
  cases text with
  | nil => cases h
  | cons c text =>
      rw [readNumber] at h
      split at h
      · exact readUnsigned_wellKeyed h
      · exact readUnsigned_wellKeyed h

theorem readValue_wellKeyed (fuel : Nat) (text : List Char) (v : Value F) (rest : List Char)
    (h : readValue fuel text = some (v, rest)) : WellKeyed v := by
  induction fuel generalizing text v rest with
  | zero => cases h
  | succ fuel ih =>
      cases text with
      | nil => cases h
      | cons c text =>
          rw [readValue] at h
          split at h
          · obtain ⟨x, -, heq⟩ := Option.map_eq_some_iff.mp h
            cases heq
            exact .str _
          · split at h
            · obtain ⟨x, hx, heq⟩ := Option.map_eq_some_iff.mp h
              cases heq
              exact .list (forall_bracketed ih hx)
            · split at h
              · obtain ⟨x, hx, heq⟩ := Option.map_eq_some_iff.mp h
                cases heq
                obtain ⟨hnodup, hmem⟩ := ofItems_spec x.1
                exact .dict hnodup fun item hitem =>
                  forall_bracketed (fun _ _ _ h => readItem_value ih h) hx item (hmem item hitem)
              · simp only [Option.orElse_eq_orElse, Option.orElse_eq_or, Option.or_eq_some_iff] at h
                rcases h with h | ⟨-, h⟩
                · exact readWord_wellKeyed h
                · exact readNumber_wellKeyed h

/-- **No dictionary that is read has a key twice.** -/
theorem loads_wellKeyed {text : List Char} {v : Value F} (h : loads text = some v) :
    WellKeyed v := by
  simp only [loads, Option.bind_eq_bind, Option.bind_eq_some_iff] at h
  obtain ⟨⟨value, rest⟩, hvalue, -, -, h⟩ := h
  cases h
  exact readValue_wellKeyed _ _ _ _ hvalue

end Reader

/-! ### The order of keys -/

/-- The values differ in the order of keys alone. -/
def Alike (v w : Value F) : Prop := sortKeys v = sortKeys w

theorem Alike.dumps_eq [FloatText F] {v w : Value F} (h : Alike v w) (hv : WellKeyed v)
    (hw : WellKeyed w) (level : Nat) : dumps level v = dumps level w := by
  rw [← dumps_sortKeys hv, h, dumps_sortKeys hw]

/-- Dictionaries are alike when they have like values under the same keys. -/
theorem Alike.dict {items items' : List (String × Value F)} (hkeys : (items.map Prod.fst).Nodup)
    (hkeys' : (items'.map Prod.fst).Nodup)
    (h : ∀ key, (items.lookup key).map sortKeys = (items'.lookup key).map sortKeys) :
    Alike (.dict items) (.dict items') := by
  have hnodup : ∀ {l : List (String × Value F)}, (l.map Prod.fst).Nodup →
      ((sortItems (sortKeysItems l)).map Prod.fst).Nodup := by
    intro l hl
    refine ((sortItems_perm _).map Prod.fst).nodup_iff.mpr ?_
    rwa [sortKeysItems_eq_map, List.map_map]
  have hperm : (sortItems (sortKeysItems items)).Perm (sortItems (sortKeysItems items')) := by
    refine (List.perm_ext_iff_of_nodup (hnodup hkeys).of_map (hnodup hkeys').of_map).mpr ?_
    rintro ⟨key, v⟩
    rw [← lookup_eq_some_iff (hnodup hkeys), ← lookup_eq_some_iff (hnodup hkeys'),
      lookup_sortKeys hkeys, lookup_sortKeys hkeys', h]
  show Value.dict (sortItems (sortKeysItems items)) = .dict (sortItems (sortKeysItems items'))
  rw [← sortItems_idem, sortItems_eq_of_perm hperm (hnodup hkeys), sortItems_idem]

theorem Alike.list {vs ws : List (Value F)} (h : List.Forall₂ Alike vs ws) :
    Alike (.list vs) (.list ws) := by
  show Value.list (sortKeysList vs) = .list (sortKeysList ws)
  rw [sortKeysList_eq_map, sortKeysList_eq_map]
  induction h with
  | nil => rfl
  | cons hvw _ ih => rw [List.map_cons, List.map_cons, hvw, Value.list.inj ih]

/-- A dictionary without one of its keys. -/
theorem lookup_filter_ne {α : Type} (items : List (String × α)) (dropped key : String) :
    (items.filter fun item => item.1 ≠ dropped).lookup key =
      if key = dropped then none else items.lookup key := by
  induction items with
  | nil => simp
  | cons item items ih =>
      rw [List.filter_cons]
      by_cases hitem : item.1 = dropped
      · rw [if_neg (by simp [hitem]), ih, List.lookup_cons, hitem]
        by_cases hkey : key = dropped
        · rw [if_pos hkey, if_pos hkey]
        · rw [if_neg hkey, if_neg hkey, beq_false_of_ne hkey]
      · rw [if_pos (by simp [hitem]), List.lookup_cons, List.lookup_cons, ih]
        by_cases hkey : key = dropped
        · subst hkey
          rw [if_pos rfl, if_pos rfl, beq_false_of_ne (Ne.symm hitem)]
        · rw [if_neg hkey, if_neg hkey]

end Json
