import Grevir.Core.ResourceChecks

/-!
# Core — PinAliases

`has_conflict` when a board gives one physical pin several numbers.  Only the specialization for two
`GPIOResource`s looks at `CanonicalGPIO`; the specializations for ranges and shared claims compare
the pin's type.

* `hasConflict_pins`: two claims on pins, whatever is claimed of them.
* `aliases_respected_iff`: a pin's other number gives the same answers exactly for claims that are
  both pins, or do not contend on one pin, and what this comes to for an application.
-/

namespace Grevir.Core

variable {M Name Use : Type}

/-! ### Pins in claims -/

/-- The number of the pin that a claim is on. -/
def Resource.pin : Resource Name Use → Option Nat
  | .other _ => none
  | .gpio p => some p
  | .range t _ _ _ => t.pin
  | .shared t _ _ => t.pin

/-- The claim with its pin given another number. -/
def Resource.rename (f : Nat → Nat) : Resource Name Use → Resource Name Use
  | .other name => .other name
  | .gpio p => .gpio (f p)
  | .range t first last good => .range (t.rename f) first last good
  | .shared t id use => .shared (t.rename f) id use

/-- The claim is a `GPIOResource` itself. -/
def Resource.IsGpio (r : Resource Name Use) : Prop := ∃ p, r = .gpio p

def Parameter.rename (f : Nat → Nat) (p : Parameter M Name Use) : Parameter M Name Use :=
  { p with claims := p.claims.map (Resource.rename f) }

/-- A module with its pins given other numbers. -/
def Module.rename (f : Nat → Nat) (m : Module M Name Use) : Module M Name Use :=
  { m with params := m.params.map (Parameter.rename f) }

variable {f g : Nat → Nat} {r s : Resource Name Use} {a b c : Nat}

@[simp] theorem Resource.pin_rename (r : Resource Name Use) :
    (r.rename f).pin = r.pin.map f := by
  induction r with
  | other => rfl
  | gpio => rfl
  | range t _ _ _ ih => exact ih
  | shared t _ _ ih => exact ih

@[simp] theorem Resource.rename_rename (r : Resource Name Use) :
    (r.rename f).rename g = r.rename (g ∘ f) := by
  induction r with
  | other => rfl
  | gpio => rfl
  | range t _ _ _ ih => simp only [rename, ih]
  | shared t _ _ ih => simp only [rename, ih]

theorem Resource.rename_self (h : ∀ p, r.pin = some p → f p = p) : r.rename f = r := by
  induction r with
  | other => rfl
  | gpio p => exact congrArg Resource.gpio (h p rfl)
  | range t _ _ _ ih => simp only [rename, ih h]
  | shared t _ _ ih => simp only [rename, ih h]

theorem Resource.rename_id (r : Resource Name Use) : r.rename id = r := rename_self fun _ _ => rfl

@[simp] theorem Resource.isGpio_rename : (r.rename f).IsGpio ↔ r.IsGpio := by
  cases r <;> simp [IsGpio, rename]

theorem Resource.subject_rename : (r.rename f).subject = r.subject.map (rename f) := by
  cases r <;> rfl

theorem Resource.pin_subject {t : Resource Name Use} (h : r.subject = some t) : t.pin = r.pin := by
  cases r with
  | other => cases h
  | gpio => cases h
  | range => cases h; rfl
  | shared => cases h; rfl

/-! ### Contention -/

/-- **Two claims that do not go together**, one of them more than a pin: a resource as a whole and a
claim on it, two ranges with an integer in common, two shared uses of one id that differ. -/
inductive Contends : Resource Name Use → Resource Name Use → Prop
  | part {r t : Resource Name Use} (h : r.subject = some t) : Contends r t
  | whole {r t : Resource Name Use} (h : r.subject = some t) : Contends t r
  | range {t : Resource Name Use} {first₁ last₁ first₂ last₂ : Int} {good₁ : first₁ < last₁}
      {good₂ : first₂ < last₂} (h₁ : first₁ < last₂) (h₂ : first₂ < last₁) :
      Contends (.range t first₁ last₁ good₁) (.range t first₂ last₂ good₂)
  | shared {t : Resource Name Use} {id : Int} {use₁ use₂ : Use} (h : use₁ ≠ use₂) :
      Contends (.shared t id use₁) (.shared t id use₂)

/-- The claims would contend if their pins had one number. -/
def ContendOnOnePin (r s : Resource Name Use) : Prop :=
  Contends (r.rename fun _ => 0) (s.rename fun _ => 0)

theorem Contends.pin_eq (h : Contends r s) : r.pin = s.pin := by
  cases h with
  | part h => exact (Resource.pin_subject h).symm
  | whole h => exact Resource.pin_subject h
  | range => rfl
  | shared => rfl

theorem Contends.rename (h : Contends r s) (f : Nat → Nat) :
    Contends (r.rename f) (s.rename f) := by
  cases h with
  | part h => exact .part (Resource.subject_rename.trans (congrArg (Option.map _) h))
  | whole h => exact .whole (Resource.subject_rename.trans (congrArg (Option.map _) h))
  | range h₁ h₂ => exact .range h₁ h₂
  | shared h => exact .shared h

theorem Contends.symm (h : Contends r s) : Contends s r := by
  cases h with
  | part h => exact .whole h
  | whole h => exact .part h
  | range h₁ h₂ => exact .range h₂ h₁
  | shared h => exact .shared h.symm

/-- Claims on pins contend when the pin is one and they would on one pin. -/
theorem contends_iff (hr : r.pin = some a) (hs : s.pin = some c) :
    Contends r s ↔ a = c ∧ ContendOnOnePin r s := by
  constructor
  · intro h
    exact ⟨Option.some.inj (hr.symm.trans (h.pin_eq.trans hs)), h.rename _⟩
  · rintro ⟨rfl, h⟩
    have hback := h.rename fun _ => a
    rw [Resource.rename_rename, Resource.rename_rename, Resource.rename_self,
      Resource.rename_self] at hback
    · exact hback
    · intro p hp
      exact Option.some.inj (hs.symm.trans hp)
    · intro p hp
      exact Option.some.inj (hr.symm.trans hp)

theorem contendOnOnePin_rename :
    ContendOnOnePin (r.rename f) (s.rename g) ↔ ContendOnOnePin r s := by
  simp [ContendOnOnePin, Function.comp_def]

/-- Two pins do not contend: they have a specialization of their own. -/
theorem not_contends_gpio (p q : Nat) :
    ¬ Contends (.gpio p : Resource Name Use) (.gpio q) := by
  intro h
  cases h with
  | part h => cases h
  | whole h => cases h

theorem not_contendOnOnePin (hr : r.IsGpio) (hs : s.IsGpio) : ¬ ContendOnOnePin r s := by
  obtain ⟨p, rfl⟩ := hr
  obtain ⟨q, rfl⟩ := hs
  exact not_contends_gpio _ _

/-- Two ranges of one resource contend when they overlap. -/
theorem contends_range {t : Resource Name Use} {first₁ last₁ first₂ last₂ : Int}
    (good₁ : first₁ < last₁) (good₂ : first₂ < last₂) :
    Contends (.range t first₁ last₁ good₁) (.range t first₂ last₂ good₂) ↔
      first₁ < last₂ ∧ first₂ < last₁ := by
  refine ⟨fun h => ?_, fun h => .range h.1 h.2⟩
  cases h with
  | part h => cases h
  | whole h => cases h
  | range h₁ h₂ => exact ⟨h₁, h₂⟩

/-- Two shared uses of one id contend when they differ. -/
theorem contends_shared {t : Resource Name Use} {id : Int} {use₁ use₂ : Use} :
    Contends (.shared t id use₁) (.shared t id use₂) ↔ use₁ ≠ use₂ := by
  refine ⟨fun h => ?_, .shared⟩
  cases h with
  | part h => cases h
  | whole h => cases h
  | shared h => exact h

/-- One claim is on the other, or both are ranges of one resource, or shared uses of one id. -/
theorem Contends.subject_or (h : Contends r s) :
    (r.subject = some s ∨ s.subject = some r) ∨
      (∃ t f₁ l₁ g₁ f₂ l₂ g₂, r = .range t f₁ l₁ g₁ ∧ s = .range t f₂ l₂ g₂) ∨
      ∃ t id use₁ use₂, r = .shared t id use₁ ∧ s = .shared t id use₂ := by
  cases h with
  | part h => exact .inl (.inl h)
  | whole h => exact .inl (.inr h)
  | range => exact .inr (.inl ⟨_, _, _, _, _, _, _, rfl, rfl⟩)
  | shared => exact .inr (.inr ⟨_, _, _, _, rfl, rfl⟩)

/-! ### `has_conflict` on pins -/

section Conflict

variable [DecidableEq Name] [DecidableEq Use] {canonicalGpio : Nat → Nat}

theorem sameOrWhole_iff :
    sameOrWhole r s = true ↔ r = s ∨ r.subject = some s ∨ s.subject = some r := by
  simp [sameOrWhole, or_assoc]

/-- The specializations but for two ranges, two shared claims and two pins. -/
theorem sameOrWhole_contends (hne : r ≠ s)
    (hother : Contends r s → r.subject = some s ∨ s.subject = some r) :
    sameOrWhole r s = true ↔ Contends r s := by
  rw [sameOrWhole_iff, or_iff_right hne]
  exact ⟨fun h => h.elim .part .whole, hother⟩

/-- **Where the claims are not both pins, a conflict of a claim on a pin is contention.** -/
theorem hasConflict_contends (hr : r.pin = some a) (hgpio : ¬ (r.IsGpio ∧ s.IsGpio)) :
    hasConflict canonicalGpio r s = true ↔ Contends r s := by
  cases r with
  | other => cases hr
  | gpio p =>
      have hs : ¬ s.IsGpio := fun hs => hgpio ⟨⟨p, rfl⟩, hs⟩
      have hshape : hasConflict canonicalGpio (.gpio p) s = sameOrWhole (.gpio p) s := by
        cases s with
        | gpio q => exact absurd ⟨q, rfl⟩ hs
        | _ => rfl
      rw [hshape]
      exact sameOrWhole_contends (fun e => hs ⟨p, e.symm⟩) fun h => by simpa using h.subject_or
  | range t first₁ last₁ good₁ =>
      cases s with
      | range u first₂ last₂ good₂ =>
          by_cases htu : t = u
          · subst htu
            rw [contends_range]
            simp [hasConflict, good₁, good₂, and_comm]
          · rw [hasConflict, if_neg htu]
            exact sameOrWhole_contends (fun e => htu (Resource.range.inj e).1)
              fun h => by simpa [Ne.symm htu] using h.subject_or
      | other => exact sameOrWhole_contends (fun e => by cases e) fun h => by simpa using h.subject_or
      | gpio => exact sameOrWhole_contends (fun e => by cases e) fun h => by simpa using h.subject_or
      | shared =>
          exact sameOrWhole_contends (fun e => by cases e) fun h => by simpa using h.subject_or
  | shared t id₁ use₁ =>
      cases s with
      | shared u id₂ use₂ =>
          by_cases hid : t = u ∧ id₁ = id₂
          · obtain ⟨rfl, rfl⟩ := hid
            rw [contends_shared]
            simp [hasConflict]
          · rw [hasConflict, if_neg hid]
            refine sameOrWhole_contends (fun e => hid ?_)
              fun h => by simpa [hid] using h.subject_or
            exact ⟨(Resource.shared.inj e).1, (Resource.shared.inj e).2.1⟩
      | other => exact sameOrWhole_contends (fun e => by cases e) fun h => by simpa using h.subject_or
      | gpio => exact sameOrWhole_contends (fun e => by cases e) fun h => by simpa using h.subject_or
      | range => exact sameOrWhole_contends (fun e => by cases e) fun h => by simpa using h.subject_or

/-- **`has_conflict` of two claims on pins**: two pins by the board's mapping, and any others when
they contend on one pin and have its number the same. -/
theorem hasConflict_pins (hr : r.pin = some a) (hs : s.pin = some c) :
    hasConflict canonicalGpio r s = true ↔
      (r.IsGpio ∧ s.IsGpio ∧ canonicalGpio a = canonicalGpio c) ∨ (a = c ∧ ContendOnOnePin r s) := by
  by_cases hgpio : r.IsGpio ∧ s.IsGpio
  · rw [or_iff_left fun h => not_contendOnOnePin hgpio.1 hgpio.2 h.2]
    obtain ⟨⟨p, rfl⟩, ⟨q, rfl⟩⟩ := hgpio
    cases hr
    cases hs
    simp [hasConflict, Resource.IsGpio]
  · rw [hasConflict_contends hr hgpio, contends_iff hr hs, or_iff_right]
    exact fun h => hgpio ⟨h.1, h.2.1⟩

/-- A claim on a pin does not conflict with one on none. -/
theorem hasConflict_no_pin (hr : r.pin = some a) (hs : s.pin = none) :
    hasConflict canonicalGpio r s = false := by
  have hgpio : ¬ s.IsGpio := by
    rintro ⟨p, rfl⟩
    cases hs
  rw [← Bool.not_eq_true, hasConflict_contends hr fun h => hgpio h.2]
  intro h
  exact absurd (hr.symm.trans (h.pin_eq.trans hs)) nofun

/-! ### Other numbers -/

/-- The claims contend on one pin, and one of its two numbers is the other claim's. -/
def Parted (a b : Nat) (r s : Resource Name Use) : Prop :=
  a ≠ b ∧ (s.pin = some a ∨ s.pin = some b) ∧ ContendOnOnePin r s

theorem hasConflict_rename_iff (hr : r.pin = some a) (hb : canonicalGpio b = canonicalGpio a) :
    hasConflict canonicalGpio (r.rename fun _ => b) s = hasConflict canonicalGpio r s ↔
      ¬ Parted a b r s := by
  have hr' : (r.rename fun _ => b).pin = some b := by simp [hr]
  cases hs : s.pin with
  | none =>
      rw [hasConflict_no_pin hr hs, hasConflict_no_pin hr' hs, Parted, hs]
      simp
  | some c =>
      have hcontend : ContendOnOnePin (r.rename fun _ => b) s ↔ ContendOnOnePin r s := by
        rw [← Resource.rename_id s, contendOnOnePin_rename, Resource.rename_id]
      rw [Bool.eq_iff_iff, hasConflict_pins hr hs, hasConflict_pins hr' hs, Resource.isGpio_rename,
        hcontend, hb, Parted, hs, Option.some.injEq, Option.some.injEq]
      by_cases h : ContendOnOnePin r s
      · have hnot : ¬ (r.IsGpio ∧ s.IsGpio ∧ canonicalGpio a = canonicalGpio c) :=
          fun hg => not_contendOnOnePin hg.1 hg.2.1 h
        rw [or_iff_right hnot, or_iff_right hnot]
        simp only [h, and_true]
        omega
      · simp [h]

/-- The claims contend on one pin, and stand under two numbers that the renaming makes one. -/
def Joined (f : Nat → Nat) (r s : Resource Name Use) : Prop :=
  ∃ a c, r.pin = some a ∧ s.pin = some c ∧ a ≠ c ∧ f a = f c ∧ ContendOnOnePin r s

omit [DecidableEq Name] [DecidableEq Use] in
theorem Joined.symm (h : Joined f r s) : Joined f s r := by
  obtain ⟨a, c, hr, hs, hne, hf, hcontend⟩ := h
  exact ⟨c, a, hs, hr, hne.symm, hf.symm, Contends.symm hcontend⟩

omit [DecidableEq Name] [DecidableEq Use] in
theorem joined_iff (hr : r.pin = some a) (hs : s.pin = some c) :
    Joined f r s ↔ a ≠ c ∧ f a = f c ∧ ContendOnOnePin r s := by
  refine ⟨?_, fun h => ⟨a, c, hr, hs, h⟩⟩
  rintro ⟨a', c', hr', hs', h⟩
  obtain rfl : a = a' := Option.some.inj (hr.symm.trans hr')
  obtain rfl : c = c' := Option.some.inj (hs.symm.trans hs')
  exact h

/-- Both claims with their pins given other numbers of the same pins. -/
theorem hasConflict_rename (hf : ∀ p, canonicalGpio (f p) = canonicalGpio p) :
    hasConflict canonicalGpio (r.rename f) (s.rename f) = true ↔
      hasConflict canonicalGpio r s = true ∨ Joined f r s := by
  have hpin : ∀ {t : Resource Name Use} {p}, t.pin = some p → (t.rename f).pin = some (f p) := by
    intro t p h
    simp [h]
  have hfree : ∀ {t : Resource Name Use}, t.pin = none → t.rename f = t := fun h =>
    Resource.rename_self fun p hp => absurd (h.symm.trans hp) nofun
  cases hr : r.pin with
  | none =>
      have hjoined : ¬ Joined f r s := by
        rintro ⟨a, c, ha, -⟩
        exact absurd (hr.symm.trans ha) nofun
      rw [or_iff_left hjoined, hfree hr]
      cases hs : s.pin with
      | none => rw [hfree hs]
      | some c =>
          rw [hasConflict_comm, hasConflict_no_pin (hpin hs) hr, hasConflict_comm,
            hasConflict_no_pin hs hr]
  | some a =>
      cases hs : s.pin with
      | none =>
          have hjoined : ¬ Joined f r s := by
            rintro ⟨a, c, -, hc, -⟩
            exact absurd (hs.symm.trans hc) nofun
          rw [or_iff_left hjoined, hfree hs, hasConflict_no_pin (hpin hr) hs,
            hasConflict_no_pin hr hs]
      | some c =>
          rw [hasConflict_pins (hpin hr) (hpin hs), hasConflict_pins hr hs, joined_iff hr hs,
            Resource.isGpio_rename, Resource.isGpio_rename, contendOnOnePin_rename, hf, hf]
          by_cases hac : a = c
          · simp [hac]
          · simp [hac]

/-! ### Applications -/

omit [DecidableEq Name] [DecidableEq Use] in
theorem resources_rename (ms : List (Module M Name Use)) :
    resources (ms.map (Module.rename f)) = (resources ms).map (Resource.rename f) := by
  simp [resources, Module.resources, Module.rename, Parameter.rename, List.flatMap_map,
    List.map_flatMap]

theorem applicationHasConflict_rename (hf : ∀ p, canonicalGpio (f p) = canonicalGpio p)
    (ms : List (Module M Name Use)) :
    applicationHasConflict canonicalGpio (ms.map (Module.rename f)) = true ↔
      applicationHasConflict canonicalGpio ms = true ∨
        ∃ o o' r r', o ≠ o' ∧ resourceAt ms o = some r ∧ resourceAt ms o' = some r' ∧
          Joined f r r' := by
  have hpairs : applicationHasConflict canonicalGpio (ms.map (Module.rename f)) = true ↔
      ∃ o o' r r', o ≠ o' ∧ resourceAt ms o = some r ∧ resourceAt ms o' = some r' ∧
        (hasConflict canonicalGpio r r' = true ∨ Joined f r r') := by
    rw [(positions_resourceAt ms).exists_iff _ fun r r' h => h.imp
      (fun h => (hasConflict_comm _ r' r).trans h) Joined.symm, ← Bool.not_eq_false,
      applicationHasConflict_eq_false, resources_rename, List.pairwise_map]
    simp only [Apart, ← Bool.not_eq_true, hasConflict_rename hf]
  rw [hpairs, applicationHasConflict_iff]
  simp only [and_or_left, exists_or]

/-- **The answers respect a pin's other numbers exactly where the claims are not parted by them.** -/
theorem aliases_respected_iff (canonicalGpio : Nat → Nat) :
    (∀ (r s : Resource Name Use) (a b : Nat), r.pin = some a →
      canonicalGpio b = canonicalGpio a →
      ((hasConflict canonicalGpio (r.rename fun _ => b) s = hasConflict canonicalGpio r s ∧
        hasConflict canonicalGpio s (r.rename fun _ => b) = hasConflict canonicalGpio s r) ↔
      ¬ Parted a b r s)) ∧
    ∀ (ms : List (Module M Name Use)) (f : Nat → Nat),
      (∀ p, canonicalGpio (f p) = canonicalGpio p) →
      (applicationHasConflict canonicalGpio (ms.map (Module.rename f)) = true ↔
        applicationHasConflict canonicalGpio ms = true ∨
          ∃ o o' r r', o ≠ o' ∧ resourceAt ms o = some r ∧ resourceAt ms o' = some r' ∧
            Joined f r r') := by
  refine ⟨fun r s a b hr hb => ?_, fun ms f hf => applicationHasConflict_rename hf ms⟩
  rw [hasConflict_comm canonicalGpio s, hasConflict_comm canonicalGpio s, and_self]
  exact hasConflict_rename_iff hr hb

end Conflict

/-- A board on which the numbers 1 and 3 are one pin: a range of pin 1 stands beside pin 3. -/
theorem aliases_respected_odd :
    let part (p : Nat) : Resource Unit Unit := .range (.gpio p) 0 1 (by decide)
    ¬ (hasConflict (· % 2) (part 3) (.gpio 1) = hasConflict (· % 2) (part 1) (.gpio 1) ∧
      hasConflict (· % 2) (.gpio 1) (part 3) = hasConflict (· % 2) (.gpio 1) (part 1)) := by
  intro part h
  have hrespected := (@aliases_respected_iff Unit Unit Unit _ _ (· % 2)).1 (part 1) (.gpio 1) 1 3
    rfl rfl
  exact hrespected.mp h ⟨by decide, .inl rfl, .part rfl⟩

/-- Numbers 1 and 3 are one pin, and an application that claims the whole of it and a range of it is
accepted under two numbers and rejected under one. -/
theorem range_of_alias_accepted :
    let part : Resource Unit Unit := .range (.gpio 1) 0 1 (by decide)
    let written (p : Nat) : List (Module Unit Unit Unit) :=
      [⟨[], [⟨none, [part]⟩]⟩, ⟨[], [⟨none, [.gpio p]⟩]⟩]
    hasConflict (· % 2) part (.gpio 1) = true ∧ hasConflict (· % 2) part (.gpio 3) = false ∧
      applicationHasConflict (· % 2) (written 1) = true ∧
      applicationHasConflict (· % 2) (written 3) = false :=
  ⟨rfl, rfl, rfl, applicationHasConflict_eq_false.mpr (List.pairwise_pair.mpr rfl)⟩

end Grevir.Core
