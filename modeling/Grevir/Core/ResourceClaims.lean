import Mathlib.Tactic.Common
import Mathlib.Data.List.Basic

/-!
# Core — ResourceClaims

What a module parameter may claim, and when two claims of one application conflict.  Any type names
a resource; a range claims the integers from `first` up to `last`, exclusive, of one, and a shared
claim uses one jointly with every claim of the same id and the same parameters.

`has_conflict` is a set of partial specializations.  No two of them fit one pair of resources unless
one is more specialized, and the branches of `hasConflict` are in that order.

* `hasConflict_comm`: the order of the two resources does not matter.
* `hasConflict_range_iff`: two ranges of one resource conflict when an integer lies in both.
-/

namespace Grevir.Core

/-- A type given to `ResourceClaim`.  `Use` is what a shared claim demands of the resource. -/
inductive Resource (Name Use : Type) where
  | other (name : Name)
  | gpio (pin : Nat)
  | range (resource : Resource Name Use) (first last : Int) (good : first < last)
  | shared (resource : Resource Name Use) (id : Int) (use : Use)
  deriving DecidableEq

variable {Name Use : Type}

/-- The `T` a range or a shared claim is made of. -/
def Resource.subject : Resource Name Use → Option (Resource Name Use)
  | .range t _ _ _ => some t
  | .shared t _ _ => some t
  | _ => none

variable [DecidableEq Name] [DecidableEq Use]

/-- The specializations in which one resource is the `T` of the other, over `std::is_same`. -/
def sameOrWhole (r r' : Resource Name Use) : Bool :=
  r = r' || r.subject = some r' || r'.subject = some r

/-- `has_conflict<r, r'>::value`, under the board's `CanonicalGPIO`. -/
def hasConflict (canonicalGpio : Nat → Nat) (r r' : Resource Name Use) : Bool :=
  match r, r' with
  | .gpio a, .gpio b => canonicalGpio a = canonicalGpio b
  | .range t first₁ last₁ _, .range u first₂ last₂ _ =>
      if t = u then
        (last₁ > first₂ && last₂ > first₁) || !(last₁ > first₁) || !(last₂ > first₂)
      else sameOrWhole r r'
  | .shared t id₁ use₁, .shared u id₂ use₂ =>
      if t = u ∧ id₁ = id₂ then use₁ ≠ use₂ else sameOrWhole r r'
  | _, _ => sameOrWhole r r'

variable (canonicalGpio : Nat → Nat)

theorem sameOrWhole_comm (r r' : Resource Name Use) : sameOrWhole r r' = sameOrWhole r' r := by
  have h : decide (r = r') = decide (r' = r) := decide_eq_decide.mpr eq_comm
  rw [sameOrWhole, sameOrWhole, h, Bool.or_assoc, Bool.or_assoc,
    Bool.or_comm (decide (r.subject = some r'))]

/-- **`has_conflict` is symmetric.** -/
theorem hasConflict_comm (r r' : Resource Name Use) :
    hasConflict canonicalGpio r r' = hasConflict canonicalGpio r' r := by
  cases r with
  | gpio a =>
      cases r' with
      | gpio b => simp only [hasConflict, eq_comm]
      | _ => exact sameOrWhole_comm _ _
  | range t first₁ last₁ good₁ =>
      cases r' with
      | range u first₂ last₂ good₂ =>
          by_cases h : t = u
          · simp only [hasConflict, if_pos h, if_pos h.symm]
            simp [good₁, good₂, Bool.and_comm]
          · simp only [hasConflict, if_neg h, if_neg (Ne.symm h)]
            exact sameOrWhole_comm _ _
      | _ => exact sameOrWhole_comm _ _
  | shared t id₁ use₁ =>
      cases r' with
      | shared u id₂ use₂ =>
          by_cases h : t = u ∧ id₁ = id₂
          · simp only [hasConflict, if_pos h, if_pos (And.intro h.1.symm h.2.symm), ne_comm]
          · have h' : ¬ (u = t ∧ id₂ = id₁) := fun e => h ⟨e.1.symm, e.2.symm⟩
            simp only [hasConflict, if_neg h, if_neg h']
            exact sameOrWhole_comm _ _
      | _ => exact sameOrWhole_comm _ _
  | other n => cases r' <;> exact sameOrWhole_comm _ _

/-- **Two ranges of one resource conflict when an integer lies in both.** -/
theorem hasConflict_range_iff (t : Resource Name Use) {first₁ last₁ first₂ last₂ : Int}
    (good₁ : first₁ < last₁) (good₂ : first₂ < last₂) :
    hasConflict canonicalGpio (.range t first₁ last₁ good₁) (.range t first₂ last₂ good₂) = true ↔
      ∃ n : Int, (first₁ ≤ n ∧ n < last₁) ∧ first₂ ≤ n ∧ n < last₂ := by
  simp only [hasConflict, if_true, good₁, good₂, gt_iff_lt, decide_true, Bool.not_true,
    Bool.or_false, Bool.and_eq_true, decide_eq_true_eq]
  constructor
  · rintro ⟨h₁, h₂⟩
    exact ⟨max first₁ first₂, by omega⟩
  · rintro ⟨n, h⟩
    omega

end Grevir.Core
