import Mathlib.Algebra.Ring.Nat
import Mathlib.Data.List.Basic
import Mathlib.Tactic.Common

/-!
# Support — Framing

A text framed by its length: the length in decimal, a separator, the text.  What follows a framed
text can be read off, whatever letters the text has, as long as the decimal is wide enough for the
length and the separator is not a digit.

* `decimal`: the last `width` decimal digits of a number, in ASCII.
* `decimal_inj`: the digits tell the number, where there are as many as it takes.
* `framed_append_inj`: a framed text and what follows it are told apart.
-/

namespace Framing

/-! ### Decimals -/

/-- The ASCII of the last digit of a number. -/
def digit (value : Nat) : UInt8 := UInt8.ofNat (48 + value % 10)

theorem toNat_digit (value : Nat) : (digit value).toNat = 48 + value % 10 := by
  rw [digit, UInt8.toNat_ofNat']
  have hlt := Nat.mod_lt value (Nat.succ_pos 9)
  exact Nat.mod_eq_of_lt (by omega)

theorem digit_inj {a b : Nat} (h : digit a = digit b) : a % 10 = b % 10 := by
  have h' := congrArg UInt8.toNat h
  rw [toNat_digit, toNat_digit] at h'
  exact Nat.add_left_cancel h'

/-- The last `width` digits. -/
def decimal : Nat → Nat → List UInt8
  | 0, _ => []
  | width + 1, value => digit (value / 10 ^ width) :: decimal width value

@[simp] theorem length_decimal (width value : Nat) : (decimal width value).length = width := by
  induction width with
  | zero => rfl
  | succ width ih => rw [decimal, List.length_cons, ih]

theorem mem_decimal {width value : Nat} {c : UInt8} (hc : c ∈ decimal width value) :
    48 ≤ c.toNat ∧ c.toNat ≤ 57 := by
  induction width with
  | zero => cases hc
  | succ width ih =>
      rcases List.mem_cons.mp hc with rfl | hc
      · rw [toNat_digit]
        have hlt := Nat.mod_lt (value / 10 ^ width) (Nat.succ_pos 9)
        omega
      · exact ih hc

theorem decimal_mod_inj {width a b : Nat} (h : decimal width a = decimal width b) :
    a % 10 ^ width = b % 10 ^ width := by
  induction width with
  | zero => rw [Nat.pow_zero, Nat.mod_one, Nat.mod_one]
  | succ width ih =>
      rw [decimal, decimal, List.cons.injEq] at h
      rw [Nat.mod_pow_succ, Nat.mod_pow_succ, ih h.2, digit_inj h.1]

/-- **The digits tell the number.** -/
theorem decimal_inj {w w' a b : Nat} (ha : a < 10 ^ w) (hb : b < 10 ^ w')
    (h : decimal w a = decimal w' b) : a = b := by
  have hw : w = w' := by
    have hlength := congrArg List.length h
    rwa [length_decimal, length_decimal] at hlength
  subst hw
  have hmod := decimal_mod_inj h
  rwa [Nat.mod_eq_of_lt ha, Nat.mod_eq_of_lt hb] at hmod

/-! ### Framed texts -/

/-- A separator that is in neither front part tells the parts apart. -/
theorem separated {α : Type*} {sep : α} {as bs cs ds : List α} (ha : sep ∉ as) (hc : sep ∉ cs)
    (h : as ++ sep :: bs = cs ++ sep :: ds) : as = cs ∧ bs = ds := by
  induction as generalizing cs with
  | nil =>
      cases cs with
      | nil => exact ⟨rfl, (List.cons.inj h).2⟩
      | cons c cs => exact absurd ((List.cons.inj h).1 ▸ List.mem_cons_self) hc
  | cons a as ih =>
      cases cs with
      | nil => exact absurd ((List.cons.inj h).1 ▸ List.mem_cons_self) ha
      | cons c cs =>
          obtain ⟨rfl, hrest⟩ := List.cons.inj h
          obtain ⟨rfl, hbs⟩ := ih (List.not_mem_of_not_mem_cons ha) (List.not_mem_of_not_mem_cons hc)
            hrest
          exact ⟨rfl, hbs⟩

section Framed

variable (width : Nat → Nat) (sep : UInt8)

/-- A text behind its length. -/
def framed (text : List UInt8) : List UInt8 :=
  decimal (width text.length) text.length ++ sep :: text

@[simp] theorem length_framed (text : List UInt8) :
    (framed width sep text).length = width text.length + 1 + text.length := by
  rw [framed, List.length_append, length_decimal, List.length_cons, Nat.add_assoc, Nat.add_comm 1]

variable {width sep}

/-- **A framed text and what follows it are told apart.** -/
theorem framed_append_inj (hwidth : ∀ n, n < 10 ^ width n) (hsep : sep.toNat < 48 ∨ 57 < sep.toNat)
    {a b r s : List UInt8} (h : framed width sep a ++ r = framed width sep b ++ s) :
    a = b ∧ r = s := by
  have hnot : ∀ w n, sep ∉ decimal w n := fun w n hmem => by
    have hrange := mem_decimal hmem
    omega
  rw [framed, framed, List.append_assoc, List.append_assoc, List.cons_append, List.cons_append] at h
  obtain ⟨hdecimal, hrest⟩ := separated (hnot _ _) (hnot _ _) h
  -- the lengths are the same, so the texts end at the same place
  exact List.append_inj hrest (decimal_inj (hwidth _) (hwidth _) hdecimal)

end Framed

end Framing
