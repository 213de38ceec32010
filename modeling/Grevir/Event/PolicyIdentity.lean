import Grevir.Support.Framing
import Grevir.Event.ContextPolicy
import Grevir.Interrupt.Demand

/-!
# Event — PolicyIdentity

The identity of a lock and a main-loop context tells both.  The names may have underscores, digits
and the letters `l` and `c` of the format, so it is the lengths in front of them that split the
identity; the routine writes a length from its last digit to its first, in as many digits as `digits`
counts.

* `Traced`: the routine with a record of the positions it writes.
* `Filled`: the front of the array is written, each position once, and the rest is zero.
* `storage_eq`: the routine writes `identityText`.
* `value_tells_names`: the identity has the computed length, each of its bytes is written once, no
  other pair of names has it, and it is a valid component when both names are.
-/

namespace Grevir.Event

open Framing

/-! ### `digits` -/

theorem lt_pow_digits (n : Nat) : n < 10 ^ digits n := by
  induction n using digits.induct with
  | case1 n hn ih =>
      rw [digits, if_pos hn, Nat.pow_succ]
      have hdiv := Nat.div_add_mod n 10
      omega
  | case2 n hn =>
      rw [digits, if_neg hn, Nat.pow_one]
      exact Nat.not_le.mp hn

/-! ### The routine, traced -/

/-- `Storage` with the positions written, in the order of the writes. -/
structure Traced extends Storage where
  written : List Nat

namespace Traced

/-- `result.bytes[i] = value`. -/
def write (t : Traced) (i : Nat) (value : UInt8) : Traced :=
  ⟨⟨t.bytes.set i value, t.offset⟩, t.written ++ [i]⟩

def put (t : Traced) (value : UInt8) : Traced :=
  { t.write t.offset value with offset := t.offset + 1 }

/-- `i` rounds of the loop of `append_number`, and what is left of the number. -/
def number (t : Traced) (value width i : Nat) : Traced × Nat :=
  (List.range i).foldl (fun (filled : Traced × Nat) i =>
    (filled.1.write (t.offset + width - 1 - i) (UInt8.ofNat (48 + filled.2 % 10)), filled.2 / 10))
    (t, value)

def appendNumber (t : Traced) (value width : Nat) : Traced :=
  { (t.number value width width).1 with offset := t.offset + width }

/-- The record does not change the routine. -/
@[simp] theorem toStorage_put (t : Traced) (value : UInt8) :
    (t.put value).toStorage = t.toStorage.put value := rfl

@[simp] theorem toStorage_appendNumber (t : Traced) (value width : Nat) :
    (t.appendNumber value width).toStorage = t.toStorage.appendNumber value width := by
  have hloop : (List.range width).foldl (fun (filled : List UInt8 × Nat) i =>
      (filled.1.set (t.offset + width - 1 - i) (UInt8.ofNat (48 + filled.2 % 10)), filled.2 / 10))
      (t.bytes, value) =
      ((t.number value width width).1.bytes, (t.number value width width).2) :=
    @List.foldl_hom _ _ _ (fun (filled : Traced × Nat) => (filled.1.bytes, filled.2)) _ _ _ (t, value)
      fun _ _ => rfl
  rw [Storage.appendNumber, hloop]
  rfl

@[simp] theorem toStorage_foldl_put (t : Traced) (text : List UInt8) :
    (text.foldl put t).toStorage = text.foldl Storage.put t.toStorage :=
  (List.foldl_hom toStorage fun _ _ => rfl).symm

/-! ### What the routine fills -/

/-- The array starts with `done`, each position of it written once; the other `room` bytes are zero. -/
structure Filled (t : Traced) (done : List UInt8) (room : Nat) : Prop where
  bytes : t.bytes = done ++ List.replicate room 0
  offset : t.offset = done.length
  written : t.written.Perm (List.range done.length)

variable {t : Traced} {done : List UInt8} {room : Nat}

/-- A byte set at the end of the zeros. -/
theorem set_end (done rest : List UInt8) (k : Nat) (value : UInt8) :
    (done ++ (List.replicate (k + 1) 0 ++ rest)).set (done.length + k) value =
      done ++ (List.replicate k 0 ++ value :: rest) := by
  rw [List.set_append_right _ _ (Nat.le_add_right _ _), Nat.add_sub_cancel_left, List.replicate_succ',
    List.append_assoc, List.set_append_right _ _ (List.length_replicate.le), List.length_replicate,
    Nat.sub_self, List.singleton_append, List.set_cons_zero]

theorem Filled.put (h : Filled t done (1 + room)) (value : UInt8) :
    Filled (t.put value) (done ++ [value]) room where
  bytes := by
    have hset := set_end done (List.replicate room 0) 0 value
    rw [List.replicate_succ, List.replicate_zero, List.nil_append, Nat.add_zero] at hset
    show t.bytes.set t.offset value = _
    rw [h.bytes, h.offset, List.replicate_add, List.append_assoc]
    exact hset
  offset := by
    show t.offset + 1 = _
    rw [h.offset, List.length_append, List.length_singleton]
  written := by
    show (t.written ++ [t.offset]).Perm _
    rw [h.offset, List.length_append, List.length_singleton, List.range_succ]
    exact h.written.append_right _

/-- After `i` rounds the last `i` digits are there, each written over a zero. -/
theorem number_eq (h : Filled t done (width + room)) (value : Nat) {i k : Nat}
    (hwidth : width = k + i) :
    (t.number value width i).2 = value / 10 ^ i ∧
      (t.number value width i).1.bytes =
        done ++ (List.replicate k 0 ++ (decimal i value ++ List.replicate room 0)) ∧
      (t.number value width i).1.written =
        t.written ++ (List.range i).map (done.length + width - 1 - ·) := by
  induction i generalizing k with
  | zero =>
      refine ⟨(Nat.div_one value).symm, ?_, (List.append_nil _).symm⟩
      show t.bytes = _
      rw [h.bytes, hwidth, Nat.add_zero, decimal, List.nil_append, List.replicate_add]
  | succ i ih =>
      obtain ⟨hleft, hbytes, hwritten⟩ := ih (k := k + 1) (by omega)
      have hround : t.number value width (i + 1) =
          ((t.number value width i).1.write (t.offset + width - 1 - i)
            (digit (t.number value width i).2), (t.number value width i).2 / 10) := by
        rw [number, List.range_succ, List.foldl_append]
        rfl
      have hplace : t.offset + width - 1 - i = done.length + k := by
        rw [h.offset]
        omega
      rw [hround]
      refine ⟨?_, ?_, ?_⟩
      · rw [hleft, Nat.div_div_eq_div_mul, Nat.pow_succ]
      · show (t.number value width i).1.bytes.set _ _ = _
        rw [hbytes, hplace, set_end, hleft]
        rfl
      · show (t.number value width i).1.written ++ [_] = _
        rw [hwritten, h.offset, List.range_succ, List.map_append, List.append_assoc]
        rfl

theorem Filled.appendNumber {width : Nat} (h : Filled t done (width + room)) (value : Nat) :
    Filled (t.appendNumber value width) (done ++ decimal width value) room := by
  obtain ⟨-, hbytes, hwritten⟩ := number_eq h value (Nat.zero_add width).symm
  refine ⟨?_, ?_, ?_⟩
  · show (t.number value width width).1.bytes = _
    rw [hbytes, List.replicate_zero, List.nil_append, List.append_assoc]
  · show t.offset + width = _
    rw [h.offset, List.length_append, length_decimal]
  · show (t.number value width width).1.written.Perm _
    -- the positions of the digits, from the last to the first
    rw [hwritten, ← List.reverse_range', List.length_append, length_decimal, List.range_add]
    refine h.written.append ((List.reverse_perm _).trans ?_)
    rw [List.range'_eq_map_range]

theorem Filled.foldl_put {text : List UInt8} (h : Filled t done (text.length + room)) :
    Filled (text.foldl Traced.put t) (done ++ text) room := by
  induction text generalizing t done with
  | nil => rwa [List.length_nil, Nat.zero_add, ← List.append_nil done] at h
  | cons c text ih =>
      rw [List.length_cons, Nat.add_comm text.length 1, Nat.add_assoc] at h
      have hput := ih (h.put c)
      rwa [List.append_assoc, List.singleton_append] at hput

end Traced

namespace ContextPolicyIdentity

variable (lock context : List UInt8)

/-- `storage`, traced. -/
def traced : Traced :=
  let result : Traced := ⟨⟨List.replicate (length lock context + 1) 0, 0⟩, []⟩
  let result := result.put 108
  let result := result.appendNumber lock.length (digits lock.length)
  let result := result.put 95
  let result := lock.foldl Traced.put result
  let result := result.put 95
  let result := result.put 99
  let result := result.appendNumber context.length (digits context.length)
  let result := result.put 95
  context.foldl Traced.put result

theorem toStorage_traced : (traced lock context).toStorage = storage lock context := by
  simp only [traced, storage, Traced.toStorage_foldl_put, Traced.toStorage_put,
    Traced.toStorage_appendNumber]

/-- `l<lock length>_<lock>_c<context length>_<context>`. -/
def identityText : List UInt8 := 108 :: (framed digits 95 lock ++ 95 :: 99 :: framed digits 95 context)

theorem length_identityText : (identityText lock context).length = length lock context := by
  simp only [identityText, length, List.length_cons, List.length_append, length_framed]
  omega

theorem filled_traced : (traced lock context).Filled (identityText lock context) 1 := by
  have hroom : length lock context + 1 = 1 + (digits lock.length + (1 + (lock.length + (1 + (1 +
      (digits context.length + (1 + (context.length + 1)))))))) := by
    rw [length]
    omega
  have hstart : Traced.Filled ⟨⟨List.replicate (length lock context + 1) 0, 0⟩, []⟩ []
      (1 + (digits lock.length + (1 + (lock.length + (1 + (1 +
      (digits context.length + (1 + (context.length + 1))))))))) :=
    ⟨by rw [hroom, List.nil_append], rfl, List.Perm.refl _⟩
  have hend := ((((((((hstart.put 108).appendNumber lock.length).put 95).foldl_put).put 95).put
    99).appendNumber context.length).put 95).foldl_put
  have htext : ([] ++ [108] ++ decimal (digits lock.length) lock.length ++ [95] ++ lock ++ [95] ++
      [99] ++ decimal (digits context.length) context.length ++ [95] ++ context : List UInt8) =
        identityText lock context := by
    simp only [identityText, framed, List.append_assoc, List.cons_append, List.nil_append]
  rwa [htext] at hend

/-- **The routine writes the identity**, in front of one zero. -/
theorem storage_eq :
    storage lock context = ⟨identityText lock context ++ [0], length lock context⟩ := by
  have hfilled := filled_traced lock context
  rw [← toStorage_traced, ← length_identityText, ← hfilled.offset, ← List.replicate_one,
    ← hfilled.bytes]

variable {lock context}

theorem value_eq_some (h : length lock context ≤ 255) :
    value lock context = some (identityText lock context) := by
  rw [value, if_pos h, storage_eq, List.take_left' (length_identityText lock context)]

theorem eq_identityText {v : List UInt8} (h : value lock context = some v) :
    v = identityText lock context := by
  by_cases hlength : length lock context ≤ 255
  · rw [value_eq_some hlength] at h
    exact (Option.some.inj h).symm
  · rw [value, if_neg hlength] at h
    cases h

/-! ### The names of an identity -/

theorem identityText_inj {lock' context' : List UInt8}
    (h : identityText lock context = identityText lock' context') :
    lock = lock' ∧ context = context' := by
  have hsep : (95 : UInt8).toNat < 48 ∨ 57 < (95 : UInt8).toNat := Or.inr (by decide)
  rw [identityText, identityText, List.cons.injEq] at h
  obtain ⟨hlock, hrest⟩ := framed_append_inj lt_pow_digits hsep h.2
  rw [List.cons.injEq, List.cons.injEq, ← List.append_nil (framed digits 95 context),
    ← List.append_nil (framed digits 95 context')] at hrest
  exact ⟨hlock, (framed_append_inj lt_pow_digits hsep hrest.2.2).1⟩

/-! ### Valid components -/

open Interrupt

theorem all_framed {text : List UInt8} (h : text.all componentCharacter = true) :
    (framed digits 95 text).all componentCharacter = true := by
  have hdecimal : (decimal (digits text.length) text.length).all componentCharacter = true := by
    rw [List.all_eq_true]
    intro c hc
    have hrange := mem_decimal hc
    have hle : (48 ≤ c && c ≤ 57) = true := by
      rw [Bool.and_eq_true, decide_eq_true_eq, decide_eq_true_eq, UInt8.le_iff_toNat_le,
        UInt8.le_iff_toNat_le]
      exact hrange
    rw [componentCharacter, hle, Bool.or_true, Bool.true_or]
  rw [framed, List.all_append, List.all_cons, hdecimal, h]
  rfl

theorem validComponent_identityText (hlock : validComponent lock = true)
    (hcontext : validComponent context = true) :
    validComponent (identityText lock context) = true := by
  rw [validComponent, Bool.and_eq_true] at hlock hcontext
  rw [validComponent, identityText, List.all_cons, List.all_append, List.all_cons, List.all_cons,
    all_framed hlock.2, all_framed hcontext.2]
  rfl

/-- **The identity tells the lock and the context.** -/
theorem value_tells_names (h : length lock context ≤ 255) :
    (traced lock context).toStorage = storage lock context ∧
    (traced lock context).written.Perm (List.range (length lock context)) ∧
    ∃ v, value lock context = some v ∧ v.length = length lock context ∧
      (∀ lock' context', value lock' context' = some v → lock = lock' ∧ context = context') ∧
      (validComponent lock = true → validComponent context = true → validComponent v = true) := by
  have hwritten := (filled_traced lock context).written
  rw [length_identityText] at hwritten
  refine ⟨toStorage_traced lock context, hwritten, identityText lock context, value_eq_some h,
    length_identityText lock context, ?_, validComponent_identityText⟩
  intro lock' context' hvalue
  exact identityText_inj (eq_identityText hvalue)

theorem value_tells_names_gamma :
    ∃ v, value (literal "alpha_beta") (literal "gamma") = some v ∧ v.length = 23 ∧
      value (literal "alpha") (literal "beta_gamma") ≠ some v := by
  have hlength : length (literal "alpha_beta") (literal "gamma") = 23 := by
    have hlock : (literal "alpha_beta").length = 10 := by decide
    have hcontext : (literal "gamma").length = 5 := by decide
    have hten : digits 10 = 2 := by rw [digits, if_pos (by decide), digits, if_neg (by decide)]
    have hfive : digits 5 = 1 := by rw [digits, if_neg (by decide)]
    rw [length, hlock, hcontext, hten, hfive]
  obtain ⟨-, -, v, hv, hlen, htells, -⟩ := value_tells_names (hlength ▸ (by decide : 23 ≤ 255))
  refine ⟨v, hv, hlen.trans hlength, fun hother => ?_⟩
  have hlock := (htells _ _ hother).1
  exact absurd hlock (by decide)

end ContextPolicyIdentity

end Grevir.Event
