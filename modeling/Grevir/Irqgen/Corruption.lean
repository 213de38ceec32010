import Grevir.Irqgen.Guards
import Grevir.Support.Digest

/-!
# Irqgen — Corruption

A record that was changed on its way.  What `decode` accepts is framed: its own length stands in it,
and its last four bytes are the checksum of those before.  Shorter or longer, the length no longer
fits; with one byte changed, wherever it is, the checksum no longer does, as each turn of its loop can
be undone: the exclusive or with a byte, and the product with an odd number modulo 2^32.

* `checksum_change`: two byte strings that differ in one byte have different checksums.
* `corrupted_refused`: the decoder raises `PlanError` on what a single fault makes of a record.
-/

namespace Grevir.Irqgen

open Codec Interrupt Json

/-! ### The checksum -/

/-- **A turn of the checksum loop can be undone.** -/
theorem checksumStep_reversible : Digest.Reversible (· < 2 ^ 32) (checksumStep 32) := by
  have hodd : Nat.gcd (2 ^ 32) 16777619 = 1 := by decide
  have hxor : ∀ {c : Nat} {b : UInt8}, c < 2 ^ 32 → c ^^^ b.toNat < 2 ^ 32 := by
    intro c b hc
    exact Nat.xor_lt_two_pow hc (b.toNat_lt.trans (by decide))
  have hproduct : ∀ {c c' : Nat} {b b' : UInt8}, c < 2 ^ 32 → c' < 2 ^ 32 →
      checksumStep 32 c b = checksumStep 32 c' b' → c ^^^ b.toNat = c' ^^^ b'.toNat := by
    intro c c' b b' hc hc' heq
    have hmod : c ^^^ b.toNat ≡ c' ^^^ b'.toNat [MOD 2 ^ 32] :=
      Nat.ModEq.cancel_right_of_coprime hodd heq
    rwa [Nat.ModEq, Nat.mod_eq_of_lt (hxor hc), Nat.mod_eq_of_lt (hxor hc')] at hmod
  refine ⟨fun _ => Nat.mod_lt _ (by decide), ?_, ?_⟩
  · intro c c' b hc hc' heq
    have h := congrArg (· ^^^ b.toNat) (hproduct hc hc' heq)
    simpa only [Nat.xor_assoc, Nat.xor_self, Nat.xor_zero] using h
  · intro c b b' hc heq
    have h := congrArg (c ^^^ ·) (hproduct hc hc heq)
    exact UInt8.toNat_inj.mp (by simpa only [← Nat.xor_assoc, Nat.xor_self, Nat.zero_xor] using h)

/-- **Two byte strings that differ in one byte have different checksums.** -/
theorem checksum_change {front rest : List UInt8} {x y : UInt8}
    (heq : checksum (front ++ x :: rest) = checksum (front ++ y :: rest)) : x = y := by
  rw [checksum_eq, checksum_eq] at heq
  exact checksumStep_reversible.change (s := 2166136261) (by decide) heq

/-! ### Faults -/

/-- What a single fault makes of a byte string: one byte is another, the end is missing, or there is
more after the end. -/
inductive Corrupts : List UInt8 → List UInt8 → Prop where
  | change (front rest : List UInt8) {x y : UInt8} (h : x ≠ y) :
      Corrupts (front ++ x :: rest) (front ++ y :: rest)
  | cut (b : List UInt8) {rest : List UInt8} (h : rest ≠ []) : Corrupts (b ++ rest) b
  | extend (b : List UInt8) {rest : List UInt8} (h : rest ≠ []) : Corrupts b (b ++ rest)

/-- A record in its frame: what stands before its length, its length, what it says, its checksum. -/
structure Framed (data : List UInt8) : Prop where
  short : data.length < 2 ^ 32
  length : ∃ front rest, front.length = 6 ∧ data = front ++ le 4 data.length ++ rest
  checksum : ∃ content, data = content ++ le 4 (checksum content)

theorem Framed.of_recordBytes {long : UnsignedLong} {p : PlanContent Text}
    (h : (recordBytes long p).length < 2 ^ 32) : Framed (recordBytes long p) where
  short := h
  length := by
    refine ⟨[71, 73, 82, 81] ++ le 2 4, ?_⟩
    rw [length_recordBytes, recordBytes, planBytes, contentBytes]
    simp only [List.append_assoc]
    exact ⟨_, rfl, rfl⟩
  checksum := ⟨planBytes p, by rw [recordBytes, le_checksum]⟩

/-- A record in its frame is not the beginning of a longer one. -/
theorem Framed.not_extended {data rest : List UInt8} (h : Framed data) (h' : Framed (data ++ rest)) :
    rest = [] := by
  obtain ⟨front, tail, hfront, hdata⟩ := h.length
  obtain ⟨front', tail', hfront', hdata'⟩ := h'.length
  have heq : front ++ (le 4 data.length ++ (tail ++ rest)) =
      front' ++ (le 4 (data ++ rest).length ++ tail') := by
    rw [← List.append_assoc front', ← hdata', ← List.append_assoc, ← List.append_assoc, ← hdata]
  have hlengths := (List.append_inj heq (hfront.trans hfront'.symm)).2
  have hbytes := (List.append_inj hlengths (by rw [length_le, length_le])).1
  have hlen := le_injective h.short h'.short hbytes
  rw [List.length_append] at hlen
  exact List.length_eq_zero_iff.mp (Nat.add_eq_left.mp hlen.symm)

/-- Two records in their frames do not differ in one byte. -/
theorem Framed.not_changed {front rest : List UInt8} {x y : UInt8} (h : Framed (front ++ x :: rest))
    (h' : Framed (front ++ y :: rest)) : x = y := by
  obtain ⟨content, hdata⟩ := h.checksum
  obtain ⟨content', hdata'⟩ := h'.checksum
  have hlen : content.length = content'.length := by
    have hsame : (front ++ x :: rest).length = (front ++ y :: rest).length := by simp
    rw [hdata, hdata'] at hsame
    simpa using hsame
  have hafter : ∀ after, front = content ++ after → x = y := by
    rintro after rfl
    -- the byte is one of the checksum's, and the content is the same
    rw [List.append_assoc] at hdata hdata'
    obtain ⟨rfl, hy⟩ := List.append_inj hdata' hlen
    have hx := List.append_cancel_left hdata
    rw [← hy] at hx
    simpa using hx
  rcases List.append_eq_append_iff.mp hdata with ⟨between, rfl, hrest⟩ | ⟨after, hfront, -⟩
  · cases between with
    | nil => exact hafter [] (by simp)
    | cons z between =>
        -- the byte is one of the content's, and the checksum is the same
        rw [List.cons_append] at hrest
        obtain ⟨rfl, rfl⟩ := List.cons.inj hrest
        rw [← List.cons_append, ← List.append_assoc] at hdata'
        obtain ⟨rfl, hsum⟩ := List.append_inj hdata' (by simpa using hlen)
        exact checksum_change (le_injective (checksum_lt _) (checksum_lt _) hsum)
  · exact hafter after hfront

variable {F : Type} [PyFloat F] (sha256 : List UInt8 → String) (json : Value F → List UInt8)

/-- What the decoder accepts is framed. -/
theorem framed_of_decode {data : List UInt8} {v : Value F} (h : decode sha256 json data = .ok v) :
    Framed data := by
  obtain ⟨p, ⟨hlt, -⟩, hdata, -⟩ := ((decode_answers sha256 json .bits32 data).ok_iff v).mp h
  rw [hdata] at hlt ⊢
  exact .of_recordBytes hlt

/-- **Every corrupted record is refused.** -/
theorem corrupted_refused {b b' : List UInt8} {v : Value F} (h : decode sha256 json b = .ok v)
    (hc : Corrupts b b') : ∃ message, decode sha256 json b' = .error (.plan message) := by
  have hb := framed_of_decode sha256 json h
  have hb' : ¬ Framed b' := by
    intro hb'
    cases hc with
    | change front rest hne => exact hne (hb.not_changed hb')
    | cut b hne => exact hne (hb'.not_extended hb)
    | extend b hne => exact hne (hb.not_extended hb')
  cases hd : decode sha256 json b' with
  | ok v' => exact absurd (framed_of_decode sha256 json hd) hb'
  | error e =>
      obtain ⟨message, rfl⟩ := (decode_answers sha256 json .bits32 b').raises e hd
      exact ⟨message, rfl⟩

/-- The timer's record is read; with another byte at 40, with no more than its first hundred bytes, and with
one byte more it is refused. -/
theorem corrupted_refused_timer :
    decode (fun _ => "") (jsonBytes : Value Empty → _) timerRecord =
        .ok (planValue (fun _ => "") jsonBytes timerPlan) ∧
      (timerRecord.set 40 0 ≠ timerRecord ∧ ∃ message,
        decode (fun _ => "") (jsonBytes : Value Empty → _) (timerRecord.set 40 0) = .error (.plan message)) ∧
      (∃ message, decode (fun _ => "") (jsonBytes : Value Empty → _) (timerRecord.take 100) =
        .error (.plan message)) ∧
      ∃ message, decode (fun _ => "") (jsonBytes : Value Empty → _) (timerRecord ++ [0]) =
        .error (.plan message) := by
  have h : decode (fun _ => "") (jsonBytes : Value Empty → _) timerRecord =
      .ok (planValue (fun _ => "") jsonBytes timerPlan) :=
    ((decode_answers _ _ .bits32 _).ok_iff _).mpr
      ⟨timerPlan, ⟨timerRecord_length, timerPlan_carried⟩, rfl, timerPlan_valid, rfl⟩
  have hchanged : Corrupts timerRecord (timerRecord.set 40 0) := by
    have hbyte : timerRecord = timerRecord.take 40 ++ 105 :: timerRecord.drop 41 := by decide +kernel
    have hset : timerRecord.set 40 0 = timerRecord.take 40 ++ 0 :: timerRecord.drop 41 := by decide +kernel
    rw [hset]
    nth_rewrite 1 [hbyte]
    exact .change _ _ (by decide)
  have hcut : Corrupts timerRecord (timerRecord.take 100) := by
    nth_rewrite 1 [← List.take_append_drop 100 timerRecord]
    exact .cut _ (by decide +kernel)
  exact ⟨h, ⟨by decide +kernel, corrupted_refused _ _ h hchanged⟩, corrupted_refused _ _ h hcut,
    corrupted_refused _ _ h (.extend _ (by simp))⟩

end Grevir.Irqgen
