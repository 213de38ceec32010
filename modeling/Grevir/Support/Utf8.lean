import Grevir.Support.Framing
import Mathlib.Data.String.Basic
import Mathlib.Data.List.Lex

/-!
# Support — Utf8

Strings as their UTF-8 bytes.  Every byte list is the encoding of at most one string.  On ASCII the
encoding is one byte a character, and the order of bytes is the order of strings.

* `decode_eq_some`: decoding answers a string exactly on its encoding.
* `bytes_ascii`, `bytes_ofAscii`: ASCII strings and ASCII bytes.
* `bytes_lt_iff`: the order of two ASCII strings is that of their bytes.
* `separated`: two parts without a zero byte, told apart by one between them.
-/

/-- The order of bytes as unsigned numbers. -/
instance Utf8.linearOrderUInt8 : LinearOrder UInt8 where
  le_refl a := UInt8.le_refl a
  le_trans a b c := UInt8.le_trans
  le_antisymm a b := UInt8.le_antisymm
  le_total a b := UInt8.le_total a b
  lt_iff_le_not_ge a b := by
    rw [UInt8.not_le]
    exact ⟨fun h => ⟨UInt8.le_of_lt h, h⟩, And.right⟩
  toDecidableLE := inferInstance
  toDecidableLT := inferInstance

namespace Utf8

/-- The UTF-8 bytes of a string. -/
def bytes (s : String) : List UInt8 := s.toByteArray.data.toList

/-- The string some bytes encode. -/
def decode (bs : List UInt8) : Option String := String.fromUTF8? ⟨bs.toArray⟩

theorem bytes_injective : Function.Injective bytes := fun s t h => by
  rw [← String.toByteArray_inj]
  exact ByteArray.ext (Array.toList_inj.mp h)

/-- **Decoding answers a string exactly on its encoding.** -/
theorem decode_eq_some {bs : List UInt8} {s : String} : decode bs = some s ↔ bytes s = bs := by
  unfold decode String.fromUTF8?
  constructor
  · intro h
    split at h
    · rw [← Option.some.inj h]
      rfl
    · cases h
  · rintro rfl
    exact dif_pos s.isValidUTF8

theorem decode_bytes (s : String) : decode (bytes s) = some s := decode_eq_some.mpr rfl

theorem bytes_eq_flatMap (s : String) : bytes s = s.toList.flatMap String.utf8EncodeChar := by
  rw [bytes, ← String.utf8Encode_toList, List.utf8Encode, List.toList_data_toByteArray]

/-! ### ASCII -/

/-- Every character is ASCII. -/
def Ascii (s : String) : Prop := ∀ c ∈ s.toList, c.toNat < 128

theorem utf8EncodeChar_ascii {c : Char} (h : c.toNat < 128) :
    String.utf8EncodeChar c = [UInt8.ofNat c.toNat] := by
  unfold String.utf8EncodeChar
  exact if_pos (Nat.le_of_lt_succ h)

/-- An ASCII string has one byte a character. -/
theorem bytes_ascii {s : String} (h : Ascii s) :
    bytes s = s.toList.map fun c => UInt8.ofNat c.toNat := by
  rw [bytes_eq_flatMap, List.map_eq_flatMap]
  exact List.flatMap_congr fun c hc => utf8EncodeChar_ascii (h c hc)

/-- The string of some ASCII bytes. -/
def ofAscii (bs : List UInt8) : String := String.ofList (bs.map fun b => Char.ofNat b.toNat)

theorem toNat_ofNat_ascii {n : Nat} (h : n < 128) : (Char.ofNat n).toNat = n := by
  rw [Char.ofNat, dif_pos (.inl (by omega))]
  rfl

theorem bytes_ofAscii {bs : List UInt8} (h : ∀ b ∈ bs, b.toNat < 128) :
    Ascii (ofAscii bs) ∧ bytes (ofAscii bs) = bs := by
  have hascii : Ascii (ofAscii bs) := by
    intro c hc
    simp only [ofAscii, String.toList_ofList, List.mem_map] at hc
    obtain ⟨b, hb, rfl⟩ := hc
    rw [toNat_ofNat_ascii (h b hb)]
    exact h b hb
  refine ⟨hascii, ?_⟩
  rw [bytes_ascii hascii, ofAscii, String.toList_ofList, List.map_map]
  calc bs.map ((fun c => UInt8.ofNat c.toNat) ∘ fun b => Char.ofNat b.toNat)
      = bs.map id := List.map_congr_left fun b hb => by
        rw [Function.comp_apply, toNat_ofNat_ascii (h b hb)]
        exact UInt8.ofNat_toNat
    _ = bs := List.map_id bs

/-- A map that keeps order and equality on the members keeps the order of lists. -/
theorem map_lt_map {α β : Type} [LinearOrder α] [LinearOrder β] {f : α → β} {as bs : List α}
    (hlt : ∀ a ∈ as, ∀ b ∈ bs, f a < f b ↔ a < b) (heq : ∀ a ∈ as, ∀ b ∈ bs, f a = f b ↔ a = b) :
    as.map f < bs.map f ↔ as < bs := by
  induction as generalizing bs with
  | nil => cases bs <;> simp
  | cons a as ih =>
      cases bs with
      | nil => simp
      | cons b bs =>
          simp only [List.map_cons, List.cons_lt_cons_iff]
          rw [hlt a (by simp) b (by simp), heq a (by simp) b (by simp),
            ih (fun x hx y hy => hlt x (by simp [hx]) y (by simp [hy]))
              fun x hx y hy => heq x (by simp [hx]) y (by simp [hy])]

/-- **The order of two ASCII strings is that of their bytes.** -/
theorem bytes_lt_iff {s t : String} (hs : Ascii s) (ht : Ascii t) : bytes s < bytes t ↔ s < t := by
  rw [bytes_ascii hs, bytes_ascii ht, String.lt_iff_toList_lt]
  have hto : ∀ c : Char, c.toNat < 128 → (UInt8.ofNat c.toNat).toNat = c.toNat := fun c hc => by
    rw [UInt8.toNat_ofNat']
    exact Nat.mod_eq_of_lt (by omega)
  refine map_lt_map (fun c hc d hd => ?_) fun c hc d hd => ?_
  · rw [UInt8.lt_iff_toNat_lt, hto c (hs c hc), hto d (ht d hd)]
    rfl
  · rw [← UInt8.toNat_inj, hto c (hs c hc), hto d (ht d hd), Char.toNat_inj]

/-! ### NUL -/

/-- A string without NUL. -/
def NulFree (s : String) : Prop := '\x00' ∉ s.toList

instance decidableNulFree (s : String) : Decidable (NulFree s) := inferInstanceAs (Decidable (¬ _))

@[simp] theorem nulFree_append {s t : String} : NulFree (s ++ t) ↔ NulFree s ∧ NulFree t := by
  simp [NulFree, not_or]

theorem nulFree_ofList {cs : List Char} (h : '\x00' ∉ cs) : NulFree (String.ofList cs) := by
  rwa [NulFree, String.toList_ofList]

theorem zero_notMem_utf8EncodeChar {c : Char} (h : c ≠ '\x00') :
    (0 : UInt8) ∉ String.utf8EncodeChar c := by
  have hne : c.val.toNat ≠ 0 := fun h0 => h (Char.ext (UInt32.toNat_inj.mp h0))
  have hbyte : ∀ n, 0 < n % 256 → ¬ (0 : UInt8) = UInt8.ofNat n := fun n hn h0 => by
    rw [← UInt8.toNat_inj, UInt8.toNat_ofNat'] at h0
    exact hn.ne h0
  unfold String.utf8EncodeChar
  simp only
  split
  · simp only [List.mem_singleton]
    exact hbyte _ (by omega)
  · split
    · simp only [List.mem_cons, List.not_mem_nil, or_false, not_or]
      exact ⟨hbyte _ (by omega), hbyte _ (by omega)⟩
    · split
      · simp only [List.mem_cons, List.not_mem_nil, or_false, not_or]
        exact ⟨hbyte _ (by omega), hbyte _ (by omega), hbyte _ (by omega)⟩
      · simp only [List.mem_cons, List.not_mem_nil, or_false, not_or]
        exact ⟨hbyte _ (by omega), hbyte _ (by omega), hbyte _ (by omega), hbyte _ (by omega)⟩

/-- The encoding of a string without NUL has no zero byte. -/
theorem zero_notMem_bytes {s : String} (h : NulFree s) : (0 : UInt8) ∉ bytes s := by
  rw [bytes_eq_flatMap, List.mem_flatMap]
  rintro ⟨c, hc, hzero⟩
  exact zero_notMem_utf8EncodeChar (fun hnul => h (hnul ▸ hc)) hzero

/-- **Two parts without a zero byte are told apart by one between them.** -/
theorem separated {as bs cs ds : List UInt8} (ha : 0 ∉ as) (hb : 0 ∉ bs)
    (h : as ++ 0 :: bs = cs ++ 0 :: ds) : as = cs ∧ bs = ds := by
  -- one zero on the left, so the one on the right is the only one there
  have hcount := congrArg (List.count 0) h
  rw [List.count_append, List.count_append, List.count_cons_self, List.count_cons_self,
    List.count_eq_zero.mpr ha, List.count_eq_zero.mpr hb] at hcount
  have hc : 0 ∉ cs := List.count_eq_zero.mp (by omega)
  exact Framing.separated ha hc h

end Utf8
