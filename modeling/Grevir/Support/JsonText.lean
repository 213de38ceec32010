import Grevir.Support.Json
import Mathlib.Data.List.Forall2
import Mathlib.Data.List.Nodup
import Mathlib.Data.List.Sort
import Mathlib.Data.List.TakeDrop
import Mathlib.Tactic.Common

/-!
# Support — JsonText

Reading what was written.  What follows a value in a text is nothing, a comma or a new line, so that
the digits of a number end where the number does.

* `readString_escape`: any string.
* `readValue_dumps`, `loads_dumps`: any plain value, up to the order of its keys.
* `printable_dumps`: the characters of such a text.
-/

namespace Json

/-! ### Strings -/

theorem hexValue_digitChar : ∀ d < 16, hexValue (Nat.digitChar d) = some d := by decide

theorem readHex4_hex4 {n : Nat} (h : n < 0x10000) (rest : List Char) :
    readHex4 (hex4 n ++ rest) = some (n, rest) := by
  have hdigit : ∀ k, hexValue (Nat.digitChar (k % 16)) = some (k % 16) :=
    fun k => hexValue_digitChar _ (Nat.mod_lt _ (by decide))
  have hn : ((n / 4096 % 16 * 16 + n / 256 % 16) * 16 + n / 16 % 16) * 16 + n % 16 = n := by omega
  simp only [hex4, List.map_cons, List.map_nil, List.cons_append, List.nil_append, readHex4, hdigit,
    Option.bind_eq_bind, Option.bind_some]
  rw [hn]
  rfl

theorem readUnits_single {n : Nat} (h : n < 0xd800 ∨ 0xdfff < n ∧ n < 0x10000) (rest : List Char) :
    readUnits (hex4 n ++ rest) = some (Char.ofNat n, rest) := by
  rw [readUnits, readHex4_hex4 (by omega)]
  show (if _ then _ else _) = _
  rw [if_neg (by omega), if_neg (by omega)]
  rfl

theorem readUnits_pair {n : Nat} (h : n < 0x100000) (rest : List Char) :
    readUnits (hex4 (0xd800 + n / 1024) ++ (escapeUnit (0xdc00 + n % 1024) ++ rest)) =
      some (Char.ofNat (0x10000 + n), rest) := by
  have hn : 0x10000 + ((0xd800 + n / 1024 - 0xd800) * 1024 + (0xdc00 + n % 1024 - 0xdc00)) =
      0x10000 + n := by omega
  rw [readUnits, readHex4_hex4 (by omega)]
  show (if _ then _ else _) = _
  rw [if_pos (by omega)]
  simp only [escapeUnit, List.cons_append]
  rw [readHex4_hex4 (by omega)]
  show (if _ then _ else _) = _
  rw [if_pos (by omega), hn]
  rfl

/-- A character is not a surrogate. -/
theorem char_valid (c : Char) : c.toNat < 0xd800 ∨ 0xdfff < c.toNat ∧ c.toNat < 0x110000 := c.valid

/-- **Reading the text of a character gives the character.** -/
theorem readChar_escapeChar (c : Char) (rest : List Char) :
    readChar (escapeChar c ++ rest) = some (some c, rest) := by
  have hofNat : ∀ {n}, c.toNat = n → Char.ofNat n = c := by
    rintro _ rfl
    exact Char.ofNat_toNat c
  have hvalid := char_valid c
  unfold escapeChar
  by_cases hquote : c = '"'
  · rw [if_pos hquote, hquote]
    rfl
  by_cases hslash : c = '\\'
  · rw [if_neg hquote, if_pos hslash, hslash]
    rfl
  by_cases hn : c = '\n'
  · rw [if_neg hquote, if_neg hslash, if_pos hn, hn]
    rfl
  by_cases hr : c = '\r'
  · rw [if_neg hquote, if_neg hslash, if_neg hn, if_pos hr, hr]
    rfl
  by_cases ht : c = '\t'
  · rw [if_neg hquote, if_neg hslash, if_neg hn, if_neg hr, if_pos ht, ht]
    rfl
  rw [if_neg hquote, if_neg hslash, if_neg hn, if_neg hr, if_neg ht]
  by_cases hf : c.toNat = 12
  · rw [if_pos hf, ← hofNat hf]
    rfl
  by_cases hb : c.toNat = 8
  · rw [if_neg hf, if_pos hb, ← hofNat hb]
    rfl
  rw [if_neg hf, if_neg hb]
  by_cases hplain : 32 ≤ c.toNat ∧ c.toNat ≤ 126
  · rw [if_pos hplain]
    show (if _ then _ else _) = _
    rw [if_neg hquote, if_neg hslash, if_neg (by omega)]
    rfl
  rw [if_neg hplain]
  have hescape : ∀ text, readChar ('\\' :: 'u' :: text) =
      (readUnits text).map fun x => (some x.1, x.2) := fun text => rfl
  by_cases hunit : c.toNat < 0x10000
  · rw [if_pos hunit, escapeUnit, List.cons_append, List.cons_append, hescape,
      readUnits_single (by omega), Char.ofNat_toNat]
    rfl
  · rw [if_neg hunit, List.append_assoc]
    show readChar ('\\' :: 'u' :: (hex4 _ ++ (escapeUnit _ ++ rest))) = _
    rw [hescape, readUnits_pair (by omega), Nat.add_sub_cancel' (by omega), Char.ofNat_toNat]
    rfl

theorem readChars_escape (cs : List Char) (rest : List Char) {fuel : Nat} (h : cs.length < fuel) :
    readChars fuel (cs.flatMap escapeChar ++ '"' :: rest) = some (cs, rest) := by
  induction cs generalizing fuel with
  | nil =>
      obtain ⟨fuel, rfl⟩ := Nat.exists_eq_succ_of_ne_zero (Nat.pos_iff_ne_zero.mp h)
      rfl
  | cons c cs ih =>
      obtain ⟨fuel, rfl⟩ := Nat.exists_eq_succ_of_ne_zero (Nat.pos_iff_ne_zero.mp (Nat.zero_lt_of_lt h))
      rw [List.flatMap_cons, List.append_assoc, readChars, readChar_escapeChar]
      show (readChars fuel _).bind _ = _
      rw [ih (by simpa using h)]
      rfl

theorem length_escapeChar_pos (c : Char) : 1 ≤ (escapeChar c).length := by
  unfold escapeChar
  repeat' split
  all_goals simp [escapeUnit]

theorem length_le_length_escape (cs : List Char) : cs.length ≤ (cs.flatMap escapeChar).length := by
  induction cs with
  | nil => exact le_refl 0
  | cons c cs ih =>
      rw [List.flatMap_cons, List.length_append, List.length_cons]
      have := length_escapeChar_pos c
      omega

/-- **Reading the text of a string gives the string.** -/
theorem readString_escape (s : String) (rest : List Char) :
    readString (s.toList.flatMap escapeChar ++ '"' :: rest) = some (s, rest) := by
  have hlen := length_le_length_escape s.toList
  rw [readString, readChars_escape _ _ (by
    rw [List.length_append, List.length_cons]
    omega)]
  show some (String.ofList s.toList, rest) = _
  rw [String.ofList_toList]

/-! ### Numbers -/

/-- What follows a value. -/
def Delimited (rest : List Char) : Prop := ∀ c ∈ rest.head?, c = ',' ∨ c = '\n'

theorem span_append {p : Char → Bool} {xs rest : List Char} (hxs : ∀ c ∈ xs, p c)
    (hrest : ∀ c ∈ rest.head?, p c = false) : (xs ++ rest).span p = (xs, rest) := by
  rw [List.span_eq_takeWhile_dropWhile, List.takeWhile_append_of_pos hxs,
    List.dropWhile_append_of_pos hxs]
  cases rest with
  | nil => simp
  | cons c rest =>
      have hc : p c = false := hrest c rfl
      rw [List.takeWhile_cons_of_neg (by simp [hc]), List.dropWhile_cons_of_neg (by simp [hc]),
        List.append_nil]

theorem Delimited.not_digit {rest : List Char} (h : Delimited rest) :
    ∀ c ∈ rest.head?, c.isDigit = false := by
  intro c hc
  rcases h c hc with rfl | rfl
  · decide
  · decide

theorem readFraction_delimited {rest : List Char} (h : Delimited rest) :
    readFraction rest = ([], rest) := by
  cases rest with
  | nil => rfl
  | cons c rest =>
      rcases h c rfl with rfl | rfl
      · rfl
      · rfl

theorem readExponent_delimited {rest : List Char} (h : Delimited rest) :
    readExponent rest = ([], rest) := by
  cases rest with
  | nil => rfl
  | cons c rest =>
      rcases h c rfl with rfl | rfl
      · rfl
      · rfl

theorem ne_of_digit {c w : Char} (hc : c.isDigit) (hw : w.isDigit = false) : c ≠ w := by
  rintro rfl
  rw [hw] at hc
  cases hc

theorem toDigits_eq_cons (n : Nat) : ∃ d ds, Nat.toDigits 10 n = d :: ds ∧ d.isDigit := by
  cases hds : Nat.toDigits 10 n with
  | nil => exact absurd hds Nat.toDigits_ne_nil
  | cons d ds =>
      exact ⟨d, ds, rfl, @Nat.isDigit_of_mem_toDigits 10 n d (by decide) (by decide) (by simp [hds])⟩

theorem digitChar_ne_zero : ∀ n < 10, 0 < n → n.digitChar ≠ '0' := by decide

/-- The digits of a positive number do not start with a zero. -/
theorem head_toDigits {n : Nat} (hn : 0 < n) : ∀ c ∈ (Nat.toDigits 10 n).head?, c ≠ '0' := by
  induction n using Nat.strongRecOn with
  | ind n ih =>
      rw [Nat.toDigits_eq_if (by decide)]
      split
      · next hlt =>
        intro c hc
        cases hc
        exact digitChar_ne_zero n hlt hn
      · next hge =>
        rw [List.head?_append_of_ne_nil _ Nat.toDigits_ne_nil]
        exact ih (n / 10) (by omega) (by omega)

theorem readWhole_toDigits (n : Nat) {rest : List Char} (h : Delimited rest) :
    readWhole (Nat.toDigits 10 n ++ rest) = some (Nat.toDigits 10 n, rest) := by
  have hdigit : ∀ c ∈ Nat.toDigits 10 n, c.isDigit :=
    fun c hc => Nat.isDigit_of_mem_toDigits (by decide) (by decide) hc
  rw [readWhole, span_append hdigit h.not_digit]
  rcases Nat.eq_zero_or_pos n with rfl | hn
  · rfl
  · have hhead := head_toDigits hn
    cases hds : Nat.toDigits 10 n with
    | nil => exact absurd hds Nat.toDigits_ne_nil
    | cons d ds =>
        rw [hds] at hhead
        exact if_neg (hhead d rfl)

variable {F : Type} [FloatText F]

theorem readUnsigned_toDigits (negative : Bool) (n : Nat) {rest : List Char} (h : Delimited rest) :
    readUnsigned negative (Nat.toDigits 10 n ++ rest) =
      some ((.int (if negative then -n else n) : Value F), rest) := by
  rw [readUnsigned, readWhole_toDigits n h]
  simp only [Option.bind_eq_bind, Option.bind_some, readFraction_delimited h,
    readExponent_delimited h, and_self, if_true, Nat.ofDigitChars_ten_toDigits]
  rfl

theorem readNumber_dumpInt (n : Int) {rest : List Char} (h : Delimited rest) :
    readNumber (dumpInt n ++ rest) = some ((.int n : Value F), rest) := by
  cases n with
  | ofNat n =>
      obtain ⟨d, ds, hds, hd⟩ := toDigits_eq_cons n
      rw [dumpInt, hds, List.cons_append, readNumber, if_neg (ne_of_digit hd rfl),
        ← List.cons_append, ← hds, readUnsigned_toDigits false n h]
      rfl
  | negSucc n =>
      rw [dumpInt, List.cons_append, readNumber, if_pos rfl, readUnsigned_toDigits true (n + 1) h]
      rfl

theorem readWord_digit {c : Char} (h : c.isDigit) (text : List Char) :
    (readWord (c :: text) : Option (Value F × List Char)) = none := by
  have hne : ∀ w : Char, w.isDigit = false → ¬ (w = c) := fun _ hw => (ne_of_digit h hw).symm
  simp [readWord, List.cons_prefix_cons, hne]

theorem readWord_minus {c : Char} (h : c.isDigit) (text : List Char) :
    (readWord ('-' :: c :: text) : Option (Value F × List Char)) = none := by
  have hne : ∀ w : Char, w.isDigit = false → ¬ (w = c) := fun _ hw => (ne_of_digit h hw).symm
  simp [readWord, List.cons_prefix_cons, hne]

theorem readWord_dumpInt (n : Int) (rest : List Char) :
    (readWord (dumpInt n ++ rest) : Option (Value F × List Char)) = none := by
  cases n with
  | ofNat n =>
      obtain ⟨d, ds, hds, hd⟩ := toDigits_eq_cons n
      rw [dumpInt, hds]
      exact readWord_digit hd _
  | negSucc n =>
      obtain ⟨d, ds, hds, hd⟩ := toDigits_eq_cons (n + 1)
      rw [dumpInt, hds]
      exact readWord_minus hd _

/-! ### Members -/

/-- The text of a value starts with neither a space nor a closing bracket. -/
def Starts (text : List Char) : Prop :=
  ∃ c cs, text = c :: cs ∧ isSpace c = false ∧ c ≠ ']' ∧ c ≠ '\x7d'

theorem Starts.append {text : List Char} (h : Starts text) (rest : List Char) :
    Starts (text ++ rest) := by
  obtain ⟨c, cs, rfl, hc⟩ := h
  exact ⟨c, cs ++ rest, rfl, hc⟩

theorem skipSpace_starts {text : List Char} (h : Starts text) : skipSpace text = text := by
  obtain ⟨c, cs, rfl, hc, -⟩ := h
  exact List.dropWhile_cons_of_neg (by simp [hc])

theorem skipSpace_newline (level : Nat) (text : List Char) :
    skipSpace (newline level ++ text) = skipSpace text := by
  refine List.dropWhile_append_of_pos fun c hc => ?_
  rcases List.mem_cons.mp hc with rfl | hc
  · rfl
  · rw [List.eq_of_mem_replicate hc]
    rfl

theorem delimited_newline (level : Nat) (rest : List Char) :
    Delimited (newline level ++ rest) := by
  intro c hc
  cases hc
  exact .inr rfl

theorem delimited_comma (rest : List Char) : Delimited (',' :: rest) := by
  intro c hc
  cases hc
  exact .inl rfl

/-- `member` reads the text as `a`, whatever delimits it. -/
def ReadsAs {α : Type} (member : List Char → Option (α × List Char)) (text : List Char) (a : α) :
    Prop :=
  Starts text ∧ ∀ rest, Delimited rest → member (text ++ rest) = some (a, rest)

theorem exists_intercalate_eq (sep text : List Char) (texts : List (List Char)) :
    ∃ tail, sep.intercalate (text :: texts) = text ++ tail := by
  cases texts with
  | nil => exact ⟨[], by rw [List.intercalate_singleton, List.append_nil]⟩
  | cons text' texts => exact ⟨_, by rw [List.intercalate_cons_cons, List.append_assoc]⟩

/-- The members after the first, each with the comma and the new line before it. -/
theorem members_intercalate {α : Type} {member : List Char → Option (α × List Char)}
    {closing : Char} (hclosing : closing = ']' ∨ closing = '\x7d') {level : Nat} (rest : List Char)
    {text : List Char} {a : α} {texts : List (List Char)} {as : List α}
    (htext : ReadsAs member text a) (htexts : List.Forall₂ (ReadsAs member) texts as) {fuel : Nat}
    (hfuel : texts.length < fuel) :
    members member closing fuel ((',' :: newline (level + 1)).intercalate (text :: texts) ++
      (newline level ++ closing :: rest)) = some (a :: as, rest) := by
  have hspace : isSpace closing = false ∧ closing ≠ ',' := by
    rcases hclosing with rfl | rfl
    · decide
    · decide
  induction htexts generalizing text a fuel with
  | nil =>
      obtain ⟨fuel, rfl⟩ := Nat.exists_eq_succ_of_ne_zero (Nat.pos_iff_ne_zero.mp hfuel)
      have hskip : skipSpace (closing :: rest) = closing :: rest :=
        List.dropWhile_cons_of_neg (by simp [hspace.1])
      rw [List.intercalate_singleton, members, htext.2 _ (delimited_newline level _)]
      simp only [Option.bind_eq_bind, Option.bind_some, skipSpace_newline, hskip, if_true]
      rfl
  | @cons text' a' texts as hreads _ ih =>
      obtain ⟨fuel, rfl⟩ := Nat.exists_eq_succ_of_ne_zero (Nat.pos_iff_ne_zero.mp
        (Nat.zero_lt_of_lt hfuel))
      have hlen : texts.length < fuel := by simpa using hfuel
      have hnext := ih hreads hlen
      have hstarts : skipSpace ((',' :: newline (level + 1)).intercalate (text' :: texts) ++
          (newline level ++ closing :: rest)) = (',' :: newline (level + 1)).intercalate
            (text' :: texts) ++ (newline level ++ closing :: rest) := by
        obtain ⟨tail, htail⟩ := exists_intercalate_eq (',' :: newline (level + 1)) text' texts
        rw [htail, List.append_assoc]
        exact skipSpace_starts (hreads.1.append _)
      rw [List.intercalate_cons_cons, List.append_assoc, List.append_assoc, members,
        List.cons_append, htext.2 _ (delimited_comma _)]
      have hcomma : ∀ text, skipSpace (',' :: text) = ',' :: text := fun _ => rfl
      simp only [Option.bind_eq_bind, Option.bind_some, hcomma, if_neg (Ne.symm hspace.2), if_true,
        skipSpace_newline, hstarts, hnext]
      rfl

theorem length_le_length_intercalate (sep : List Char) (texts : List (List Char)) :
    (∀ text ∈ texts, text.length ≤ (sep.intercalate texts).length) ∧
      ((∀ text ∈ texts, 0 < text.length) → texts.length ≤ (sep.intercalate texts).length) := by
  induction texts with
  | nil => simp
  | cons text texts ih =>
      cases texts with
      | nil =>
          rw [List.intercalate_singleton]
          exact ⟨by simp, fun hpos => hpos text (by simp)⟩
      | cons text' texts =>
          rw [List.intercalate_cons_cons]
          refine ⟨fun t ht => ?_, fun hpos => ?_⟩
          · simp only [List.length_append]
            rcases List.mem_cons.mp ht with rfl | ht
            · omega
            · have := ih.1 t ht
              omega
          · have := ih.2 fun t ht => hpos t (List.mem_cons_of_mem _ ht)
            have := hpos text (by simp)
            simp only [List.length_append, List.length_cons] at *
            omega

theorem length_lt_bracket (opening closing : Char) (level : Nat) (texts : List (List Char)) :
    ∀ text ∈ texts, text.length < (bracket opening closing level texts).length := by
  intro text htext
  have hlen := (length_le_length_intercalate (',' :: newline (level + 1)) texts).1 text htext
  cases texts with
  | nil => cases htext
  | cons text' texts =>
      rw [bracket]
      · simp only [List.length_append, List.length_cons]
        omega
      · exact List.cons_ne_nil _ _

theorem starts_of_reads {α : Type} {member : List Char → Option (α × List Char)}
    {texts : List (List Char)} {as : List α} (h : List.Forall₂ (ReadsAs member) texts as) :
    ∀ text ∈ texts, Starts text :=
  ((List.forall₂_and_left _ _).mp h).1

/-- **Reading what was bracketed gives the members.** -/
theorem bracketed_bracket {α : Type} {member : List Char → Option (α × List Char)}
    {opening closing : Char} (hclosing : closing = ']' ∨ closing = '\x7d') {level : Nat}
    (rest : List Char) {texts : List (List Char)} {as : List α}
    (h : List.Forall₂ (ReadsAs member) texts as) :
    ∃ text, bracket opening closing level texts ++ rest = opening :: text ∧
      bracketed member closing text = some (as, rest) := by
  cases h with
  | nil =>
      refine ⟨closing :: rest, rfl, ?_⟩
      rcases hclosing with rfl | rfl
      · rfl
      · rfl
  | @cons text a texts as htext htexts =>
      have hpos : ∀ t ∈ text :: texts, 0 < t.length := by
        intro t ht
        obtain ⟨c, cs, rfl, -⟩ := starts_of_reads (.cons htext htexts) t ht
        exact Nat.succ_pos _
      have hlen := (length_le_length_intercalate (',' :: newline (level + 1)) (text :: texts)).2 hpos
      obtain ⟨tail, htail⟩ := exists_intercalate_eq (',' :: newline (level + 1)) text texts
      obtain ⟨c, cs, hc, hspace, hne⟩ := htext.1
      have hclose : c ≠ closing := by
        rcases hclosing with rfl | rfl
        · exact hne.1
        · exact hne.2
      refine ⟨newline (level + 1) ++ ((',' :: newline (level + 1)).intercalate (text :: texts) ++
        (newline level ++ closing :: rest)), by simp [bracket], ?_⟩
      have hskip : skipSpace ((',' :: newline (level + 1)).intercalate (text :: texts) ++
          (newline level ++ closing :: rest)) = c :: (cs ++ tail ++
            (newline level ++ closing :: rest)) := by
        rw [htail, hc, List.cons_append, List.cons_append]
        exact List.dropWhile_cons_of_neg (by simp [hspace])
      rw [bracketed, skipSpace_newline, hskip]
      simp only [if_neg hclose]
      rw [← List.cons_append, ← List.cons_append, ← hc, ← htail]
      refine members_intercalate hclosing rest htext htexts ?_
      simp only [List.length_append, List.length_cons] at hlen ⊢
      omega

/-! ### Values -/

theorem starts_bracket (opening closing : Char) (level : Nat) (texts : List (List Char)) :
    ∃ cs, bracket opening closing level texts = opening :: cs := by
  cases texts with
  | nil => exact ⟨_, rfl⟩
  | cons text texts => exact ⟨_, rfl⟩

theorem starts_dumps {v : Value F} (h : Plain v) (level : Nat) : Starts (dumps level v) := by
  cases h with
  | null => exact ⟨_, _, rfl, by decide⟩
  | bool b =>
      cases b with
      | true => exact ⟨_, _, rfl, by decide⟩
      | false => exact ⟨_, _, rfl, by decide⟩
  | int n =>
      cases n with
      | ofNat n =>
          obtain ⟨d, ds, hds, hd⟩ := toDigits_eq_cons n
          refine ⟨d, ds, hds, ?_, ne_of_digit hd rfl, ne_of_digit hd rfl⟩
          have hne : ∀ w : Char, w.isDigit = false → ¬ (d = w) := fun _ hw => ne_of_digit hd hw
          simp [isSpace, hne]
      | negSucc n => exact ⟨_, _, rfl, by decide⟩
  | str s => exact ⟨_, _, rfl, by decide⟩
  | @list items h =>
      obtain ⟨cs, hcs⟩ := starts_bracket '[' ']' level (dumpList (level + 1) items)
      exact ⟨_, cs, hcs, by decide⟩
  | dict hkeys h =>
      rw [dumps_dict]
      obtain ⟨cs, hcs⟩ := starts_bracket '\x7b' '\x7d' level _
      exact ⟨_, cs, hcs, by decide⟩

theorem readItem_itemText {α : Type} {value : List Char → Option (α × List Char)} {text : List Char}
    {a : α} (key : String) (h : ReadsAs value text a) :
    ReadsAs (readItem value) (itemText (key, text)) (key, a) := by
  refine ⟨⟨_, _, rfl, by decide⟩, fun rest hrest => ?_⟩
  have htext : itemText (key, text) ++ rest =
      '"' :: (key.toList.flatMap escapeChar ++ '"' :: ':' :: ' ' :: (text ++ rest)) := by
    simp [itemText, dumpString]
  have hcolon : ∀ text, skipSpace (':' :: text) = ':' :: text := fun _ => rfl
  have hskip : skipSpace (' ' :: (text ++ rest)) = text ++ rest :=
    (List.dropWhile_cons_of_pos rfl).trans (skipSpace_starts (h.1.append rest))
  rw [htext, readItem]
  simp only [guard_true, Option.bind_eq_bind, Option.pure_def, Option.bind_some, readString_escape,
    hcolon, hskip, h.2 rest hrest]

theorem length_le_itemText (item : String × List Char) :
    item.2.length ≤ (itemText item).length := by
  rw [itemText, List.length_append, List.length_cons, List.length_cons]
  omega

/-- **Reading the text of a plain value gives the value, its keys in order.** -/
theorem readValue_dumps (fuel level : Nat) {v : Value F} (hv : Plain v) {rest : List Char}
    (hrest : Delimited rest) (hfuel : (dumps level v).length ≤ fuel) :
    readValue fuel (dumps level v ++ rest) = some (sortKeys v, rest) := by
  -- a member's text is shorter than that of the value it is in
  induction fuel generalizing level v rest with
  | zero =>
      obtain ⟨c, cs, hc, -⟩ := starts_dumps hv level
      rw [hc] at hfuel
      cases hfuel
  | succ fuel ih =>
      have hreads : ∀ {w : Value F}, Plain w → (dumps (level + 1) w).length ≤ fuel →
          ReadsAs (readValue fuel) (dumps (level + 1) w) (sortKeys w) :=
        fun hw hlen => ⟨starts_dumps hw _, fun rest hrest => ih _ hw hrest hlen⟩
      cases hv with
      | null => rfl
      | bool b =>
          cases b with
          | true => rfl
          | false => rfl
      | int n =>
          obtain ⟨c, cs, hc, hquote, hlist, hdict⟩ : ∃ c cs, dumpInt n = c :: cs ∧ c ≠ '"' ∧ c ≠ '[' ∧
              c ≠ '\x7b' := by
            cases n with
            | ofNat n =>
                obtain ⟨d, ds, hds, hd⟩ := toDigits_eq_cons n
                exact ⟨d, ds, hds, ne_of_digit hd rfl, ne_of_digit hd rfl, ne_of_digit hd rfl⟩
            | negSucc n => exact ⟨_, _, rfl, by decide⟩
          have hword := readWord_dumpInt (F := F) n rest
          have hnumber := readNumber_dumpInt (F := F) n hrest
          rw [hc, List.cons_append] at hword hnumber
          rw [dumps, hc, List.cons_append, readValue, if_neg hquote, if_neg hlist, if_neg hdict, hword,
            hnumber]
          rfl
      | str s =>
          have htext : dumps level (.str s : Value F) ++ rest =
              '"' :: (s.toList.flatMap escapeChar ++ '"' :: rest) := by
            simp [dumps, dumpString]
          rw [htext, readValue, if_pos rfl, readString_escape]
          rfl
      | @list items h =>
          rw [dumps, dumpList_eq_map] at hfuel ⊢
          have hlen := length_lt_bracket '[' ']' level (items.map (dumps (level + 1)))
          rw [List.forall_mem_map] at hlen
          have hmembers : List.Forall₂ (ReadsAs (readValue fuel)) (items.map (dumps (level + 1)))
              (items.map sortKeys) := by
            rw [List.forall₂_map_left_iff, List.forall₂_map_right_iff, List.forall₂_same]
            exact fun w hw => hreads (h w hw) (by have := hlen w hw; omega)
          obtain ⟨text, htext, hread⟩ := @bracketed_bracket _ _ '[' ']' (.inl rfl) level rest _ _ hmembers
          rw [htext, readValue, if_neg (by decide), if_pos rfl, hread, sortKeys,
            sortKeysList_eq_map]
          rfl
      | @dict items hkeys h =>
          rw [dumps_dict] at hfuel ⊢
          have hlen := length_lt_bracket '\x7b' '\x7d' level
            ((sortItems items).map fun item => itemText (item.1, dumps (level + 1) item.2))
          rw [List.forall_mem_map] at hlen
          have hperm := sortItems_perm items
          have hmembers : List.Forall₂ (ReadsAs (readItem (readValue fuel)))
              ((sortItems items).map fun item => itemText (item.1, dumps (level + 1) item.2))
              ((sortItems items).map fun item => (item.1, sortKeys item.2)) := by
            rw [List.forall₂_map_left_iff, List.forall₂_map_right_iff, List.forall₂_same]
            intro item hitem
            refine readItem_itemText item.1 (hreads (h item (hperm.mem_iff.mp hitem)) ?_)
            have := hlen item hitem
            have := length_le_itemText (item.1, dumps (level + 1) item.2)
            dsimp only at this
            omega
          obtain ⟨text, htext, hread⟩ :=
            @bracketed_bracket _ _ '\x7b' '\x7d' (.inr rfl) level rest _ _ hmembers
          have hkeys' : (((sortItems items).map fun item => (item.1, sortKeys item.2)).map
              Prod.fst).Nodup := by
            rw [List.map_map]
            exact (hperm.map Prod.fst).nodup_iff.mpr hkeys
          rw [htext, readValue, if_neg (by decide), if_neg (by decide), if_pos rfl, hread, sortKeys,
            sortKeysItems_eq_map, sortItems_map]
          simp only [Option.map_some, ofItems_of_nodup hkeys']

/-- **Reading the text of a plain value, with a new line at its end, gives the value, its keys in
order.** -/
theorem loads_dumps {v : Value F} (hv : Plain v) : loads (dumps 0 v ++ ['\n']) = some (sortKeys v) := by
  have hstarts := (starts_dumps hv 0).append ['\n']
  have hrest : Delimited ['\n'] := delimited_newline 0 []
  rw [loads, skipSpace_starts hstarts, readValue_dumps _ 0 hv hrest (by
    rw [List.length_append]
    omega)]
  rfl

/-! ### The characters of a text -/

/-- Printable ASCII. -/
def Printable (c : Char) : Prop := 32 ≤ c.toNat ∧ c.toNat ≤ 126

instance decidablePrintable (c : Char) : Decidable (Printable c) :=
  inferInstanceAs (Decidable (_ ∧ _))

theorem printable_digitChar : ∀ d < 16, Printable (Nat.digitChar d) := by decide

theorem printable_escapeUnit (n : Nat) : ∀ c ∈ escapeUnit n, Printable c := by
  have hdigit : ∀ k, Printable (Nat.digitChar (k % 16)) :=
    fun k => printable_digitChar _ (Nat.mod_lt _ (by decide))
  simp only [escapeUnit, hex4, List.map_cons, List.map_nil, List.forall_mem_cons]
  exact ⟨by decide, by decide, hdigit _, hdigit _, hdigit _, hdigit _, by simp⟩

theorem printable_escapeChar (c : Char) : ∀ d ∈ escapeChar c, Printable d := by
  unfold escapeChar
  repeat' split
  all_goals first
    | exact List.forall_iff_forall_mem.mp (by decide)
    | exact printable_escapeUnit _
    | skip
  · next h => exact fun d hd => List.mem_singleton.mp hd ▸ h
  · exact List.forall_mem_append.mpr ⟨printable_escapeUnit _, printable_escapeUnit _⟩

theorem printable_dumpString (s : String) : ∀ c ∈ dumpString s, Printable c := by
  refine List.forall_mem_append.mpr ⟨List.forall_mem_cons.mpr ⟨by decide, ?_⟩,
    List.forall_iff_forall_mem.mp (by decide)⟩
  exact List.forall_mem_flatMap.mpr fun c _ => printable_escapeChar c

theorem printable_digit {c : Char} (h : c.isDigit) : Printable c := by
  simp only [Char.isDigit, Bool.and_eq_true, decide_eq_true_eq] at h
  exact ⟨le_trans (by decide) h.1, le_trans h.2 (by decide)⟩

theorem printable_toDigits (n : Nat) : ∀ c ∈ Nat.toDigits 10 n, Printable c :=
  fun c hc => printable_digit (Nat.isDigit_of_mem_toDigits (by decide) (by decide) hc)

theorem forall_mem_newline {P : Char → Prop} (hline : P '\n') (hspace : P ' ') (level : Nat) :
    ∀ c ∈ newline level, P c :=
  List.forall_mem_cons.mpr ⟨hline, fun _ hc => List.eq_of_mem_replicate hc ▸ hspace⟩

theorem forall_mem_intercalate {P : Char → Prop} {sep : List Char} (hsep : ∀ c ∈ sep, P c)
    {texts : List (List Char)} (h : ∀ text ∈ texts, ∀ c ∈ text, P c) :
    ∀ c ∈ sep.intercalate texts, P c := by
  induction texts with
  | nil => simp
  | cons text texts ih =>
      rw [List.forall_mem_cons] at h
      cases texts with
      | nil =>
          rw [List.intercalate_singleton]
          exact h.1
      | cons text' texts =>
          rw [List.intercalate_cons_cons]
          exact List.forall_mem_append.mpr ⟨List.forall_mem_append.mpr ⟨h.1, hsep⟩, ih h.2⟩

theorem forall_mem_bracket {P : Char → Prop} (hline : P '\n') (hspace : P ' ') (hcomma : P ',')
    {opening closing : Char} (hopening : P opening) (hclosing : P closing) (level : Nat)
    {texts : List (List Char)} (h : ∀ text ∈ texts, ∀ c ∈ text, P c) :
    ∀ c ∈ bracket opening closing level texts, P c := by
  have hnewline := forall_mem_newline hline hspace
  cases texts with
  | nil => simp [bracket, hopening, hclosing]
  | cons text texts =>
      have hmembers := forall_mem_intercalate
        (List.forall_mem_cons.mpr ⟨hcomma, hnewline (level + 1)⟩) h
      simp only [bracket, List.forall_mem_append, List.forall_mem_cons]
      exact ⟨⟨⟨⟨hopening, hnewline _⟩, hmembers⟩, hnewline _⟩, hclosing, by simp⟩

theorem printable_word {word : List Char} (h : word.Forall Printable) :
    ∀ c ∈ word, c = '\n' ∨ Printable c :=
  fun c hc => .inr (List.forall_iff_forall_mem.mp h c hc)

/-- **The text of a plain value is printable ASCII, over some lines.** -/
theorem printable_dumps {v : Value F} (h : Plain v) (level : Nat) :
    ∀ c ∈ dumps level v, c = '\n' ∨ Printable c := by
  have hbracket : ∀ {opening closing texts}, Printable opening → Printable closing →
      (∀ text ∈ texts, ∀ c ∈ text, c = '\n' ∨ Printable c) → ∀ level,
      ∀ c ∈ bracket opening closing level texts, c = '\n' ∨ Printable c :=
    fun hopening hclosing htexts level => forall_mem_bracket (.inl rfl) (.inr (by decide))
      (.inr (by decide)) (.inr hopening) (.inr hclosing) level htexts
  induction h generalizing level with
  | null => exact printable_word (by decide : ['n', 'u', 'l', 'l'].Forall Printable)
  | bool b =>
      cases b with
      | true => exact printable_word (by decide : ['t', 'r', 'u', 'e'].Forall Printable)
      | false => exact printable_word (by decide : ['f', 'a', 'l', 's', 'e'].Forall Printable)
  | int n =>
      intro c hc
      right
      cases n with
      | ofNat n => exact printable_toDigits n c hc
      | negSucc n =>
          rcases List.mem_cons.mp hc with rfl | hc
          · decide
          · exact printable_toDigits _ c hc
  | str s => exact fun c hc => .inr (printable_dumpString s c hc)
  | list h ih =>
      rw [dumps, dumpList_eq_map]
      exact hbracket (by decide) (by decide) (List.forall_mem_map.mpr fun v hv => ih v hv _) level
  | @dict items hkeys h ih =>
      rw [dumps_dict]
      refine hbracket (by decide) (by decide) (List.forall_mem_map.mpr fun item hitem => ?_) level
      refine List.forall_mem_append.mpr ⟨fun c hc => .inr (printable_dumpString _ c hc), ?_⟩
      refine List.forall_mem_cons.mpr ⟨.inr (by decide), List.forall_mem_cons.mpr
        ⟨.inr (by decide), ?_⟩⟩
      exact ih item ((sortItems_perm items).mem_iff.mp hitem) _

end Json
