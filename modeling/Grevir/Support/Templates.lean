import Grevir.Support.Framing

/-!
# Support — Templates

Lines with words in them.  A word has letters, digits and underscores only, and what stands behind a
word begins with something else, so that a reader who knows the text around the words finds each word's
end.

* `Line.text_inj`: lines with the same text around their words have the same words, if they read the
  same.
* `lines_inj`: as many lines from the front of two texts, none with a line end in it, are the same.
* `read_lines`: lines with the same frames, from the front of two texts, are the same.
-/

namespace Templates

/-- A character of a word. -/
def isWordChar (c : Char) : Bool := c.isAlphanum || c = '_'

def Word (s : String) : Prop := ∀ c ∈ s.toList, isWordChar c = true

/-- A text that can stand behind a word. -/
def Closes (s : String) : Prop := ∃ c cs, s.toList = c :: cs ∧ isWordChar c = false

/-- A text on one line. -/
def Single (s : String) : Prop := '\n' ∉ s.toList

theorem Word.single {s : String} (h : Word s) : Single s := by
  intro hmem
  exact absurd (h _ hmem) (by decide)

theorem Word.append {s t : String} (hs : Word s) (ht : Word t) : Word (s ++ t) := by
  intro c hc
  rw [String.toList_append, List.mem_append] at hc
  rcases hc with hc | hc
  · exact hs c hc
  · exact ht c hc

theorem word_toString (n : Nat) : Word (toString n) := by
  intro c hc
  rw [Nat.toString_eq_repr, Nat.toList_repr] at hc
  have hdigit := Nat.isDigit_of_mem_toDigits (by decide) (by decide) hc
  rw [isWordChar, Char.isAlphanum, hdigit, Bool.or_true, Bool.true_or]

theorem toString_inj {m n : Nat} (h : toString m = toString n) : m = n := by
  have hdigits := congrArg (fun s : String => Nat.ofDigitChars 10 s.toList 0) h
  simpa [Nat.toString_eq_repr, Nat.toList_repr] using hdigits

theorem Closes.append {s : String} (h : Closes s) (t : String) : Closes (s ++ t) := by
  obtain ⟨c, cs, hs, hc⟩ := h
  exact ⟨c, cs ++ t.toList, by rw [String.toList_append, hs, List.cons_append], hc⟩

@[simp] theorem single_append {s t : String} : Single (s ++ t) ↔ Single s ∧ Single t := by
  simp [Single, not_or]

theorem word_ofList {cs : List Char} (h : cs.all isWordChar = true) : Word (String.ofList cs) := by
  intro c hc
  rw [String.toList_ofList] at hc
  exact List.all_eq_true.mp h c hc

theorem closes_ofList {c : Char} {cs : List Char} (h : isWordChar c = false) :
    Closes (String.ofList (c :: cs)) := ⟨c, cs, String.toList_ofList, h⟩

theorem single_ofList {cs : List Char} (h : '\n' ∉ cs) : Single (String.ofList cs) := by
  rwa [Single, String.toList_ofList]

theorem single_of_notMem {s : String} (h : '\n' ∉ s.toList) : Single s := h

theorem Single.notMem {s : String} (h : Single s) : '\n' ∉ s.toList := h

theorem Closes.head {s : String} (h : Closes s) : ∃ c cs, s.toList = c :: cs ∧ isWordChar c = false := h

-- what holds of a literal is not to be looked for in the literal
attribute [irreducible] Closes Single

/-- Words before what closes them are told apart. -/
theorem word_append_inj {w w' s t t' : String} (hw : Word w) (hw' : Word w') (hs : Closes s)
    (h : w ++ (s ++ t) = w' ++ (s ++ t')) : w = w' ∧ t = t' := by
  obtain ⟨c, cs, hs, hc⟩ := hs.head
  have hnot : ∀ {v : String}, Word v → c ∉ v.toList := fun hv hmem => by
    rw [hv c hmem] at hc
    cases hc
  have hlist := congrArg String.toList h
  simp only [String.toList_append, hs, List.cons_append] at hlist
  obtain ⟨hword, hrest⟩ := Framing.separated (hnot hw) (hnot hw') hlist
  exact ⟨String.toList_inj.mp hword, String.toList_inj.mp (List.append_cancel_left hrest)⟩

/-! ### Lines -/

/-- A line: each word with the text before it, and what stands behind the last one. -/
structure Line where
  parts : List (String × String)
  rest : String

/-- A line without words. -/
def Line.fixed (rest : String) : Line := ⟨[], rest⟩

namespace Line

def textOf (rest : String) : List (String × String) → String
  | [] => rest
  | (before, word) :: parts => before ++ (word ++ textOf rest parts)

def text (l : Line) : String := textOf l.rest l.parts

/-- What stands around the words. -/
def frame (l : Line) : List String × String := (l.parts.map Prod.fst, l.rest)

/-- The words of the line can be found, and it is one line. -/
structure Legible (l : Line) : Prop where
  words : ∀ part ∈ l.parts, Word part.2
  closed : ∀ s ∈ (l.parts.map Prod.fst ++ [l.rest]).tail, Closes s
  single : ∀ s ∈ l.parts.map Prod.fst ++ [l.rest], Single s

theorem legible_iff {l : Line} :
    l.Legible ↔ (∀ part ∈ l.parts, Word part.2) ∧
      (∀ s ∈ (l.parts.map Prod.fst ++ [l.rest]).tail, Closes s) ∧
        ∀ s ∈ l.parts.map Prod.fst ++ [l.rest], Single s :=
  ⟨fun h => ⟨h.words, h.closed, h.single⟩, fun h => ⟨h.1, h.2.1, h.2.2⟩⟩

theorem single_textOf {rest : String} {parts : List (String × String)}
    (hwords : ∀ part ∈ parts, Word part.2)
    (hsingle : ∀ s ∈ parts.map Prod.fst ++ [rest], Single s) : Single (textOf rest parts) := by
  induction parts with
  | nil => exact hsingle rest (by simp)
  | cons part parts ih =>
      rw [List.forall_mem_cons] at hwords
      rw [List.map_cons, List.cons_append, List.forall_mem_cons] at hsingle
      rw [textOf, single_append, single_append]
      exact ⟨hsingle.1, hwords.1.single, ih hwords.2 hsingle.2⟩

/-- **A legible line is one line.** -/
theorem Legible.single_text {l : Line} (h : l.Legible) : Single l.text :=
  single_textOf h.words h.single

/-- What is read of the words and what is behind them begins as it does in any line with this frame. -/
theorem exists_textOf (rest : String) (parts : List (String × String)) :
    ∃ s ∈ parts.map Prod.fst ++ [rest], (parts.map Prod.fst ++ [rest]).head? = some s ∧
      ∀ parts', parts'.map Prod.fst = parts.map Prod.fst → ∃ t, textOf rest parts' = s ++ t := by
  cases parts with
  | nil =>
      refine ⟨rest, by simp, rfl, fun parts' hparts => ?_⟩
      rw [List.map_eq_nil_iff.mp hparts]
      exact ⟨"", String.append_empty.symm⟩
  | cons part parts =>
      refine ⟨part.1, by simp, rfl, fun parts' hparts => ?_⟩
      cases parts' with
      | nil => cases hparts
      | cons part' parts' =>
          obtain ⟨hbefore, -⟩ := List.cons.inj hparts
          exact ⟨_, by rw [textOf, hbefore]⟩

theorem textOf_inj {rest : String} {parts parts' : List (String × String)}
    (hframe : parts'.map Prod.fst = parts.map Prod.fst)
    (hwords : ∀ part ∈ parts, Word part.2) (hwords' : ∀ part ∈ parts', Word part.2)
    (hclosed : ∀ s ∈ (parts.map Prod.fst ++ [rest]).tail, Closes s)
    (h : textOf rest parts = textOf rest parts') : parts = parts' := by
  induction parts generalizing parts' with
  | nil => exact (List.map_eq_nil_iff.mp hframe).symm
  | cons part parts ih =>
      cases parts' with
      | nil => cases hframe
      | cons part' parts' =>
          obtain ⟨hbefore, hframe⟩ := List.cons.inj hframe
          rw [List.forall_mem_cons] at hwords hwords'
          rw [textOf, textOf, hbefore, String.append_right_inj] at h
          obtain ⟨s, hs, hhead, hread⟩ := exists_textOf rest parts
          obtain ⟨t, ht⟩ := hread parts rfl
          obtain ⟨t', ht'⟩ := hread parts' hframe
          have hcloses : Closes s := hclosed s (by simpa using hs)
          rw [ht, ht'] at h
          obtain ⟨hword, rfl⟩ := word_append_inj hwords.1 hwords'.1 hcloses h
          have hrest := ih hframe hwords.2 hwords'.2
            (fun s hs => hclosed s (List.mem_of_mem_tail hs)) (ht.trans ht'.symm)
          rw [hrest, Prod.ext hbefore.symm hword]

/-- **Lines with the same frame that read the same are the same.** -/
theorem text_inj {l l' : Line} (hframe : l'.frame = l.frame) (h : l.Legible) (h' : l'.Legible)
    (htext : l.text = l'.text) : l = l' := by
  obtain ⟨parts, rest⟩ := l
  obtain ⟨parts', rest'⟩ := l'
  obtain ⟨hparts, rfl⟩ := Prod.mk.inj hframe
  exact congrArg (Line.mk · rest') (textOf_inj hparts h.words h'.words h.closed htext)

/-- Lines with the same frames, one for one, that read the same. -/
theorem texts_inj {ls ls' : List Line} (hframes : ls'.map frame = ls.map frame)
    (h : ∀ l ∈ ls, l.Legible) (h' : ∀ l ∈ ls', l.Legible) (htexts : ls.map text = ls'.map text) :
    ls = ls' := by
  induction ls generalizing ls' with
  | nil => exact (List.map_eq_nil_iff.mp hframes).symm
  | cons l ls ih =>
      cases ls' with
      | nil => cases hframes
      | cons l' ls' =>
          rw [List.forall_mem_cons] at h h'
          obtain ⟨hframe, hframes⟩ := List.cons.inj hframes
          obtain ⟨htext, htexts⟩ := List.cons.inj htexts
          rw [text_inj hframe h.1 h'.1 htext, ih hframes h.2 h'.2 htexts]

end Line

/-! ### Texts of lines -/

/-- **As many lines from the front of two texts are the same**, if the texts are. -/
theorem lines_inj {ls ls' rest rest' : List String} (hlength : ls.length = ls'.length)
    (h : ∀ l ∈ ls, Single l) (h' : ∀ l ∈ ls', Single l) (hrest : rest ≠ []) (hrest' : rest' ≠ [])
    (htext : "\n".intercalate (ls ++ rest) = "\n".intercalate (ls' ++ rest')) :
    ls = ls' ∧ "\n".intercalate rest = "\n".intercalate rest' := by
  induction ls generalizing ls' with
  | nil =>
      obtain rfl := List.length_eq_zero_iff.mp hlength.symm
      exact ⟨rfl, htext⟩
  | cons l ls ih =>
      cases ls' with
      | nil => cases hlength
      | cons l' ls' =>
          rw [List.forall_mem_cons] at h h'
          rw [List.cons_append, List.cons_append,
            String.intercalate_cons_of_ne_nil (by simp [hrest]),
            String.intercalate_cons_of_ne_nil (by simp [hrest'])] at htext
          have hlist := congrArg String.toList htext
          have hline : "\n".toList = ['\n'] := rfl
          simp only [String.toList_append, hline, List.append_assoc, List.singleton_append] at hlist
          obtain ⟨hl, htail⟩ := Framing.separated h.1.notMem h'.1.notMem hlist
          obtain ⟨hls, hrests⟩ := ih (Nat.succ.inj hlength) h.2 h'.2 (String.toList_inj.mp htail)
          rw [String.toList_inj.mp hl, hls]
          exact ⟨rfl, hrests⟩

/-- **Lines with the same frames, from the front of two texts, are the same.** -/
theorem read_lines {ls ls' : List Line} {rest rest' : List String}
    (hframes : ls'.map Line.frame = ls.map Line.frame) (h : ∀ l ∈ ls, l.Legible)
    (h' : ∀ l ∈ ls', l.Legible) (hrest : rest ≠ []) (hrest' : rest' ≠ [])
    (htext : "\n".intercalate (ls.map Line.text ++ rest) =
      "\n".intercalate (ls'.map Line.text ++ rest')) :
    ls = ls' ∧ "\n".intercalate rest = "\n".intercalate rest' := by
  have hlength : (ls.map Line.text).length = (ls'.map Line.text).length := by
    have hcount := congrArg List.length hframes
    rw [List.length_map, List.length_map] at hcount
    rw [List.length_map, List.length_map, hcount]
  obtain ⟨htexts, hrests⟩ := lines_inj hlength (List.forall_mem_map.mpr fun l hl => (h l hl).single_text)
    (List.forall_mem_map.mpr fun l hl => (h' l hl).single_text) hrest hrest' htext
  exact ⟨Line.texts_inj hframes h h' htexts, hrests⟩

/-! ### Blocks -/

section Blocks

variable {α β : Type*} {f : Nat → α → List β} {l l' : List α}

/-- **Blocks of one length, each of which tells what it is for, tell it all.** -/
theorem flatten_mapIdx_inj (hsize : ∀ i a b, (f i a).length = (f i b).length)
    (hinj : ∀ i a b, f i a = f i b → a = b) (hlength : l.length = l'.length)
    (h : (l.mapIdx f).flatten = (l'.mapIdx f).flatten) : l = l' := by
  induction l generalizing l' f with
  | nil => exact (List.length_eq_zero_iff.mp hlength.symm).symm
  | cons a l ih =>
      cases l' with
      | nil => cases hlength
      | cons b l' =>
          rw [List.mapIdx_cons, List.mapIdx_cons, List.flatten_cons, List.flatten_cons] at h
          obtain ⟨hhead, htail⟩ := List.append_inj h (hsize 0 a b)
          rw [hinj 0 a b hhead, ih (fun i => hsize (i + 1)) (fun i => hinj (i + 1))
            (Nat.succ.inj hlength) htail]

end Blocks

end Templates
