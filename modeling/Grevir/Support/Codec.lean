import Mathlib.Tactic.Common
import Mathlib.Algebra.Ring.Nat

/-!
# Support — Codec

Readers of bytes that accept exactly what a writer lays out.  A reader takes bytes off the front of
its input or fails; `Exact E C p ok enc` says that `p` answers `b` on an input exactly when the
input starts with `enc b` and `b` satisfies `C` and `ok`, and that it fails with nothing but `E`.
The condition `C` is what the reads before `p` have fixed, and `ok` what the writer can lay out.

* `Exact.pure`, `Exact.field`: a reader that fills a record field by field, in the writer's order.
* `Exact.check`: a check of what has been read.
* `le_fromLe`, `fromLe_le`: little-endian numbers.
* `Exact.many`, `Exact.counted`: a counted list.
* `Delimits.flatMap`: lists of encodings that tell where they end.

A writer fills a buffer of fixed size.  `Writes size p ok bs` says that `p` writes `bs` when `ok` holds
and there is room, and fails otherwise.
-/

namespace Codec

/-- A reader: the bytes left to read, and failures in `ε`. -/
abbrev Reader (ε : Type) := StateT (List UInt8) (Except ε)

variable {ε α β : Type}

/-- `p` reads exactly what `enc` writes. -/
structure Exact (E : ε → Prop) (C : β → Prop) (p : Reader ε β) (ok : β → Prop)
    (enc : β → List UInt8) : Prop where
  reads : ∀ input b rest, p input = .ok (b, rest) ↔ C b ∧ ok b ∧ input = enc b ++ rest
  raises : ∀ input e, p input = .error e → E e

/-- A reader that depends on nothing read before. -/
abbrev Reads (E : ε → Prop) (p : Reader ε β) (ok : β → Prop) (enc : β → List UInt8) : Prop :=
  Exact E (fun _ => True) p ok enc

variable {E : ε → Prop} {C : β → Prop}

theorem bind_eq_ok {p : Reader ε α} {q : α → Reader ε β} {input rest : List UInt8} {b : β} :
    (p >>= q) input = .ok (b, rest) ↔
      ∃ a mid, p input = .ok (a, mid) ∧ q a mid = .ok (b, rest) := by
  show (p input >>= fun x => q x.1 x.2) = _ ↔ _
  cases p input with
  | error e => simp [Bind.bind, Except.bind]
  | ok x => obtain ⟨a, mid⟩ := x; simp [Bind.bind, Except.bind]

theorem bind_eq_error {p : Reader ε α} {q : α → Reader ε β} {input : List UInt8} {e : ε} :
    (p >>= q) input = .error e ↔
      p input = .error e ∨ ∃ a mid, p input = .ok (a, mid) ∧ q a mid = .error e := by
  show (p input >>= fun x => q x.1 x.2) = _ ↔ _
  cases p input with
  | error e' => simp [Bind.bind, Except.bind]
  | ok x => obtain ⟨a, mid⟩ := x; simp [Bind.bind, Except.bind]

namespace Exact

/-- The last step, when the reads before have fixed the answer. -/
theorem pure {a : β} (h : ∀ b, C b ↔ b = a) :
    Exact E C (Pure.pure a) (fun _ => True) fun _ => [] where
  reads input b rest := by
    show Except.ok (a, input) = .ok (b, rest) ↔ _
    rw [h]
    simp [eq_comm]
  raises input e he := by cases he

/-- One more read, of what will be `proj b`. -/
theorem field {p : Reader ε α} {q : α → Reader ε β} {okP : α → Prop} {encP : α → List UInt8}
    {okQ : β → Prop} {encQ : β → List UInt8} (proj : β → α) (hp : Reads E p okP encP)
    (hq : ∀ a, okP a → Exact E (fun b => C b ∧ proj b = a) (q a) okQ encQ) :
    Exact E C (p >>= q) (fun b => okP (proj b) ∧ okQ b) fun b => encP (proj b) ++ encQ b where
  reads input b rest := by
    rw [bind_eq_ok]
    constructor
    · rintro ⟨a, mid, ha, hb⟩
      obtain ⟨-, hok, rfl⟩ := (hp.reads input a mid).mp ha
      obtain ⟨⟨hC, rfl⟩, hok', rfl⟩ := ((hq a hok).reads mid b rest).mp hb
      exact ⟨hC, ⟨hok, hok'⟩, by rw [List.append_assoc]⟩
    · rintro ⟨hC, ⟨hok, hok'⟩, rfl⟩
      exact ⟨proj b, encQ b ++ rest, (hp.reads _ _ _).mpr ⟨trivial, hok, by rw [List.append_assoc]⟩,
        ((hq (proj b) hok).reads _ b rest).mpr ⟨⟨hC, rfl⟩, hok', rfl⟩⟩
  raises input e he := by
    rcases bind_eq_error.mp he with he | ⟨a, mid, ha, he⟩
    · exact hp.raises input e he
    · exact (hq a ((hp.reads input a mid).mp ha).2.1).raises mid e he

/-- A check that what was read before already implies, for the values in question. -/
theorem check {c : Reader ε Unit} {p : Reader ε β} {P : Prop} {ok : β → Prop}
    {enc : β → List UInt8} (hc : Reads E c (fun _ => P) fun _ => []) (hC : ∀ b, C b → P)
    (hp : P → Exact E C p ok enc) : Exact E C (do c; p) ok enc where
  reads input b rest := by
    rw [bind_eq_ok]
    constructor
    · rintro ⟨⟨⟩, mid, hmid, hb⟩
      obtain ⟨-, hP, rfl⟩ := (hc.reads input () mid).mp hmid
      exact ((hp hP).reads _ b rest).mp hb
    · intro hb
      have hP : P := hC b hb.1
      exact ⟨(), input, (hc.reads _ _ _).mpr ⟨trivial, hP, rfl⟩, ((hp hP).reads _ b rest).mpr hb⟩
  raises input e he := by
    rcases bind_eq_error.mp he with he | ⟨⟨⟩, mid, hmid, he⟩
    · exact hc.raises input e he
    · exact (hp ((hc.reads input () mid).mp hmid).2.1).raises mid e he

theorem congr {p : Reader ε β} {C' : β → Prop} {ok ok' : β → Prop} {enc enc' : β → List UInt8}
    (h : Exact E C p ok enc) (hok : ∀ b, C b ∧ ok b ↔ C' b ∧ ok' b)
    (henc : ∀ b, C b → ok b → enc b = enc' b) : Exact E C' p ok' enc' where
  reads input b rest := by
    rw [h.reads, ← and_assoc, ← and_assoc, ← hok]
    exact and_congr_right fun hb => by rw [henc b hb.1 hb.2]
  raises := h.raises

theorem reshape {p : Reader ε β} {ok ok' : β → Prop} {enc enc' : β → List UInt8}
    (h : Exact E C p ok enc) (hok : ∀ b, ok b ↔ ok' b) (henc : ∀ b, enc b = enc' b) :
    Exact E C p ok' enc' :=
  h.congr (fun b => and_congr_right fun _ => hok b) fun b _ _ => henc b

end Exact

/-! ### Little-endian numbers -/

/-- The low `k` bytes of `n`, lowest first. -/
def le : Nat → Nat → List UInt8
  | 0, _ => []
  | k + 1, n => UInt8.ofNat n :: le k (n / 256)

/-- The number some bytes make, lowest first. -/
def fromLe : List UInt8 → Nat
  | [] => 0
  | b :: bs => b.toNat + 256 * fromLe bs

@[simp] theorem length_le (k n : Nat) : (le k n).length = k := by
  induction k generalizing n with
  | zero => rfl
  | succ k ih => rw [le, List.length_cons, ih]

theorem fromLe_le (k n : Nat) : fromLe (le k n) = n % 256 ^ k := by
  induction k generalizing n with
  | zero => simp [le, fromLe, Nat.mod_one]
  | succ k ih =>
      have hpow : 256 ^ (k + 1) = 256 * 256 ^ k := Nat.pow_succ'
      rw [le, fromLe, ih, UInt8.toNat_ofNat', hpow, Nat.mod_mul]

theorem le_fromLe (bs : List UInt8) : le bs.length (fromLe bs) = bs := by
  induction bs with
  | nil => rfl
  | cons b bs ih =>
      have hb : b.toNat < 256 := b.toNat_lt
      have hdiv : (b.toNat + 256 * fromLe bs) / 256 = fromLe bs := by omega
      have hlow : UInt8.ofNat (b.toNat + 256 * fromLe bs) = b := by
        rw [← UInt8.toNat_inj, UInt8.toNat_ofNat']
        omega
      rw [fromLe, List.length_cons, le, hdiv, ih, hlow]

theorem fromLe_lt (bs : List UInt8) : fromLe bs < 256 ^ bs.length := by
  have h := fromLe_le bs.length (fromLe bs)
  rw [le_fromLe] at h
  rw [h]
  exact Nat.mod_lt _ (Nat.pow_pos (by decide))

theorem le_injective {k m n : Nat} (hm : m < 256 ^ k) (hn : n < 256 ^ k) (h : le k m = le k n) :
    m = n := by
  have hfrom := congrArg fromLe h
  rwa [fromLe_le, fromLe_le, Nat.mod_eq_of_lt hm, Nat.mod_eq_of_lt hn] at hfrom

/-! ### Counted lists -/

/-- `n` reads, one after another. -/
def many (p : Reader ε α) : Nat → Reader ε (List α)
  | 0 => Pure.pure []
  | n + 1 => do
      let a ← p
      let as ← many p n
      return a :: as

/-- **A counted list reads exactly the members' encodings, one after another.** -/
theorem Exact.many {p : Reader ε α} {ok : α → Prop} {enc : α → List UInt8} (hp : Reads E p ok enc)
    (n : Nat) :
    Reads E (many p n) (fun as => as.length = n ∧ ∀ a ∈ as, ok a) fun as => as.flatMap enc := by
  induction n with
  | zero =>
      refine ⟨fun input as rest => ?_, fun input e he => by cases he⟩
      show Except.ok ([], input) = .ok (as, rest) ↔ _
      cases as <;> simp
  | succ n ih =>
      refine ⟨fun input as rest => ?_, fun input e he => ?_⟩
      · rw [Codec.many, bind_eq_ok]
        constructor
        · rintro ⟨a, mid, ha, hrest⟩
          obtain ⟨as', mid', has, hcons⟩ := bind_eq_ok.mp hrest
          obtain ⟨-, hok, rfl⟩ := (hp.reads input a mid).mp ha
          obtain ⟨-, ⟨rfl, hall⟩, rfl⟩ := (ih.reads mid as' mid').mp has
          cases hcons
          exact ⟨trivial, ⟨rfl, List.forall_mem_cons.mpr ⟨hok, hall⟩⟩, by simp⟩
        · rintro ⟨-, ⟨hlen, hall⟩, rfl⟩
          cases as with
          | nil => cases hlen
          | cons a as =>
              rw [List.forall_mem_cons] at hall
              refine ⟨a, as.flatMap enc ++ rest, (hp.reads _ _ _).mpr ⟨trivial, hall.1, by simp⟩,
                bind_eq_ok.mpr ⟨as, rest, ?_, rfl⟩⟩
              exact (ih.reads _ _ _).mpr ⟨trivial, ⟨Nat.succ.inj hlen, hall.2⟩, rfl⟩
      · rcases bind_eq_error.mp he with he | ⟨a, mid, -, he⟩
        · exact hp.raises input e he
        · rcases bind_eq_error.mp he with he | ⟨as', mid', -, he⟩
          · exact ih.raises mid e he
          · cases he

/-- A counted list in a record, of which the count is known. -/
theorem Exact.counted {p : Reader ε α} {q : List α → Reader ε β} {ok : α → Prop}
    {enc : α → List UInt8} {okQ : β → Prop} {encQ : β → List UInt8} {n : Nat} (proj : β → List α)
    (hp : Reads E p ok enc) (hn : ∀ b, C b → (proj b).length = n)
    (hq : ∀ as, as.length = n → Exact E (fun b => C b ∧ proj b = as) (q as) okQ encQ) :
    Exact E C (Codec.many p n >>= q) (fun b => (∀ a ∈ proj b, ok a) ∧ okQ b)
      fun b => (proj b).flatMap enc ++ encQ b :=
  (Exact.field proj (hp.many n) fun as has => hq as has.1).congr
    (fun b => ⟨fun h => ⟨h.1, h.2.1.2, h.2.2⟩, fun h => ⟨h.1, ⟨hn b h.1, h.2.1⟩, h.2.2⟩⟩)
    fun _ _ _ => rfl

/-! ### Encodings that delimit themselves -/

/-- Of the values `ok` holds of, the encoding at the front of some bytes tells which it is and where
it ends. -/
def Delimits (ok : α → Prop) (enc : α → List UInt8) : Prop :=
  ∀ a b rest rest', ok a → ok b → enc a ++ rest = enc b ++ rest' → a = b ∧ rest = rest'

theorem Delimits.flatMap {ok : α → Prop} {enc : α → List UInt8} (h : Delimits ok enc)
    {as bs : List α} (has : ∀ a ∈ as, ok a) (hbs : ∀ b ∈ bs, ok b) (hlen : as.length = bs.length)
    {rest rest' : List UInt8} (heq : as.flatMap enc ++ rest = bs.flatMap enc ++ rest') :
    as = bs ∧ rest = rest' := by
  induction as generalizing bs with
  | nil =>
      rw [List.eq_nil_of_length_eq_zero hlen.symm] at heq ⊢
      exact ⟨rfl, heq⟩
  | cons a as ih =>
      cases bs with
      | nil => cases hlen
      | cons b bs =>
          rw [List.forall_mem_cons] at has hbs
          rw [List.flatMap_cons, List.flatMap_cons, List.append_assoc, List.append_assoc] at heq
          obtain ⟨rfl, hnext⟩ := h a b _ _ has.1 hbs.1 heq
          obtain ⟨rfl, hrest⟩ := ih has.2 hbs.2 (Nat.succ.inj hlen) hnext
          exact ⟨rfl, hrest⟩

theorem le_delimits (k : Nat) : Delimits (fun n => n < 256 ^ k) (le k) := by
  intro m n rest rest' hm hn heq
  obtain ⟨hle, hrest⟩ := List.append_inj heq (by rw [length_le, length_le])
  refine ⟨?_, hrest⟩
  rw [← Nat.mod_eq_of_lt hm, ← Nat.mod_eq_of_lt hn, ← fromLe_le, ← fromLe_le, hle]

/-! ### Writers -/

/-- A writer: the bytes written so far, or a failure. -/
abbrev Writer := StateT (List UInt8) Option

/-- `p` writes `bs` into a buffer of `size` bytes, when `ok` holds. -/
def Writes (size : Nat) (p : Writer Unit) (ok : Prop) (bs : List UInt8) : Prop :=
  ∀ out, out.length ≤ size → ∀ out', p out = some ((), out') ↔
    ok ∧ out.length + bs.length ≤ size ∧ out' = out ++ bs

namespace Writes

variable {size : Nat} {p q : Writer Unit} {okP okQ : Prop} {bs cs : List UInt8}

theorem bind_eq_some {γ : Type} {p : Writer Unit} {q : Writer γ} {out : List UInt8}
    {x : γ × List UInt8} :
    (do p; q) out = some x ↔ ∃ mid, p out = some ((), mid) ∧ q mid = some x := by
  show (p out >>= fun y => q y.2) = some x ↔ _
  cases p out with
  | none => simp
  | some y => obtain ⟨⟨⟩, mid⟩ := y; simp

/-- Two writers, one after the other. -/
theorem seq (hp : Writes size p okP bs) (hq : Writes size q okQ cs) :
    Writes size (do p; q) (okP ∧ okQ) (bs ++ cs) := by
  intro out hout out'
  have hlen : out.length + (bs ++ cs).length = (out ++ bs).length + cs.length := by
    simp only [List.length_append, Nat.add_assoc]
  rw [bind_eq_some, hlen, ← List.append_assoc]
  constructor
  · rintro ⟨mid, h₁, h₂⟩
    obtain ⟨hp', hle, rfl⟩ := (hp out hout mid).mp h₁
    rw [← List.length_append] at hle
    obtain ⟨hq', hle', rfl⟩ := (hq _ hle out').mp h₂
    exact ⟨⟨hp', hq'⟩, hle', rfl⟩
  · rintro ⟨⟨hp', hq'⟩, hle, rfl⟩
    have hmid : (out ++ bs).length ≤ size := Nat.le_of_add_right_le hle
    refine ⟨out ++ bs, (hp out hout _).mpr ⟨hp', ?_, rfl⟩, (hq _ hmid _).mpr ⟨hq', hle, rfl⟩⟩
    rwa [← List.length_append]

theorem congr {ok : Prop} (h : Writes size p okP bs) (hok : okP ↔ ok) (hbs : bs = cs) :
    Writes size p ok cs := by
  intro out hout out'
  rw [h out hout out', hok, hbs]

/-- A loop over a list. -/
theorem forM {α : Type} {f : α → Writer Unit} {ok : α → Prop} {enc : α → List UInt8}
    (hf : ∀ a, Writes size (f a) (ok a) (enc a)) (as : List α) :
    Writes size (as.forM f) (∀ a ∈ as, ok a) (as.flatMap enc) := by
  induction as with
  | nil =>
      intro out hout out'
      show some ((), out) = some ((), out') ↔ _
      simp [hout, eq_comm]
  | cons a as ih =>
      show Writes size (do f a; as.forM f) _ _
      exact ((hf a).seq ih).congr (by rw [List.forall_mem_cons]) (by rw [List.flatMap_cons])

end Writes

end Codec
