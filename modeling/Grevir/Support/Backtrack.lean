import Mathlib.Data.List.Lex
import Mathlib.Order.Lattice
import Mathlib.Tactic.Common

/-!
# Support — Backtrack

Depth-first search for a sequence: at each place the candidates one after another, those allowed
after what is chosen so far with all that can follow, and back where nothing can.  `first` answers
with the first sequence found and with the number of candidates it looked at.

* `Completes`: what is searched for.
* `first_some`, `first_none`: the answer is one, or there is none.
* `first_le`: over candidates in increasing order no other comes before it.
-/

namespace Backtrack

variable {α : Type*} (candidates : List α → List α) (allowed : List α → α → Bool)

/-- `full` is `pre` and `rest` choices more. -/
inductive Completes : Nat → List α → List α → Prop
  | done {pre : List α} : Completes 0 pre pre
  | step {rest : Nat} {pre full : List α} {c : α} (hc : c ∈ candidates pre)
      (hallowed : allowed pre c = true) (h : Completes rest (pre ++ [c]) full) :
      Completes (rest + 1) pre full

/-- What is found first, and else what is found after it. -/
def orElse (tried later : Option (List α) × Nat) : Option (List α) × Nat :=
  match tried.1 with
  | some full => (some full, tried.2)
  | none => (later.1, tried.2 + later.2)

/-- The first of some choices that can be completed. -/
def firstOf (next : List α → Option (List α) × Nat) (pre : List α) :
    List α → Option (List α) × Nat
  | [] => (none, 0)
  | c :: cs =>
      let found := orElse (if allowed pre c then next (pre ++ [c]) else (none, 0))
        (firstOf next pre cs)
      (found.1, found.2 + 1)

/-- The first completion of `pre`, and how many candidates were looked at. -/
def first : Nat → List α → Option (List α) × Nat
  | 0, pre => (some pre, 0)
  | rest + 1, pre => firstOf allowed (first rest) pre (candidates pre)

variable {candidates allowed}

/-! ### Completions -/

theorem Completes.append {rest : Nat} {pre full : List α}
    (h : Completes candidates allowed rest pre full) :
    ∃ suffix, full = pre ++ suffix ∧ suffix.length = rest := by
  induction h with
  | done => exact ⟨[], by simp, rfl⟩
  | @step rest pre full c _ _ _ ih =>
      obtain ⟨suffix, rfl, hlength⟩ := ih
      exact ⟨c :: suffix, by simp, by simp [hlength]⟩

theorem completes_succ {rest : Nat} {pre full : List α} :
    Completes candidates allowed (rest + 1) pre full ↔
      ∃ c ∈ candidates pre, allowed pre c = true ∧
        Completes candidates allowed rest (pre ++ [c]) full := by
  constructor
  · intro h
    cases h with
    | step hc hallowed h => exact ⟨_, hc, hallowed, h⟩
  · rintro ⟨c, hc, hallowed, h⟩
    exact .step hc hallowed h

/-- **A completion has the prefix, and each choice after it is a candidate that is allowed.** -/
theorem completes_iff {rest : Nat} {pre full : List α} :
    Completes candidates allowed rest pre full ↔
      pre <+: full ∧ full.length = pre.length + rest ∧
        ∀ u (h : u < full.length), pre.length ≤ u →
          full[u] ∈ candidates (full.take u) ∧ allowed (full.take u) full[u] = true := by
  induction rest generalizing pre with
  | zero =>
      constructor
      · intro h
        cases h
        exact ⟨List.prefix_refl _, rfl, fun u hu hle => absurd hu (Nat.not_lt.mpr hle)⟩
      · rintro ⟨hextends, hlength, -⟩
        obtain rfl := hextends.eq_of_length hlength.symm
        exact .done
  | succ rest ih =>
      rw [completes_succ]
      constructor
      · rintro ⟨c, hc, hallowed, h⟩
        obtain ⟨hextends, hlength, hsteps⟩ := ih.mp h
        refine ⟨(List.prefix_append pre [c]).trans hextends, by simp at hlength; omega, ?_⟩
        intro u hu hle
        rcases Nat.eq_or_lt_of_le hle with rfl | hlt
        · obtain ⟨suffix, rfl⟩ := hextends
          simpa using ⟨hc, hallowed⟩
        · exact hsteps u hu (by simpa using Nat.succ_le_of_lt hlt)
      · rintro ⟨⟨suffix, rfl⟩, hlength, hsteps⟩
        cases suffix with
        | nil => simp at hlength
        | cons c suffix =>
            have hchoice := hsteps pre.length (by simp) (Nat.le_refl _)
            have hc : ∀ h : pre.length < (pre ++ c :: suffix).length,
                (pre ++ c :: suffix)[pre.length] = c := by simp
            rw [hc, List.take_left] at hchoice
            refine ⟨c, hchoice.1, hchoice.2, ih.mpr ⟨⟨suffix, by simp⟩, ?_, fun u hu hle => ?_⟩⟩
            · simp at hlength ⊢
              omega
            · exact hsteps u hu (by simp at hle; omega)

/-! ### What the search finds -/

/-- A choice that cannot be completed is passed over, and any other is taken. -/
theorem firstOf_cons (next : List α → Option (List α) × Nat) (pre : List α) (c : α)
    (cs : List α) :
    (firstOf allowed next pre (c :: cs)).1 =
      ((if allowed pre c then next (pre ++ [c]) else (none, 0)).1 <|>
        (firstOf allowed next pre cs).1) := by
  rw [firstOf, orElse]
  cases (if allowed pre c then next (pre ++ [c]) else (none, 0)).1 <;> rfl

/-- The first of the choices is some choice's, and nothing comes of those before it. -/
theorem firstOf_some {next : List α → Option (List α) × Nat} {pre full : List α} {cs : List α}
    (h : (firstOf allowed next pre cs).1 = some full) :
    ∃ before c after, cs = before ++ c :: after ∧ allowed pre c = true ∧
      (next (pre ++ [c])).1 = some full ∧
      ∀ d ∈ before, allowed pre d = true → (next (pre ++ [d])).1 = none := by
  induction cs with
  | nil => cases h
  | cons c cs ih =>
      rw [firstOf_cons] at h
      by_cases hallowed : allowed pre c = true
      · rw [if_pos hallowed] at h
        cases hnext : (next (pre ++ [c])).1 with
        | some full' =>
            rw [hnext] at h
            cases h
            exact ⟨[], c, cs, rfl, hallowed, hnext, nofun⟩
        | none =>
            rw [hnext] at h
            obtain ⟨before, d, after, rfl, hd, hfull, hbefore⟩ := ih h
            exact ⟨c :: before, d, after, rfl, hd, hfull,
              List.forall_mem_cons.mpr ⟨fun _ => hnext, hbefore⟩⟩
      · rw [if_neg hallowed] at h
        obtain ⟨before, d, after, rfl, hd, hfull, hbefore⟩ := ih h
        exact ⟨c :: before, d, after, rfl, hd, hfull,
          List.forall_mem_cons.mpr ⟨fun h => absurd h hallowed, hbefore⟩⟩

theorem firstOf_none {next : List α → Option (List α) × Nat} {pre : List α} {cs : List α}
    (h : (firstOf allowed next pre cs).1 = none) :
    ∀ c ∈ cs, allowed pre c = true → (next (pre ++ [c])).1 = none := by
  induction cs with
  | nil => nofun
  | cons c cs ih =>
      rw [firstOf_cons] at h
      by_cases hallowed : allowed pre c = true
      · rw [if_pos hallowed] at h
        cases hnext : (next (pre ++ [c])).1 with
        | some full => simp [hnext] at h
        | none =>
            rw [hnext] at h
            exact List.forall_mem_cons.mpr ⟨fun _ => hnext, ih h⟩
      · rw [if_neg hallowed] at h
        exact List.forall_mem_cons.mpr ⟨fun h => absurd h hallowed, ih h⟩

/-- **Where nothing is found there is no completion.** -/
theorem first_none {rest : Nat} {pre : List α} (h : (first candidates allowed rest pre).1 = none)
    (full : List α) : ¬ Completes candidates allowed rest pre full := by
  induction rest generalizing pre full with
  | zero => cases h
  | succ rest ih =>
      rw [completes_succ]
      rintro ⟨c, hc, hallowed, hfull⟩
      exact ih (firstOf_none h c hc hallowed) full hfull

/-- **What is found is a completion.** -/
theorem first_some {rest : Nat} {pre full : List α}
    (h : (first candidates allowed rest pre).1 = some full) :
    Completes candidates allowed rest pre full := by
  induction rest generalizing pre full with
  | zero =>
      cases h
      exact .done
  | succ rest ih =>
      obtain ⟨before, c, after, heq, hallowed, hfull, -⟩ := firstOf_some h
      exact .step (heq ▸ by simp) hallowed (ih hfull)

/-- **Over candidates in increasing order nothing comes before what is found.** -/
theorem first_le [LinearOrder α] (hsorted : ∀ pre, (candidates pre).Pairwise (· < ·))
    {rest : Nat} {pre full other : List α}
    (h : (first candidates allowed rest pre).1 = some full)
    (hother : Completes candidates allowed rest pre other) : full ≤ other := by
  induction rest generalizing pre full other with
  | zero =>
      cases h
      cases hother
      exact le_refl _
  | succ rest ih =>
      obtain ⟨before, c, after, heq, hallowed, hfull, hbefore⟩ := firstOf_some h
      obtain ⟨d, hd, hallowed', hother⟩ := completes_succ.mp hother
      rw [heq, List.mem_append, List.mem_cons] at hd
      rcases hd with hd | rfl | hd
      · exact absurd hother (first_none (hbefore d hd hallowed') other)
      · exact ih hfull hother
      · have hlt : c < d := by
          have hpair := hsorted pre
          rw [heq, List.pairwise_append, List.pairwise_cons] at hpair
          exact hpair.2.1.1 d hd
        obtain ⟨suffix, rfl, -⟩ := (first_some hfull).append
        obtain ⟨suffix', rfl, -⟩ := hother.append
        rw [List.append_assoc, List.append_assoc]
        have hlex : pre ++ ([c] ++ suffix) < pre ++ ([d] ++ suffix') :=
          List.Lex.append_left _ (.rel hlt) pre
        exact le_of_lt hlex

end Backtrack
