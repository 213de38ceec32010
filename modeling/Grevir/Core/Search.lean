import Grevir.Support.Backtrack
import Mathlib.Data.List.FinRange
import Mathlib.Logic.Function.Iterate

/-!
# Core — Search

The allocation search: a candidate for each ownership unit, eligible and compatible with those of the
units before it, by backtracking over one array that it writes in place, with a budget of candidates
to look at.

The budget is a parameter with its count, so that the run without one is the same code: `budgeted`
counts in 32 bits, and `unlimited` never ends a search.

* `search_lexicographic`: what each answer means.
* `budget_cuts_cleanly`: the answer under a budget, by what the unlimited run answers.
-/

namespace Grevir.Core

/-- The count of candidates, and where it ends the search. -/
structure Budget (V : Type) where
  zero : V
  next : V → V
  reached : V → Bool

/-- `std::uint32_t budget`. -/
def budgeted (budget : BitVec 32) : Budget (BitVec 32) := ⟨0, (· + 1), (· == budget)⟩

/-- No budget. -/
def unlimited : Budget Nat := ⟨0, (· + 1), fun _ => false⟩

structure SearchResult (R : Nat) (V : Type) where
  selected : Vector Nat R
  visited : V
  success : Bool
  exhausted : Bool

variable {R C : Nat} {V : Type}

section Search

variable (eligible : Vector (Vector Bool C) R) (compatible : Nat → Nat → Bool) (budget : Budget V)

/-- The loop of `visit` over the candidates of unit `u`. -/
def tryFrom (self : SearchResult R V → Bool × SearchResult R V) (u : Fin R) :
    List (Fin C) → SearchResult R V → Bool × SearchResult R V
  | [], result => (false, result)
  | c :: cs, result =>
      if !eligible[u][c] then tryFrom self u cs result
      else if budget.reached result.visited then (false, { result with exhausted := true })
      else
        let result := { result with visited := budget.next result.visited }
        -- every `selected[earlier]` with `earlier < u`
        let allowed := (result.selected.toList.take u).all fun earlier => compatible c earlier
        if allowed then
          let below := self { result with selected := result.selected.set u c }
          if below.1 then (true, below.2)
          else if below.2.exhausted then (false, below.2)
          else tryFrom self u cs below.2
        else tryFrom self u cs result

/-- `visit`; there are `rest` units from `u` on. -/
def visit {units : Nat} (hunits : units ≤ R) :
    (rest u : Nat) → u + rest = units → SearchResult R V → Bool × SearchResult R V
  | 0, _, _, result => (true, result)
  | rest + 1, u, h, result =>
      tryFrom eligible compatible budget (visit hunits rest (u + 1) (by omega)) ⟨u, by omega⟩
        (List.finRange C) result

def search (units : Nat) : SearchResult R V :=
  let result : SearchResult R V := ⟨Vector.replicate R 0, budget.zero, false, false⟩
  if hunits : units ≤ R then
    let visited := visit eligible compatible budget hunits units 0 (Nat.zero_add units) result
    if visited.1 then { visited.2 with success := true }
    else { visited.2 with success := false, selected := Vector.replicate R 0 }
  else result

end Search

/-! ### Assignments -/

section Assignments

variable (eligible : Vector (Vector Bool C) R) (compatible : Nat → Nat → Bool)

/-- **A candidate for each unit**, eligible and compatible with those before it. -/
structure Assignment (units : Nat) (a : List (Fin C)) : Prop where
  length : a.length = units
  eligible : ∀ u (hu : u < a.length) (hR : u < R), eligible[u][a[u]] = true
  compatible : ∀ u e (hu : u < a.length) (he : e < u), compatible a[u] a[e] = true

/-- The candidates of the unit after those that have theirs. -/
def candidatesAfter (pre : List (Fin C)) : List (Fin C) :=
  if h : pre.length < R then (List.finRange C).filter fun c => eligible[pre.length][c] else []

def allowedAfter (pre : List (Fin C)) (c : Fin C) : Bool :=
  pre.all fun earlier => compatible c earlier

/-- The first assignment, and how many candidates a search for it looks at. -/
def firstAssignment (units : Nat) : Option (List (Fin C)) × Nat :=
  Backtrack.first (candidatesAfter eligible) (allowedAfter compatible) units []

variable {eligible compatible}

theorem mem_candidatesAfter {pre : List (Fin C)} {u : Nat} (hu : pre.length = u) {c : Fin C} :
    c ∈ candidatesAfter eligible pre ↔ ∃ h : u < R, eligible[u][c] = true := by
  subst hu
  unfold candidatesAfter
  split
  · next h => simp [h]
  · next h => simp [h]

theorem allowedAfter_take {a : List (Fin C)} {u : Nat} {c : Fin C} :
    allowedAfter compatible (a.take u) c = true ↔
      ∀ e (_ : e < a.length), e < u → compatible c a[e] = true := by
  simp only [allowedAfter, List.all_eq_true, List.mem_take_iff_getElem]
  constructor
  · intro h e he hu
    exact h _ ⟨e, by omega, rfl⟩
  · rintro h _ ⟨e, he, rfl⟩
    exact h e (by omega) (by omega)

theorem assignment_iff {units : Nat} (hunits : units ≤ R) (a : List (Fin C)) :
    Assignment eligible compatible units a ↔
      Backtrack.Completes (candidatesAfter eligible) (allowedAfter compatible) units [] a := by
  have hlength : ∀ {u}, u < a.length → (a.take u).length = u := by
    intro u hu
    rw [List.length_take, Nat.min_eq_left hu.le]
  rw [Backtrack.completes_iff]
  constructor
  · intro h
    refine ⟨List.nil_prefix, by simpa using h.length, fun u hu _ => ⟨?_, ?_⟩⟩
    · have hR : u < R := by have := h.length; omega
      exact (mem_candidatesAfter (hlength hu)).mpr ⟨hR, h.eligible u hu hR⟩
    · exact allowedAfter_take.mpr fun e _ he => h.compatible u e hu he
  · rintro ⟨-, hlen, hsteps⟩
    refine ⟨by simpa using hlen, fun u hu hR => ?_, fun u e hu he => ?_⟩
    · exact ((mem_candidatesAfter (hlength hu)).mp (hsteps u hu (Nat.zero_le u)).1).2
    · exact allowedAfter_take.mp (hsteps u hu (Nat.zero_le u)).2 e (by omega) he

variable (eligible)

theorem candidatesAfter_sorted (pre : List (Fin C)) :
    (candidatesAfter eligible pre).Pairwise (· < ·) := by
  unfold candidatesAfter
  split
  · exact (List.pairwise_lt_finRange C).filter _
  · exact .nil

end Assignments

/-- The array of an assignment: 0 for a unit without a candidate. -/
def padded (a : List (Fin C)) : Vector Nat R :=
  Vector.ofFn fun u => if h : u.val < a.length then a[u.val].val else 0

theorem padded_nil : (padded ([] : List (Fin C)) : Vector Nat R) = Vector.replicate R 0 := by
  ext u hu
  simp [padded]

/-! ### The run -/

section Budgets

variable (budget : Budget V)

/-- `n` candidates can be looked at from here on. -/
def Budget.Allows (v : V) (n : Nat) : Prop := ∀ k < n, budget.reached (budget.next^[k] v) = false

/-- The budget is reached after `n` candidates more, and not before. -/
def Budget.Stops (v : V) (n : Nat) : Prop :=
  budget.Allows v n ∧ budget.reached (budget.next^[n] v) = true

variable {budget} {v : V} {m n : Nat}

theorem Budget.allows_add :
    budget.Allows v (m + n) ↔ budget.Allows v m ∧ budget.Allows (budget.next^[m] v) n := by
  constructor
  · intro h
    refine ⟨fun k hk => h k (by omega), fun k hk => ?_⟩
    rw [← Function.iterate_add_apply, Nat.add_comm]
    exact h (m + k) (by omega)
  · rintro ⟨hm, hn⟩ k hk
    rcases Nat.lt_or_ge k m with hlt | hge
    · exact hm k hlt
    · have h := hn (k - m) (by omega)
      rwa [← Function.iterate_add_apply, Nat.sub_add_cancel hge] at h

theorem Budget.allows_succ :
    budget.Allows v (n + 1) ↔ budget.reached v = false ∧ budget.Allows (budget.next v) n := by
  rw [Nat.add_comm, Budget.allows_add]
  refine and_congr_left' ⟨fun h => h 0 Nat.zero_lt_one, fun h k hk => ?_⟩
  rwa [Nat.lt_one_iff.mp hk]

theorem Budget.stops_add :
    budget.Stops v (m + n) ↔ budget.Allows v m ∧ budget.Stops (budget.next^[m] v) n := by
  rw [Budget.Stops, Budget.Stops, Budget.allows_add, and_assoc, ← Function.iterate_add_apply,
    Nat.add_comm n m]

theorem Budget.stops_succ :
    budget.Stops v (n + 1) ↔ budget.reached v = false ∧ budget.Stops (budget.next v) n := by
  rw [Budget.Stops, Budget.Stops, Budget.allows_succ, and_assoc, Function.iterate_succ_apply]

end Budgets

section Run

variable (units : Nat)

/-- The array has the candidates chosen so far, and nothing past the units. -/
structure Holds (pre : List (Fin C)) (selected : Vector Nat R) : Prop where
  chosen : selected.toList.take pre.length = pre.map Fin.val
  rest : selected.toList.drop units = List.replicate (R - units) 0

variable {units} {pre : List (Fin C)} {selected : Vector Nat R}

theorem Holds.of_append {c : Fin C} (h : Holds units (pre ++ [c]) selected) :
    Holds units pre selected where
  chosen := by
    have hchosen := congrArg (List.take pre.length) h.chosen
    rw [List.take_take, List.map_append, List.take_left' (by simp)] at hchosen
    simpa using hchosen
  rest := h.rest

theorem Holds.set (h : Holds units pre selected) {u : Nat} (hu : u < R) (hpre : pre.length = u)
    (hunits : u < units) (c : Fin C) : Holds units (pre ++ [c]) (selected.set u c) where
  chosen := by
    have hlength : u < selected.toList.length := by simpa using hu
    have hsplit : (pre.map Fin.val ++ c.val :: selected.toList.drop (u + 1)) =
        (pre ++ [c]).map Fin.val ++ selected.toList.drop (u + 1) := by simp
    rw [Vector.toList_set, List.set_eq_take_append_cons_drop, if_pos hlength, ← hpre, h.chosen,
      hpre, hsplit, List.take_left' (by simp)]
  rest := by
    rw [Vector.toList_set, List.drop_set_of_lt hunits]
    exact h.rest

theorem Holds.allowed {compatible : Nat → Nat → Bool} (h : Holds units pre selected) {u : Nat}
    (hpre : pre.length = u) (c : Fin C) :
    ((selected.toList.take u).all fun earlier => compatible c earlier) =
      allowedAfter compatible pre c := by
  rw [← hpre, h.chosen, List.all_map]
  rfl

variable (units) (budget : Budget V)

/-- **A run from the candidates chosen so far**, as a search of what it finds and of how many
candidates it looks at: it ends so where the budget allows as many, and where the budget is reached
before, it ends there. -/
structure Follows (run : SearchResult R V → Bool × SearchResult R V) (pre : List (Fin C))
    (found : Option (List (Fin C)) × Nat) : Prop where
  ends : ∀ r, Holds units pre r.selected → r.exhausted = false → budget.Allows r.visited found.2 →
    (run r).1 = found.1.isSome ∧ Holds units (found.1.getD pre) (run r).2.selected ∧
      (run r).2.visited = budget.next^[found.2] r.visited ∧ (run r).2.exhausted = false
  stops : ∀ r n, Holds units pre r.selected → r.exhausted = false → n < found.2 →
    budget.Stops r.visited n →
    (run r).1 = false ∧ (run r).2.visited = budget.next^[n] r.visited ∧ (run r).2.exhausted = true

end Run

section Simulation

variable {eligible : Vector (Vector Bool C) R} {compatible : Nat → Nat → Bool} {budget : Budget V}
  {units : Nat}

/-- A candidate is counted, unless the budget is reached. -/
theorem Follows.counted {run : SearchResult R V → Bool × SearchResult R V}
    (run' : SearchResult R V → Bool × SearchResult R V) {pre : List (Fin C)}
    {found : Option (List (Fin C))} {n : Nat}
    (hrun : ∀ r, Holds units pre r.selected → run r =
      if budget.reached r.visited then (false, { r with exhausted := true })
      else run' { r with visited := budget.next r.visited })
    (h : Follows units budget run' pre (found, n)) :
    Follows units budget run pre (found, n + 1) where
  ends r hr hex hallows := by
    obtain ⟨hreached, hallows⟩ := Budget.allows_succ.mp hallows
    rw [hrun r hr, hreached]
    exact h.ends { r with visited := budget.next r.visited } hr hex hallows
  stops r m hr hex hm hstops := by
    rw [hrun r hr]
    cases m with
    | zero =>
        have hreached : budget.reached r.visited = true := hstops.2
        rw [if_pos hreached]
        exact ⟨rfl, rfl, rfl⟩
    | succ m =>
        obtain ⟨hreached, hstops⟩ := Budget.stops_succ.mp hstops
        rw [hreached]
        exact h.stops { r with visited := budget.next r.visited } m hr hex
          (Nat.lt_of_succ_lt_succ hm) hstops

/-- A candidate is taken, and where nothing follows it, what is after it is tried. -/
theorem Follows.orElse {below after : SearchResult R V → Bool × SearchResult R V}
    {pre : List (Fin C)} {c : Fin C} {u : Fin R} {tried later : Option (List (Fin C)) × Nat}
    (hpre : pre.length = u) (hunits : u < units)
    (hbelow : Follows units budget below (pre ++ [c]) tried)
    (hafter : Follows units budget after pre later) :
    Follows units budget (fun r =>
      let r' := below { r with selected := r.selected.set u c }
      if r'.1 then (true, r'.2) else if r'.2.exhausted then (false, r'.2) else after r'.2) pre
      (Backtrack.orElse tried later) := by
  have hset : ∀ r : SearchResult R V, Holds units pre r.selected →
      Holds units (pre ++ [c]) (r.selected.set u c) := fun r hr => hr.set u.isLt hpre hunits c
  obtain ⟨found, n⟩ := tried
  cases found with
  | some full =>
      refine ⟨fun r hr hex hallows => ?_, fun r m hr hex hm hstops => ?_⟩
      · obtain ⟨hfound, hholds, hvisited, hexhausted⟩ :=
          hbelow.ends { r with selected := r.selected.set u c } (hset r hr) hex hallows
        dsimp only
        rw [hfound]
        exact ⟨rfl, hholds, hvisited, hexhausted⟩
      · obtain ⟨hfound, hvisited, hexhausted⟩ :=
          hbelow.stops { r with selected := r.selected.set u c } m (hset r hr) hex hm hstops
        dsimp only
        rw [hfound, hexhausted]
        exact ⟨rfl, hvisited, hexhausted⟩
  | none =>
      -- what was written below is written again, or past what is chosen
      have hback : ∀ r : SearchResult R V, Holds units pre r.selected → r.exhausted = false →
          budget.Allows r.visited n →
          (below { r with selected := r.selected.set u c }).1 = false ∧
            Holds units pre (below { r with selected := r.selected.set u c }).2.selected ∧
            (below { r with selected := r.selected.set u c }).2.visited =
              budget.next^[n] r.visited ∧
            (below { r with selected := r.selected.set u c }).2.exhausted = false := by
        intro r hr hex hallows
        obtain ⟨hfound, hholds, hvisited, hexhausted⟩ :=
          hbelow.ends { r with selected := r.selected.set u c } (hset r hr) hex hallows
        exact ⟨hfound, Holds.of_append hholds, hvisited, hexhausted⟩
      refine ⟨fun r hr hex hallows => ?_, fun r m hr hex hm hstops => ?_⟩
      · obtain ⟨hallows, hlater⟩ := Budget.allows_add.mp hallows
        obtain ⟨hfound, hholds, hvisited, hexhausted⟩ := hback r hr hex hallows
        obtain ⟨hfound', hholds', hvisited', hexhausted'⟩ :=
          hafter.ends _ hholds hexhausted (hvisited ▸ hlater)
        rw [hvisited, ← Function.iterate_add_apply, Nat.add_comm later.2] at hvisited'
        dsimp only
        rw [hfound, hexhausted]
        exact ⟨hfound', hholds', hvisited', hexhausted'⟩
      · rcases Nat.lt_or_ge m n with hlt | hge
        · obtain ⟨hfound, hvisited, hexhausted⟩ :=
            hbelow.stops { r with selected := r.selected.set u c } m (hset r hr) hex hlt hstops
          dsimp only
          rw [hfound, hexhausted]
          exact ⟨rfl, hvisited, hexhausted⟩
        · obtain ⟨k, rfl⟩ := Nat.exists_eq_add_of_le hge
          obtain ⟨hallows, hstops⟩ := Budget.stops_add.mp hstops
          obtain ⟨hfound, hholds, hvisited, hexhausted⟩ := hback r hr hex hallows
          obtain ⟨hfound', hvisited', hexhausted'⟩ := hafter.stops _ k hholds hexhausted
            (Nat.lt_of_add_lt_add_left hm) (hvisited ▸ hstops)
          rw [hvisited, ← Function.iterate_add_apply, Nat.add_comm k] at hvisited'
          dsimp only
          rw [hfound, hexhausted]
          exact ⟨hfound', hvisited', hexhausted'⟩

theorem tryFrom_ineligible {self : SearchResult R V → Bool × SearchResult R V} {u : Fin R}
    {c : Fin C} (cs : List (Fin C)) (r : SearchResult R V) (h : ¬ eligible[u][c] = true) :
    tryFrom eligible compatible budget self u (c :: cs) r =
      tryFrom eligible compatible budget self u cs r := by
  rw [tryFrom, if_pos (by simpa using h)]

/-- The loop over the candidates, given what the runs below it do. -/
theorem tryFrom_follows {self : SearchResult R V → Bool × SearchResult R V}
    {next : List (Fin C) → Option (List (Fin C)) × Nat} {pre : List (Fin C)} {u : Fin R}
    (hpre : pre.length = u) (hunits : u < units)
    (hself : ∀ c, Follows units budget self (pre ++ [c]) (next (pre ++ [c]))) (cs : List (Fin C)) :
    Follows units budget (tryFrom eligible compatible budget self u cs) pre
      (Backtrack.firstOf (allowedAfter compatible) next pre
        (cs.filter fun c => eligible[u][c])) := by
  induction cs with
  | nil =>
      refine ⟨fun r hr hex _ => ⟨rfl, hr, rfl, hex⟩, fun r n _ _ hn => ?_⟩
      exact absurd hn (Nat.not_lt_zero n)
  | cons c cs ih =>
      by_cases heligible : eligible[u][c] = true
      swap
      · rw [List.filter_cons, if_neg heligible]
        refine ⟨fun r hr hex hallows => ?_, fun r n hr hex hn hstops => ?_⟩
        · rw [tryFrom_ineligible cs r heligible]
          exact ih.ends r hr hex hallows
        · rw [tryFrom_ineligible cs r heligible]
          exact ih.stops r n hr hex hn hstops
      rw [List.filter_cons, if_pos heligible, Backtrack.firstOf]
      refine Follows.counted (fun r =>
        if allowedAfter compatible pre c then
          let r' := self { r with selected := r.selected.set u c }
          if r'.1 then (true, r'.2) else if r'.2.exhausted then (false, r'.2)
          else tryFrom eligible compatible budget self u cs r'.2
        else tryFrom eligible compatible budget self u cs r) (fun r hr => ?_) ?_
      · rw [tryFrom, if_neg (by simpa using heligible), ← hr.allowed hpre]
      · by_cases hallowed : allowedAfter compatible pre c = true
        · simp only [if_pos hallowed]
          exact (hself c).orElse hpre hunits ih
        · simp only [if_neg hallowed, Backtrack.orElse, Nat.zero_add]
          exact ih

theorem visit_follows (hunits : units ≤ R) (rest u : Nat) (h : u + rest = units)
    {pre : List (Fin C)} (hpre : pre.length = u) :
    Follows units budget (visit eligible compatible budget hunits rest u h) pre
      (Backtrack.first (candidatesAfter eligible) (allowedAfter compatible) rest pre) := by
  induction rest generalizing u pre with
  | zero =>
      refine ⟨fun r hr hex _ => ⟨rfl, hr, rfl, hex⟩, fun r n _ _ hn => ?_⟩
      exact absurd hn (Nat.not_lt_zero n)
  | succ rest ih =>
      have hlt : u < units := by omega
      have hu : u < R := by omega
      have hcandidates : candidatesAfter eligible pre =
          (List.finRange C).filter fun c => eligible[u][c] := by
        subst hpre
        rw [candidatesAfter, dif_pos hu]
      rw [Backtrack.first, hcandidates]
      exact tryFrom_follows (u := ⟨u, hu⟩) hpre hlt
        (fun c => ih (u + 1) (by omega) (by simp [hpre])) (List.finRange C)

theorem Holds.eq_padded {a : List (Fin C)} {selected : Vector Nat R} (h : Holds units a selected)
    (ha : a.length = units) : selected = padded a := by
  ext u hu
  have hread : selected.toList[u]? = some selected[u] := by simp [hu]
  by_cases hlt : u < a.length
  · have hchosen := congrArg (fun l : List Nat => l[u]?) h.chosen
    rw [List.getElem?_take_of_lt hlt, hread, List.getElem?_map, List.getElem?_eq_getElem hlt]
      at hchosen
    simpa [padded, hlt] using hchosen
  · have hrest := congrArg (fun l : List Nat => l[u - units]?) h.rest
    have hle : units + (u - units) = u := by omega
    rw [List.getElem?_drop, hle, hread, List.getElem?_replicate, if_pos (by omega)] at hrest
    simpa [padded, hlt] using hrest

theorem holds_nil : Holds units ([] : List (Fin C)) (Vector.replicate R 0) where
  chosen := rfl
  rest := by simp

/-- Where the budget allows the whole search, the answer is what is found. -/
theorem search_ends (hunits : units ≤ R)
    (h : budget.Allows budget.zero (firstAssignment eligible compatible units).2) :
    search eligible compatible budget units =
      ⟨padded ((firstAssignment eligible compatible units).1.getD []),
        budget.next^[(firstAssignment eligible compatible units).2] budget.zero,
        (firstAssignment eligible compatible units).1.isSome, false⟩ := by
  obtain ⟨hfound, hholds, hvisited, hexhausted⟩ :=
    (visit_follows hunits units 0 (Nat.zero_add units) rfl).ends
      ⟨Vector.replicate R 0, budget.zero, false, false⟩ holds_nil rfl h
  rw [search, dif_pos hunits]
  generalize visit eligible compatible budget hunits units 0 _ _ = v at *
  obtain ⟨found, selected, visited, success, exhausted⟩ := v
  cases hfound
  cases hvisited
  cases hexhausted
  cases hfirst : (firstAssignment eligible compatible units).1 with
  | none =>
      rw [firstAssignment] at hfirst
      simp only [hfirst, Option.isSome_none, Option.getD_none, padded_nil]
      rfl
  | some a =>
      have ha : a.length = units :=
        ((assignment_iff hunits a).mpr (Backtrack.first_some hfirst)).length
      rw [firstAssignment] at hfirst
      rw [hfirst] at hholds
      have hselected : selected = padded a := Holds.eq_padded hholds ha
      simp only [hfirst, Option.isSome_some, Option.getD_some, hselected, if_true]
      rfl

/-- Where the budget is reached before, there is no answer. -/
theorem search_stops (hunits : units ≤ R) {n : Nat}
    (hn : n < (firstAssignment eligible compatible units).2)
    (h : budget.Stops budget.zero n) :
    search eligible compatible budget units =
      ⟨Vector.replicate R 0, budget.next^[n] budget.zero, false, true⟩ := by
  obtain ⟨hfound, hvisited, hexhausted⟩ :=
    (visit_follows hunits units 0 (Nat.zero_add units) rfl).stops
      ⟨Vector.replicate R 0, budget.zero, false, false⟩ n holds_nil rfl hn h
  rw [search, dif_pos hunits]
  dsimp only
  rw [hfound, hvisited, hexhausted]
  rfl

end Simulation

/-! ### Answers -/

section Answers

theorem iterate_next (b : BitVec 32) (n : Nat) :
    (budgeted b).next^[n] (budgeted b).zero = BitVec.ofNat 32 n := by
  induction n with
  | zero => rfl
  | succ n ih =>
      rw [Function.iterate_succ_apply', ih]
      exact (BitVec.ofNat_add n 1).symm

/-- The count stays below the budget, so it does not wrap. -/
theorem budgeted_allows (b : BitVec 32) {n : Nat} (h : n ≤ b.toNat) :
    (budgeted b).Allows (budgeted b).zero n := by
  intro k hk
  rw [iterate_next]
  have hb : b.toNat < 2 ^ 32 := b.isLt
  refine beq_false_of_ne fun heq => ?_
  have hcount := congrArg BitVec.toNat heq
  rw [BitVec.toNat_ofNat, Nat.mod_eq_of_lt (by omega)] at hcount
  omega

theorem budgeted_stops (b : BitVec 32) : (budgeted b).Stops (budgeted b).zero b.toNat := by
  refine ⟨budgeted_allows b (Nat.le_refl _), ?_⟩
  rw [iterate_next, BitVec.ofNat_toNat, BitVec.setWidth_eq]
  exact beq_self_eq_true b

theorem unlimited_iterate (n : Nat) : unlimited.next^[n] unlimited.zero = n := by
  induction n with
  | zero => rfl
  | succ n ih => rw [Function.iterate_succ_apply', ih]; rfl

variable (eligible : Vector (Vector Bool C) R) (compatible : Nat → Nat → Bool) {units : Nat}
  (hunits : units ≤ R)
include hunits

/-- The run without a budget. -/
theorem search_unlimited :
    search eligible compatible unlimited units =
      ⟨padded ((firstAssignment eligible compatible units).1.getD []),
        (firstAssignment eligible compatible units).2,
        (firstAssignment eligible compatible units).1.isSome, false⟩ := by
  have h := @search_ends R C Nat eligible compatible unlimited units hunits fun _ _ => rfl
  rwa [unlimited_iterate] at h

/-- The run under a budget that suffices. -/
theorem search_budgeted (b : BitVec 32)
    (h : (firstAssignment eligible compatible units).2 ≤ b.toNat) :
    search eligible compatible (budgeted b) units =
      ⟨padded ((firstAssignment eligible compatible units).1.getD []),
        BitVec.ofNat 32 (firstAssignment eligible compatible units).2,
        (firstAssignment eligible compatible units).1.isSome, false⟩ := by
  rw [search_ends hunits (budgeted_allows b h), iterate_next]

/-- The run under a budget that does not. -/
theorem search_exhausted (b : BitVec 32)
    (h : b.toNat < (firstAssignment eligible compatible units).2) :
    search eligible compatible (budgeted b) units = ⟨Vector.replicate R 0, b, false, true⟩ := by
  rw [search_stops hunits h (budgeted_stops b), iterate_next, BitVec.ofNat_toNat,
    BitVec.setWidth_eq]

/-- **What each answer means**: the first assignment in lexicographic order, that there is none, or
nothing but that the budget is spent. -/
theorem search_lexicographic (budget : BitVec 32) :
    let r : SearchResult R (BitVec 32) := search eligible compatible (budgeted budget) units
    (r.success = true → ∃ a, Assignment eligible compatible units a ∧ r.selected = padded a ∧
      ∀ b, Assignment eligible compatible units b → a ≤ b) ∧
    (r.success = false → r.exhausted = false → ∀ a, ¬ Assignment eligible compatible units a) ∧
    (r.success = false → r.selected = Vector.replicate R 0) := by
  intro r
  rcases Nat.lt_or_ge budget.toNat (firstAssignment eligible compatible units).2 with hlt | hge
  · have hr : r = ⟨Vector.replicate R 0, budget, false, true⟩ :=
      search_exhausted eligible compatible hunits budget hlt
    rw [hr]
    exact ⟨nofun, nofun, fun _ => rfl⟩
  · have hr := search_budgeted eligible compatible hunits budget hge
    cases hfirst : (firstAssignment eligible compatible units).1 with
    | none =>
        rw [hfirst] at hr
        rw [show r = _ from hr]
        refine ⟨nofun, fun _ _ a ha => ?_, fun _ => padded_nil⟩
        exact Backtrack.first_none hfirst a ((assignment_iff hunits a).mp ha)
    | some a =>
        rw [hfirst] at hr
        rw [show r = _ from hr]
        refine ⟨fun _ => ⟨a, ?_, rfl, fun b hb => ?_⟩, nofun, nofun⟩
        · exact (assignment_iff hunits a).mpr (Backtrack.first_some hfirst)
        · exact Backtrack.first_le (candidatesAfter_sorted eligible) hfirst
            ((assignment_iff hunits b).mp hb)

omit hunits in
/-- Two timers that fit either unit, but not the same one. -/
theorem search_lexicographic_pair :
    let eligible : Vector (Vector Bool 2) 2 := #v[#v[true, true], #v[true, true]]
    let r := search eligible (· != ·) (budgeted 3) 2
    r.selected = #v[0, 1] ∧ ∃ a, Assignment eligible (· != ·) 2 a ∧ r.selected = padded a ∧
      ∀ b, Assignment eligible (· != ·) 2 b → a ≤ b :=
  ⟨rfl, (search_lexicographic #v[#v[true, true], #v[true, true]] (· != ·) (le_refl 2) 3).1 rfl⟩

/-- **A budget cuts the search off, or does not touch it.** -/
theorem budget_cuts_cleanly :
    let whole : SearchResult R Nat := search eligible compatible unlimited units
    let under (b : BitVec 32) := search eligible compatible (budgeted b) units
    (∀ b, whole.visited ≤ b.toNat →
      under b = ⟨whole.selected, BitVec.ofNat 32 whole.visited, whole.success, false⟩) ∧
    (∀ b, b.toNat < whole.visited → under b = ⟨Vector.replicate R 0, b, false, true⟩) ∧
    (∀ b, (under b).visited.toNat = min whole.visited b.toNat) ∧
    (∀ b, ¬ ((under b).success = true ∧ (under b).exhausted = true)) ∧
    ∀ b b', b ≤ b' → (under b).success = true →
      (under b').success = true ∧ (under b').selected = (under b).selected := by
  intro whole under
  have hwhole : whole = _ := search_unlimited eligible compatible hunits
  have hends : ∀ b, whole.visited ≤ b.toNat →
      under b = ⟨whole.selected, BitVec.ofNat 32 whole.visited, whole.success, false⟩ := by
    intro b hb
    rw [hwhole] at hb ⊢
    exact search_budgeted eligible compatible hunits b hb
  have hstops : ∀ b, b.toNat < whole.visited →
      under b = ⟨Vector.replicate R 0, b, false, true⟩ := by
    intro b hb
    rw [hwhole] at hb
    exact search_exhausted eligible compatible hunits b hb
  refine ⟨hends, hstops, fun b => ?_, fun b => ?_, fun b b' hle hsuccess => ?_⟩
  · rcases Nat.lt_or_ge b.toNat whole.visited with hlt | hge
    · rw [hstops b hlt, Nat.min_eq_right hlt.le]
    · have hb : b.toNat < 2 ^ 32 := b.isLt
      rw [hends b hge, Nat.min_eq_left hge]
      exact Nat.mod_eq_of_lt (by omega)
  · rcases Nat.lt_or_ge b.toNat whole.visited with hlt | hge
    · rw [hstops b hlt]
      exact fun h => nomatch h.1
    · rw [hends b hge]
      exact fun h => nomatch h.2
  · have hge : whole.visited ≤ b.toNat := by
      by_contra hlt
      rw [hstops b (Nat.lt_of_not_le hlt)] at hsuccess
      cases hsuccess
    rw [hends b hge] at hsuccess ⊢
    rw [hends b' (hge.trans (BitVec.le_def.mp hle))]
    exact ⟨hsuccess, rfl⟩

omit hunits in
/-- The same under a budget of one candidate less. -/
theorem budget_cuts_cleanly_pair :
    search (#v[#v[true, true], #v[true, true]] : Vector (Vector Bool 2) 2) (· != ·) (budgeted 2) 2 =
      ⟨Vector.replicate 2 0, 2, false, true⟩ :=
  (budget_cuts_cleanly #v[#v[true, true], #v[true, true]] (· != ·) (le_refl 2)).2.1 2 (by decide)

end Answers

end Grevir.Core
