import Grevir.Interrupt.Binding

/-!
# Interrupt — Inventory

The board's inventory: a problem with a request for each event of the catalog and the candidates that
were enumerated for the requests.  `validate_inventory` compares a selected plan with it, `validate`
the same plan with the demands, and each looks at the bindings one by one.

* `validateInventory_iff`: what `validate_inventory` accepts.
* `accepted_plan_selects`: a plan that both accept assigns each demand a candidate of its own.
-/

namespace Grevir.Interrupt

structure EventRequest where
  event : EventIdentity Text
  pwmRequired : Bool

/-- What a request could be bound to. -/
structure Candidate where
  request : EventIdentity Text
  owner : Text
  configuration : Text
  source : Text
  selector : Text
  entry : Text
  snapshotPolicy : Text
  acknowledgePolicy : Text
  reserved : Bool
  periodEvent : Bool
  pwm : Bool

/-- An allocation problem. -/
structure Problem where
  requests : List EventRequest
  candidates : List Candidate

section

variable (requests : List EventRequest)

/-- The loop that counts the requests of a key. -/
def countMatches (key : EventIdentity Text) : Nat :=
  requests.foldl (fun count r => if r.event = key then count + 1 else count) 0

/-- The loop that looks for the request of a binding; the last one counts. -/
def pwmRequired (event : EventIdentity Text) : Bool :=
  requests.foldl (fun required r => if r.event = event then r.pwmRequired else required) false

end

/-- The candidate is one the binding may have been made of. -/
def Candidate.offers (pwmRequired : Bool) (binding : BindingRecord Text) (c : Candidate) : Bool :=
  c.request = binding.event && !c.reserved && c.periodEvent && (!pwmRequired || c.pwm)
    && c.owner = binding.owner && c.configuration = binding.configuration
    && c.source = binding.source && c.selector = binding.selector && c.entry = binding.entry
    && c.snapshotPolicy = binding.snapshotPolicy
    && c.acknowledgePolicy = binding.acknowledgePolicy

/-- `validate_inventory`. -/
def validateInventory {m : Nat} (catalog : List (EventIdentity Text)) (problem : Problem)
    (plan : SelectedPlan m) : Bool :=
  if problem.requests.length ≠ catalog.length then false
  else if catalog.any fun key => countMatches problem.requests key ≠ 1 then false
  else if problem.candidates.any fun c => c.owner ≠ c.request.instance' then false
  else if plan.count > m then false
  else plan.held.all fun binding =>
    problem.candidates.any (Candidate.offers (pwmRequired problem.requests binding.event) binding)

/-! ### What is accepted -/

/-- **All of a binding comes from the candidate**, which is unreserved and can signal a period. -/
structure Candidate.Backs (c : Candidate) (binding : BindingRecord Text) : Prop where
  request : c.request = binding.event
  unreserved : c.reserved = false
  periodEvent : c.periodEvent = true
  owner : c.owner = binding.owner
  configuration : c.configuration = binding.configuration
  source : c.source = binding.source
  selector : c.selector = binding.selector
  entry : c.entry = binding.entry
  snapshotPolicy : c.snapshotPolicy = binding.snapshotPolicy
  acknowledgePolicy : c.acknowledgePolicy = binding.acknowledgePolicy

theorem Candidate.offers_iff {required : Bool} {binding : BindingRecord Text} {c : Candidate} :
    c.offers required binding = true ↔ c.Backs binding ∧ (required = true → c.pwm = true) := by
  have hpwm : (!required || c.pwm) = true ↔ (required = true → c.pwm = true) := by
    cases required <;> simp
  simp only [offers, Bool.and_eq_true, decide_eq_true_eq, hpwm, Bool.not_eq_true']
  constructor
  · rintro ⟨⟨⟨⟨⟨⟨⟨⟨⟨⟨h₁, h₂⟩, h₃⟩, h₄⟩, h₅⟩, h₆⟩, h₇⟩, h₈⟩, h₉⟩, h₁₀⟩, h₁₁⟩
    exact ⟨⟨h₁, h₂, h₃, h₅, h₆, h₇, h₈, h₉, h₁₀, h₁₁⟩, h₄⟩
  · rintro ⟨⟨h₁, h₂, h₃, h₅, h₆, h₇, h₈, h₉, h₁₀, h₁₁⟩, h₄⟩
    exact ⟨⟨⟨⟨⟨⟨⟨⟨⟨⟨h₁, h₂⟩, h₃⟩, h₄⟩, h₅⟩, h₆⟩, h₇⟩, h₈⟩, h₉⟩, h₁₀⟩, h₁₁⟩

/-- The requests of a key. -/
def requestsOf (requests : List EventRequest) (key : EventIdentity Text) : List EventRequest :=
  requests.filter fun r => r.event = key

theorem countMatches_eq (requests : List EventRequest) (key : EventIdentity Text) :
    countMatches requests key = (requestsOf requests key).length := by
  have hlength : ∀ (rs : List EventRequest) (count : Nat),
      rs.foldl (fun count _ => count + 1) count = count + rs.length := by
    intro rs
    induction rs with
    | nil => exact fun _ => rfl
    | cons r rs ih =>
        intro count
        rw [List.foldl_cons, ih, List.length_cons, Nat.add_assoc, Nat.add_comm 1]
  have hfilter : countMatches requests key =
      (requestsOf requests key).foldl (fun count _ => count + 1) 0 := by
    rw [requestsOf, List.foldl_filter, countMatches]
    simp only [decide_eq_true_eq]
  rw [hfilter, hlength, Nat.zero_add]

/-- What a binding's only request requires. -/
theorem pwmRequired_eq {requests : List EventRequest} {key : EventIdentity Text} {r : EventRequest}
    (h : requestsOf requests key = [r]) : pwmRequired requests key = r.pwmRequired := by
  have hfilter : pwmRequired requests key =
      (requestsOf requests key).foldl (fun _ r => r.pwmRequired) false := by
    rw [requestsOf, List.foldl_filter, pwmRequired]
    simp only [decide_eq_true_eq]
  rw [hfilter, h, List.foldl_cons, List.foldl_nil]

/-- **What `validate_inventory` accepts.** -/
theorem validateInventory_iff {m : Nat} {catalog : List (EventIdentity Text)} {problem : Problem}
    {plan : SelectedPlan m} :
    validateInventory catalog problem plan = true ↔
      problem.requests.length = catalog.length ∧
        (∀ key ∈ catalog, ∃ r, requestsOf problem.requests key = [r]) ∧
        (∀ c ∈ problem.candidates, c.owner = c.request.instance') ∧ plan.count ≤ m ∧
        ∀ b ∈ plan.held, ∃ c ∈ problem.candidates, c.Backs b ∧
          (pwmRequired problem.requests b.event = true → c.pwm = true) := by
  have hmatches : (catalog.any fun key => countMatches problem.requests key ≠ 1) = true ↔
      ¬ ∀ key ∈ catalog, ∃ r, requestsOf problem.requests key = [r] := by
    simp only [List.any_eq_true, decide_eq_true_eq, countMatches_eq, ne_eq, List.length_eq_one_iff]
    push Not
    rfl
  have howners : (problem.candidates.any fun c => c.owner ≠ c.request.instance') = true ↔
      ¬ ∀ c ∈ problem.candidates, c.owner = c.request.instance' := by
    simp only [List.any_eq_true, decide_eq_true_eq]
    push Not
    rfl
  rw [validateInventory]
  by_cases h₁ : problem.requests.length = catalog.length
  · rw [if_neg (not_not.mpr h₁), and_iff_right h₁]
    by_cases h₂ : ∀ key ∈ catalog, ∃ r, requestsOf problem.requests key = [r]
    · rw [if_neg (mt hmatches.mp (not_not.mpr h₂)), and_iff_right h₂]
      by_cases h₃ : ∀ c ∈ problem.candidates, c.owner = c.request.instance'
      · rw [if_neg (mt howners.mp (not_not.mpr h₃)), and_iff_right h₃]
        by_cases h₄ : plan.count ≤ m
        · rw [if_neg (Nat.not_lt.mpr h₄), and_iff_right h₄]
          simp only [List.all_eq_true, List.any_eq_true, Candidate.offers_iff]
        · rw [if_pos (Nat.lt_of_not_le h₄)]
          exact iff_of_false (fun h => by cases h) fun h => h₄ h.1
      · rw [if_pos (howners.mpr h₃)]
        exact iff_of_false (fun h => by cases h) fun h => h₃ h.1
    · rw [if_pos (hmatches.mpr h₂)]
      exact iff_of_false (fun h => by cases h) fun h => h₂ h.1
  · rw [if_pos h₁]
    exact iff_of_false (fun h => by cases h) fun h => h₁ h.1

/-! ### A plan that is accepted -/

section Accepted

variable {n m : Nat} {catalog : List (EventIdentity Text)} {problem : Problem}
  {demands : DemandSummary n} {plan : SelectedPlan m}

/-- One request for each key of the catalog, and no more. -/
theorem requests_perm (hcatalog : catalog.Nodup) (hlength : problem.requests.length = catalog.length)
    (hone : ∀ key ∈ catalog, ∃ r, requestsOf problem.requests key = [r]) :
    (problem.requests.map (·.event)).Perm catalog := by
  have hsubset : catalog ⊆ problem.requests.map (·.event) := by
    intro key hkey
    obtain ⟨r, hr⟩ := hone key hkey
    have hmem : r ∈ requestsOf problem.requests key := hr ▸ List.mem_singleton_self r
    obtain ⟨hr, hevent⟩ := List.mem_filter.mp hmem
    exact List.mem_map.mpr ⟨r, hr, of_decide_eq_true hevent⟩
  refine ((hcatalog.subperm hsubset).perm_of_length_le ?_).symm
  rw [List.length_map, hlength]

/-- **The bindings are for the demands, in their order.** -/
theorem events_eq (hdemands : (demands.demands.map (·.event)).Pairwise (· < ·))
    (h : validate catalog demands plan = .none) :
    plan.held.map (·.event) = demands.demands.map (·.event) := by
  obtain ⟨-, -, haccepted, hsorted, -, hall⟩ := validate_eq_none.mp h
  refine List.Perm.eq_of_pairwise (fun a b _ _ hab hba => absurd hba hab.asymm) hsorted hdemands ?_
  refine (List.perm_ext_iff_of_nodup (hsorted.imp fun hab => hab.ne)
    (hdemands.imp fun hab => hab.ne)).mpr fun event => ?_
  constructor
  · intro he
    obtain ⟨b, hb, rfl⟩ := List.mem_map.mp he
    exact (haccepted b hb).demanded
  · intro he
    obtain ⟨d, hd, rfl⟩ := List.mem_map.mp he
    exact hall d hd

/-- The candidate a binding was made of: it backs the binding, whose owner is that of its event, and
does what the only request of the event requires. -/
structure Selects (problem : Problem) (b : BindingRecord Text) (c : Candidate) : Prop where
  backs : c.Backs b
  owner : b.owner = b.event.instance'
  pwm : ∃ r, requestsOf problem.requests b.event = [r] ∧ (r.pwmRequired = true → c.pwm = true)

theorem exists_selects (hinventory : validateInventory catalog problem plan = true)
    (h : validate catalog demands plan = .none) {b : BindingRecord Text} (hb : b ∈ plan.held) :
    ∃ c ∈ problem.candidates, Selects problem b c := by
  obtain ⟨-, hone, howners, -, hoffered⟩ := validateInventory_iff.mp hinventory
  obtain ⟨-, -, haccepted, -⟩ := validate_eq_none.mp h
  obtain ⟨c, hc, hbacks, hpwm⟩ := hoffered b hb
  obtain ⟨r, hr⟩ := hone b.event (haccepted b hb).known
  refine ⟨c, hc, hbacks, ?_, r, hr, pwmRequired_eq hr ▸ hpwm⟩
  rw [← hbacks.owner, howners c hc, hbacks.request]

omit demands in
/-- A candidate is used once: it would give two bindings one source. -/
theorem Candidate.Backs.unique (hexclusive : Exclusive plan.held) {c : Candidate}
    {i j : Fin plan.held.length} (hi : c.Backs (plan.held.get i)) (hj : c.Backs (plan.held.get j)) :
    i = j := by
  have hbinding := List.inj_on_of_nodup_map hexclusive.sources (List.get_mem plan.held i)
    (List.get_mem plan.held j) (hi.source.symm.trans hj.source)
  exact List.nodup_iff_injective_get.mp (.of_map _ hexclusive.sources) hbinding

end Accepted

/-- **A plan that both checks accept is an injective selection from the inventory.** -/
theorem accepted_plan_selects {n m : Nat} {catalog : List (EventIdentity Text)} {problem : Problem}
    {demands : DemandSummary n} {plan : SelectedPlan m} (hcatalog : catalog.Nodup)
    (hdemands : (demands.demands.map (·.event)).Pairwise (· < ·))
    (hinventory : validateInventory catalog problem plan = true)
    (hplan : validate catalog demands plan = .none) :
    (problem.requests.map (·.event)).Perm catalog ∧
      plan.held.map (·.event) = demands.demands.map (·.event) ∧ Exclusive plan.held ∧
      (∀ i j (c : Candidate), c.Backs (plan.held.get i) → c.Backs (plan.held.get j) → i = j) ∧
      ∃ select : Fin plan.held.length → Fin problem.candidates.length, Function.Injective select ∧
        ∀ i, Selects problem (plan.held.get i) (problem.candidates.get (select i)) := by
  obtain ⟨hlength, hone, -⟩ := validateInventory_iff.mp hinventory
  obtain ⟨-, -, -, -, hexclusive, -⟩ := validate_eq_none.mp hplan
  refine ⟨requests_perm hcatalog hlength hone, events_eq hdemands hplan, hexclusive,
    fun i j c hi hj => hi.unique hexclusive hj, ?_⟩
  have hselect : ∀ i : Fin plan.held.length, ∃ j : Fin problem.candidates.length,
      Selects problem (plan.held.get i) (problem.candidates.get j) := by
    intro i
    obtain ⟨c, hc, hs⟩ := exists_selects hinventory hplan (List.get_mem plan.held i)
    obtain ⟨j, rfl⟩ := List.get_of_mem hc
    exact ⟨j, hs⟩
  choose select hs using hselect
  refine ⟨select, fun i j hij => ?_, hs⟩
  exact (hs i).backs.unique hexclusive (hij ▸ (hs j).backs)

def pulseEvent : EventIdentity Text := ⟨literal "timer", literal "pulse", literal "period"⟩

def tickEvent : EventIdentity Text := ⟨literal "timer", literal "tick", literal "period"⟩

def pulseDemands : DemandSummary 2 :=
  ⟨#v[pulseEvent, tickEvent], 2, .replicate 2 (literal "event"), .replicate 2 (literal "main_loop"),
    .replicate 2 (literal "elide"), Nat.le_refl 2⟩

/-- Either event can have the first source, which has no PWM; the pulse needs one. -/
def pulseProblem : Problem where
  requests := [⟨tickEvent, false⟩, ⟨pulseEvent, true⟩]
  candidates := [⟨pulseEvent, literal "timer", literal "plain", literal "timer0_ovf",
    literal "overflow", literal "timer0_entry", literal "status", literal "clear", false, true,
    false⟩, ⟨tickEvent, literal "timer", literal "plain", literal "timer0_ovf",
    literal "overflow", literal "timer0_entry", literal "status", literal "clear", false, true,
    false⟩, ⟨pulseEvent, literal "timer", literal "pwm", literal "timer1_ovf", literal "overflow",
    literal "timer1_entry", literal "status", literal "clear", false, true, true⟩]

def pulsePlan : SelectedPlan 2 :=
  ⟨#v[⟨pulseEvent, literal "timer", literal "pwm", literal "timer1_ovf", literal "overflow",
    literal "timer1_entry", literal "status", literal "clear", 0, false⟩,
    ⟨tickEvent, literal "timer", literal "plain", literal "timer0_ovf", literal "overflow",
    literal "timer0_entry", literal "status", literal "clear", 1, false⟩], 2, true, false⟩

theorem accepted_plan_selects_pulse :
    pulsePlan.held.length = 2 ∧ Exclusive pulsePlan.held ∧
      ∃ select : Fin pulsePlan.held.length → Fin pulseProblem.candidates.length,
        Function.Injective select ∧
          ∀ i, Selects pulseProblem (pulsePlan.held.get i) (pulseProblem.candidates.get (select i)) :=
  have hinventory : validateInventory [pulseEvent, tickEvent] pulseProblem pulsePlan = true := by decide
  have hplan : validate [pulseEvent, tickEvent] pulseDemands pulsePlan = .none := by decide
  have h := accepted_plan_selects (by decide) (by decide) hinventory hplan
  ⟨rfl, h.2.2.1, h.2.2.2.2⟩

end Grevir.Interrupt
