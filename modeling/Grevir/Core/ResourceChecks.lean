import Grevir.Support.Positions
import Grevir.Core.Module

/-!
# Core — ResourceChecks

The conflict test of an application: every module against every other, every parameter of a module
against its other parameters, and every resource of a claim against the rest of the claim.  Here
`For` with `OrEval` is the disjunction over its list, and `FullScanner` tests every pair of places.

* `applicationHasConflict_eq_false`: no conflict is no conflict between two places of the list of
  all claimed resources.
* `applicationHasConflict_iff`: a conflict is two different occurrences of resources in conflict.
* `applicationHasConflict_perm`: only the resources count, in any order.
-/

namespace Grevir.Core

variable {M Name Use : Type}

/-- `For<Operator<test, OrEval>, v, ts...>`. -/
def forOr {V T : Type} (test : V → T → Bool) (v : V) (ts : List T) : Bool := ts.any (test v)

/-- `AutoFor<ts...>::FullScanner<Operator<test, OrEval>>`. -/
def fullScanner {T : Type} (test : T → T → Bool) : List T → Bool
  | [] => false
  | t :: ts => ts.any (test t) || fullScanner test ts

section Tests

variable [DecidableEq Name] [DecidableEq Use] (canonicalGpio : Nat → Nat)

/-- `ResourceClaim<claim...>::has_resource<s>`. -/
def hasResource (claim : List (Resource Name Use)) (s : Resource Name Use) : Bool :=
  forOr (hasConflict canonicalGpio) s claim

def selfParamsConflictTest : List (Resource Name Use) → Bool
  | [] => false
  | [_] => false
  | res₁ :: res₂ :: ress =>
      hasConflict canonicalGpio res₁ res₂ || selfParamsConflictTest (res₁ :: ress)
        || selfParamsConflictTest (res₂ :: ress)
termination_by rs => rs.length

def claimsClaimConflictTest (pl : List (Resource Name Use)) (pr : Resource Name Use) : Bool :=
  hasResource canonicalGpio pl pr

def paramParamConflictTest (pl pr : Parameter M Name Use) : Bool :=
  forOr (claimsClaimConflictTest canonicalGpio) pr.claims pl.claims
    || selfParamsConflictTest canonicalGpio pl.claims
    || selfParamsConflictTest canonicalGpio pr.claims

def paramParamsConflictTest (psr : List (Parameter M Name Use)) (pl : Parameter M Name Use) :
    Bool :=
  forOr (paramParamConflictTest canonicalGpio) pl psr

def paramsParamsConflictTest (psl psr : List (Parameter M Name Use)) : Bool :=
  forOr (paramParamsConflictTest canonicalGpio) psr psl

def selfModuleParamsConflictTest : List (Parameter M Name Use) → Bool
  | [] => false
  | [p] => selfParamsConflictTest canonicalGpio p.claims
  | p₁ :: p₂ :: ps =>
      paramParamConflictTest canonicalGpio p₁ p₂ || selfModuleParamsConflictTest (p₁ :: ps)
        || selfModuleParamsConflictTest (p₂ :: ps)
termination_by ps => ps.length

def moduleConflictTest (m₀ mᵢ : Module M Name Use) : Bool :=
  paramsParamsConflictTest canonicalGpio m₀.params mᵢ.params

def selfModuleConflictTest : List (Module M Name Use) → Bool
  | [] => false
  | m :: ms => selfModuleParamsConflictTest canonicalGpio m.params || selfModuleConflictTest ms

/-- `Application::has_conflict`, on the closure's modules. -/
def applicationHasConflict (ms : List (Module M Name Use)) : Bool :=
  fullScanner (moduleConflictTest canonicalGpio) ms || selfModuleConflictTest canonicalGpio ms

end Tests

/-! ### What the tests look at -/

/-- The resources a module's parameters claim. -/
def Module.resources (m : Module M Name Use) : List (Resource Name Use) :=
  m.params.flatMap Parameter.claims

/-- The resources an application claims. -/
def resources (ms : List (Module M Name Use)) : List (Resource Name Use) :=
  ms.flatMap Module.resources

/-- The resource at a place: a module, a parameter of it, and a place in its claim. -/
def resourceAt (ms : List (Module M Name Use)) (o : Nat × Nat × Nat) : Option (Resource Name Use) :=
  ms[o.1]?.bind fun m => m.params[o.2.1]?.bind fun p => p.claims[o.2.2]?

theorem positions_resourceAt (ms : List (Module M Name Use)) :
    Positions (resourceAt ms) (resources ms) := by
  have hm : ∀ m : Module M Name Use,
      Positions (fun q : Nat × Nat => m.params[q.1]?.bind fun p => p.claims[q.2]?) m.resources :=
    fun m => .nest Parameter.claims (fun p => .list p.claims) m.params
  exact .nest Module.resources hm ms

variable [DecidableEq Name] [DecidableEq Use] {canonicalGpio : Nat → Nat}

/-- The two resources are not in conflict. -/
def Apart (canonicalGpio : Nat → Nat) (r r' : Resource Name Use) : Prop :=
  hasConflict canonicalGpio r r' = false

theorem Apart.symm {r r' : Resource Name Use} (h : Apart canonicalGpio r r') :
    Apart canonicalGpio r' r := (hasConflict_comm canonicalGpio r' r).trans h

/-! ### What each test finds -/

theorem hasResource_eq_false {claim : List (Resource Name Use)} {s : Resource Name Use} :
    hasResource canonicalGpio claim s = false ↔ ∀ r ∈ claim, Apart canonicalGpio s r := by
  simp [hasResource, forOr, Apart]

theorem selfParamsConflictTest_eq_false {rs : List (Resource Name Use)} :
    selfParamsConflictTest canonicalGpio rs = false ↔ rs.Pairwise (Apart canonicalGpio) := by
  induction rs using selfParamsConflictTest.induct with
  | case1 => simp [selfParamsConflictTest]
  | case2 r => simp [selfParamsConflictTest]
  | case3 r₁ r₂ rs ih₁ ih₂ =>
      rw [selfParamsConflictTest, Bool.or_eq_false_iff, Bool.or_eq_false_iff, ih₁, ih₂]
      simp only [List.pairwise_cons, List.forall_mem_cons, Apart]
      tauto

theorem paramParamConflictTest_eq_false {pl pr : Parameter M Name Use} :
    paramParamConflictTest canonicalGpio pl pr = false ↔
      (∀ r ∈ pl.claims, ∀ r' ∈ pr.claims, Apart canonicalGpio r r') ∧
        pl.claims.Pairwise (Apart canonicalGpio) ∧ pr.claims.Pairwise (Apart canonicalGpio) := by
  rw [paramParamConflictTest, Bool.or_eq_false_iff, Bool.or_eq_false_iff,
    selfParamsConflictTest_eq_false, selfParamsConflictTest_eq_false, and_assoc, forOr,
    List.any_eq_false]
  simp only [claimsClaimConflictTest, Bool.not_eq_true, hasResource_eq_false]

/-- Two modules: their claims apart, and, where both have a parameter, each claim within itself. -/
theorem moduleConflictTest_eq_false {m m' : Module M Name Use} :
    moduleConflictTest canonicalGpio m m' = false ↔ ∀ p ∈ m.params, ∀ p' ∈ m'.params,
      (∀ r ∈ p.claims, ∀ r' ∈ p'.claims, Apart canonicalGpio r r') ∧
        p.claims.Pairwise (Apart canonicalGpio) ∧ p'.claims.Pairwise (Apart canonicalGpio) := by
  simp only [moduleConflictTest, paramsParamsConflictTest, paramParamsConflictTest, forOr,
    List.any_eq_false, Bool.not_eq_true, paramParamConflictTest_eq_false]

theorem selfModuleParamsConflictTest_eq_false {ps : List (Parameter M Name Use)} :
    selfModuleParamsConflictTest canonicalGpio ps = false ↔
      (ps.flatMap Parameter.claims).Pairwise (Apart canonicalGpio) := by
  induction ps using selfModuleParamsConflictTest.induct with
  | case1 => simp [selfModuleParamsConflictTest]
  | case2 p => simp [selfModuleParamsConflictTest, selfParamsConflictTest_eq_false]
  | case3 p₁ p₂ ps ih₁ ih₂ =>
      rw [selfModuleParamsConflictTest, Bool.or_eq_false_iff, Bool.or_eq_false_iff, ih₁, ih₂,
        paramParamConflictTest_eq_false]
      simp only [List.flatMap_cons, List.pairwise_append, List.mem_append]
      constructor
      · rintro ⟨⟨⟨h₁₂, h₁, h₂⟩, -, hps, h₁ps⟩, -, -, h₂ps⟩
        refine ⟨h₁, ⟨h₂, hps, h₂ps⟩, fun r hr r' hr' => ?_⟩
        exact hr'.elim (h₁₂ r hr r') (h₁ps r hr r')
      · rintro ⟨h₁, ⟨h₂, hps, h₂ps⟩, h₁r⟩
        exact ⟨⟨⟨fun r hr r' hr' => h₁r r hr r' (.inl hr'), h₁, h₂⟩,
          h₁, hps, fun r hr r' hr' => h₁r r hr r' (.inr hr')⟩, h₂, hps, h₂ps⟩

theorem selfModuleConflictTest_eq_false {ms : List (Module M Name Use)} :
    selfModuleConflictTest canonicalGpio ms = false ↔
      ∀ m ∈ ms, m.resources.Pairwise (Apart canonicalGpio) := by
  induction ms with
  | nil => simp [selfModuleConflictTest]
  | cons m ms ih =>
      rw [selfModuleConflictTest, Bool.or_eq_false_iff, ih, selfModuleParamsConflictTest_eq_false,
        List.forall_mem_cons, Module.resources]

theorem fullScanner_eq_false {T : Type} {test : T → T → Bool} {ts : List T} :
    fullScanner test ts = false ↔ ts.Pairwise fun t t' => test t t' = false := by
  induction ts with
  | nil => simp [fullScanner]
  | cons t ts ih =>
      rw [fullScanner, Bool.or_eq_false_iff, ih, List.pairwise_cons, List.any_eq_false]
      simp only [Bool.not_eq_true]

/-! ### The application -/

/-- **No conflict is no conflict between two places of the list of all resources.** -/
theorem applicationHasConflict_eq_false {ms : List (Module M Name Use)} :
    applicationHasConflict canonicalGpio ms = false ↔
      (resources ms).Pairwise (Apart canonicalGpio) := by
  rw [applicationHasConflict, Bool.or_eq_false_iff, fullScanner_eq_false,
    selfModuleConflictTest_eq_false, resources, List.pairwise_flatMap, and_comm]
  refine and_congr_right fun hself => ?_
  -- the claims of one parameter are apart already, so the cross test says no more than its cross
  have hclaim : ∀ m ∈ ms, ∀ p ∈ m.params, p.claims.Pairwise (Apart canonicalGpio) :=
    fun m hm p hp => (List.pairwise_flatMap.mp (hself m hm)).1 p hp
  refine List.Pairwise.iff_of_mem fun {m m'} hm hm' => ?_
  rw [moduleConflictTest_eq_false]
  simp only [Module.resources, List.mem_flatMap]
  constructor
  · rintro h r ⟨p, hp, hr⟩ r' ⟨p', hp', hr'⟩
    exact (h p hp p' hp').1 r hr r' hr'
  · intro h p hp p' hp'
    exact ⟨fun r hr r' hr' => h r ⟨p, hp, hr⟩ r' ⟨p', hp', hr'⟩, hclaim m hm p hp,
      hclaim m' hm' p' hp'⟩

/-- **A conflict is two different occurrences of resources in conflict.** -/
theorem applicationHasConflict_iff {ms : List (Module M Name Use)} :
    applicationHasConflict canonicalGpio ms = true ↔
      ∃ o o' r r', o ≠ o' ∧ resourceAt ms o = some r ∧ resourceAt ms o' = some r' ∧
        hasConflict canonicalGpio r r' = true := by
  rw [(positions_resourceAt ms).exists_iff _ fun r r' h => (hasConflict_comm _ r' r).trans h,
    ← Bool.not_eq_false, applicationHasConflict_eq_false]
  simp only [Bool.not_eq_true]
  rfl

/-- **Only the resources count, in any order.** -/
theorem applicationHasConflict_perm {ms ms' : List (Module M Name Use)}
    (h : (resources ms).Perm (resources ms')) :
    applicationHasConflict canonicalGpio ms = applicationHasConflict canonicalGpio ms' := by
  rw [Bool.eq_iff_iff, ← Bool.not_eq_false, ← Bool.not_eq_false, applicationHasConflict_eq_false,
    applicationHasConflict_eq_false, h.pairwise_iff fun hxy => hxy.symm]

omit [DecidableEq Name] [DecidableEq Use] in
theorem resources_append (ms ms' : List (Module M Name Use)) :
    resources (ms ++ ms') = resources ms ++ resources ms' := List.flatMap_append

omit [DecidableEq Name] [DecidableEq Use] in
theorem resources_cons (m : Module M Name Use) (ms : List (Module M Name Use)) :
    resources (m :: ms) = m.resources ++ resources ms := List.flatMap_cons

/-- One module, with the same resources in another order or spread otherwise. -/
theorem applicationHasConflict_module {pre post : List (Module M Name Use)}
    {m m' : Module M Name Use} (h : m'.resources.Perm m.resources) :
    applicationHasConflict canonicalGpio (pre ++ m' :: post) =
      applicationHasConflict canonicalGpio (pre ++ m :: post) := by
  refine applicationHasConflict_perm ?_
  rw [resources_append, resources_append, resources_cons, resources_cons]
  exact (h.append_right _).append_left _

/-- One parameter more, whose resources conflict with none. -/
theorem applicationHasConflict_add {pre post : List (Module M Name Use)}
    {m : Module M Name Use} {ps₁ ps₂ : List (Parameter M Name Use)} (p : Parameter M Name Use)
    (hm : m.params = ps₁ ++ ps₂) (hself : p.claims.Pairwise (Apart canonicalGpio))
    (hall : ∀ r ∈ p.claims, ∀ r' ∈ resources (pre ++ m :: post), Apart canonicalGpio r r') :
    applicationHasConflict canonicalGpio (pre ++ { m with params := ps₁ ++ p :: ps₂ } :: post) =
      applicationHasConflict canonicalGpio (pre ++ m :: post) := by
  have hperm : (resources (pre ++ { m with params := ps₁ ++ p :: ps₂ } :: post)).Perm
      (p.claims ++ resources (pre ++ m :: post)) := by
    simp only [resources_append, resources_cons, Module.resources, hm, List.flatMap_append,
      List.flatMap_cons, List.append_assoc]
    exact (((List.perm_append_comm_assoc _ _ _).append_left _).trans
      (List.perm_append_comm_assoc _ _ _))
  rw [Bool.eq_iff_iff, ← Bool.not_eq_false, ← Bool.not_eq_false, applicationHasConflict_eq_false,
    applicationHasConflict_eq_false, hperm.pairwise_iff fun hxy => hxy.symm, List.pairwise_append]
  exact not_congr ⟨fun h => h.2.1, fun h => ⟨hself, h, hall⟩⟩

omit [DecidableEq Name] [DecidableEq Use] in
/-- A resource moved from one parameter to a later one. -/
theorem resources_move {ps₁ ps₂ ps₃ : List (Parameter M Name Use)} (p q : Parameter M Name Use)
    (r : Resource Name Use) (c₁ c₂ d₁ d₂ : List (Resource Name Use)) :
    ((ps₁ ++ { p with claims := c₁ ++ c₂ } :: ps₂ ++
        { q with claims := d₁ ++ r :: d₂ } :: ps₃).flatMap Parameter.claims).Perm
      ((ps₁ ++ { p with claims := c₁ ++ r :: c₂ } :: ps₂ ++
        { q with claims := d₁ ++ d₂ } :: ps₃).flatMap Parameter.claims) := by
  simp only [List.flatMap_append, List.flatMap_cons, List.append_assoc, List.cons_append]
  refine .append_left _ (.append_left _ ?_)
  simpa only [List.append_assoc] using
    @List.perm_middle _ r (c₂ ++ ps₂.flatMap Parameter.claims ++ d₁)
      (d₂ ++ ps₃.flatMap Parameter.claims)

/-- **Conflict detection is exactly pairwise and order-independent.** -/
theorem conflict_detection_exact (canonicalGpio : Nat → Nat) (ms : List (Module M Name Use)) :
    (applicationHasConflict canonicalGpio ms = true ↔
      ∃ o o' r r', o ≠ o' ∧ resourceAt ms o = some r ∧ resourceAt ms o' = some r' ∧
        hasConflict canonicalGpio r r' = true) ∧
    (∀ r r' : Resource Name Use,
      hasConflict canonicalGpio r r' = hasConflict canonicalGpio r' r) ∧
    (∀ (t : Resource Name Use) (first₁ last₁ first₂ last₂ : Int) (good₁ : first₁ < last₁)
      (good₂ : first₂ < last₂),
      hasConflict canonicalGpio (.range t first₁ last₁ good₁) (.range t first₂ last₂ good₂) =
        true ↔ ∃ n : Int, (first₁ ≤ n ∧ n < last₁) ∧ first₂ ≤ n ∧ n < last₂) ∧
    -- the modules in another order
    (∀ ms', ms'.Perm ms →
      applicationHasConflict canonicalGpio ms' = applicationHasConflict canonicalGpio ms) ∧
    ∀ pre m post, ms = pre ++ m :: post →
      -- the parameters of a module in another order
      (∀ ps, ps.Perm m.params →
        applicationHasConflict canonicalGpio (pre ++ { m with params := ps } :: post) =
          applicationHasConflict canonicalGpio ms) ∧
      -- the resources of a claim in another order
      (∀ ps₁ p ps₂ claims, m.params = ps₁ ++ p :: ps₂ → claims.Perm p.claims →
        applicationHasConflict canonicalGpio
            (pre ++ { m with params := ps₁ ++ { p with claims := claims } :: ps₂ } :: post) =
          applicationHasConflict canonicalGpio ms) ∧
      -- a resource moved from a parameter to a later or to an earlier one
      (∀ ps₁ p ps₂ q ps₃ r c₁ c₂ d₁ d₂, m.params = ps₁ ++ p :: ps₂ ++ q :: ps₃ →
        (p.claims = c₁ ++ r :: c₂ → q.claims = d₁ ++ d₂ →
          applicationHasConflict canonicalGpio (pre ++ { m with params :=
              ps₁ ++ { p with claims := c₁ ++ c₂ } :: ps₂ ++
                { q with claims := d₁ ++ r :: d₂ } :: ps₃ } :: post) =
            applicationHasConflict canonicalGpio ms) ∧
        (p.claims = c₁ ++ c₂ → q.claims = d₁ ++ r :: d₂ →
          applicationHasConflict canonicalGpio (pre ++ { m with params :=
              ps₁ ++ { p with claims := c₁ ++ r :: c₂ } :: ps₂ ++
                { q with claims := d₁ ++ d₂ } :: ps₃ } :: post) =
            applicationHasConflict canonicalGpio ms)) ∧
      -- one parameter more, which conflicts with nothing
      (∀ ps₁ p ps₂, m.params = ps₁ ++ ps₂ →
        p.claims.Pairwise (fun r r' => hasConflict canonicalGpio r r' = false) →
        (∀ r ∈ p.claims, ∀ r' ∈ resources ms, hasConflict canonicalGpio r r' = false) →
        applicationHasConflict canonicalGpio (pre ++ { m with params := ps₁ ++ p :: ps₂ } :: post) =
          applicationHasConflict canonicalGpio ms) := by
  refine ⟨applicationHasConflict_iff, hasConflict_comm _, fun t _ _ _ _ good₁ good₂ =>
    hasConflict_range_iff _ t good₁ good₂, fun ms' h => applicationHasConflict_perm ?_, ?_⟩
  · exact h.flatMap_right _
  rintro pre m post rfl
  refine ⟨fun ps h => applicationHasConflict_module ?_,
    fun ps₁ p ps₂ claims hm hc => applicationHasConflict_module ?_,
    fun ps₁ p ps₂ q ps₃ r c₁ c₂ d₁ d₂ hm => ⟨fun hp hq => applicationHasConflict_module ?_,
      fun hp hq => applicationHasConflict_module ?_⟩,
    fun ps₁ p ps₂ hm hself hall => applicationHasConflict_add p hm hself hall⟩
  · exact h.flatMap_right _
  · simp only [Module.resources, hm, List.flatMap_append, List.flatMap_cons]
    exact (hc.append_right _).append_left _
  · obtain ⟨pd, pc⟩ := p
    obtain ⟨qd, qc⟩ := q
    obtain rfl : pc = _ := hp
    obtain rfl : qc = _ := hq
    rw [Module.resources, Module.resources, hm]
    exact resources_move ⟨pd, _⟩ ⟨qd, _⟩ r c₁ c₂ d₁ d₂
  · obtain ⟨pd, pc⟩ := p
    obtain ⟨qd, qc⟩ := q
    obtain rfl : pc = _ := hp
    obtain rfl : qc = _ := hq
    rw [Module.resources, Module.resources, hm]
    exact (resources_move ⟨pd, _⟩ ⟨qd, _⟩ r c₁ c₂ d₁ d₂).symm

end Grevir.Core
