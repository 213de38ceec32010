import Grevir.Core.AllocatedApplication
import Grevir.Support.Repeats
import Mathlib.Data.Fintype.Option
import Mathlib.Data.List.Flatten

/-!
# Core — AllocationClaims

The fixed claims an allocation is asked to respect.  Each descriptor of the closure adds its own: a
requested module those it names, an existing module those of every module of its own closure.  The
closure of descriptors has each descriptor once, but a module that two existing modules depend on is
in both their closures, and its claims are listed twice.

* `fixedClaims_perm`: the fixed claims, requested modules apart from covered ones.
* `fixed_claims_once_iff`: when each owner's claims are listed once.
* `shared_module_claims_twice`: two existing modules over one, which claims a resource.
-/

namespace Grevir.Core

variable {Q M R T V Name Use : Type} [Fintype Q] [Fintype M] [DecidableEq Q] [DecidableEq M]

namespace Program

variable (removeAll : (α : Type) → [DecidableEq α] → RemoveAll α) (p : Program Q M R T V Name Use)
  (roots : List (Descriptor Q M))

/-- A requested module of the descriptor closure. -/
def Asks (q : Q) : Prop := Digraph.Reaches p.dependencies roots (.requested q)

/-- An existing module of the descriptor closure. -/
def Includes (e : M) : Prop := Digraph.Reaches p.dependencies roots (.existing e)

/-- A module of the closure of an existing module. -/
def Covers (e m : M) : Prop := Digraph.Reaches (Application.deps p.modules) [e] m

/-- **Each owner's claims once**: those of each requested module, and those of each module of the
existing modules' closures. -/
def ClaimsOnce : Prop :=
  ∃ (asked : List Q) (owners : List M),
    asked.Nodup ∧ (∀ q, q ∈ asked ↔ p.Asks roots q) ∧
    owners.Nodup ∧ (∀ m, m ∈ owners ↔ ∃ e, p.Includes roots e ∧ p.Covers e m) ∧
    (p.fixedClaims removeAll roots).Perm
      (asked.flatMap (fun q => (p.requested q).claims) ++ resources (owners.map p.modules))

/-- Two places of the fixed claims conflict only where the bound application has a conflict. -/
def ConflictsAreReal [DecidableEq Name] [DecidableEq Use] : Prop :=
  ∀ (backend : Backend R T V Name Use) (canonicalGpio : Nat → Nat) (i j : Nat)
    (r r' : Resource Name Use), i ≠ j → (p.fixedClaims removeAll roots)[i]? = some r →
      (p.fixedClaims removeAll roots)[j]? = some r' → Core.hasConflict canonicalGpio r r' = true →
        p.hasConflict removeAll roots backend canonicalGpio = true

/-- **A module that two existing modules of the closure cover claims nothing.** -/
def SharedClaimNothing : Prop :=
  ∀ e e' m, p.Includes roots e → p.Includes roots e' → e ≠ e' → p.Covers e m → p.Covers e' m →
    (p.modules m).resources = []

/-! ### What is passed -/

/-- The requested modules of a list of descriptors. -/
def askedOf : List (Descriptor Q M) → List Q :=
  List.filterMap fun
    | .requested q => some q
    | .existing _ => none

/-- The existing modules of a list of descriptors. -/
def includedOf : List (Descriptor Q M) → List M :=
  List.filterMap fun
    | .requested _ => none
    | .existing m => some m

/-- The modules an existing module's claims are collected from. -/
def covered (e : M) : List M := moduleClosure (removeAll M) (Application.deps p.modules) [e]

omit [Fintype Q] [Fintype M] [DecidableEq Q] [DecidableEq M] in
theorem mem_askedOf {ds : List (Descriptor Q M)} {q : Q} : q ∈ askedOf ds ↔ .requested q ∈ ds := by
  simp only [askedOf, List.mem_filterMap]
  constructor
  · rintro ⟨q' | m, hd, h⟩
    · exact Option.some.inj h ▸ hd
    · cases h
  · exact fun h => ⟨_, h, rfl⟩

omit [Fintype Q] [Fintype M] [DecidableEq Q] [DecidableEq M] in
theorem mem_includedOf {ds : List (Descriptor Q M)} {m : M} :
    m ∈ includedOf ds ↔ .existing m ∈ ds := by
  simp only [includedOf, List.mem_filterMap]
  constructor
  · rintro ⟨q | m', hd, h⟩
    · cases h
    · exact Option.some.inj h ▸ hd
  · exact fun h => ⟨_, h, rfl⟩

omit [Fintype Q] [Fintype M] [DecidableEq Q] [DecidableEq M] in
theorem nodup_askedOf {ds : List (Descriptor Q M)} (h : ds.Nodup) : (askedOf ds).Nodup := by
  refine List.Nodup.filterMap ?_ h
  rintro (q | m) (q' | m') x hx hx'
  · obtain rfl := Option.some.inj hx
    exact congrArg _ (Option.some.inj hx').symm
  · cases hx'
  · cases hx
  · cases hx

omit [Fintype Q] [Fintype M] [DecidableEq Q] [DecidableEq M] in
theorem nodup_includedOf {ds : List (Descriptor Q M)} (h : ds.Nodup) : (includedOf ds).Nodup := by
  refine List.Nodup.filterMap ?_ h
  rintro (q | m) (q' | m') x hx hx'
  · cases hx
  · cases hx
  · cases hx'
  · obtain rfl := Option.some.inj hx
    exact congrArg _ (Option.some.inj hx').symm

variable {removeAll p roots}

theorem nodup_descriptors : (p.descriptors removeAll roots).Nodup := nodup_moduleClosure _ _

theorem mem_asked {q : Q} : q ∈ askedOf (p.descriptors removeAll roots) ↔ p.Asks roots q := by
  rw [mem_askedOf, descriptors, mem_moduleClosure, Asks]

theorem mem_included {e : M} :
    e ∈ includedOf (p.descriptors removeAll roots) ↔ p.Includes roots e := by
  rw [mem_includedOf, descriptors, mem_moduleClosure, Includes]

omit [Fintype Q] [DecidableEq Q] in
theorem mem_covered {e m : M} : m ∈ p.covered removeAll e ↔ p.Covers e m := by
  rw [covered, mem_moduleClosure, Covers]

omit [Fintype Q] [DecidableEq Q] in
theorem nodup_covered (e : M) : (p.covered removeAll e).Nodup := nodup_moduleClosure _ _

variable (removeAll p)

/-- The modules whose claims the existing modules of some descriptors add, as often as they do. -/
def coveredBy (ds : List (Descriptor Q M)) : List M :=
  (includedOf ds).flatMap (p.covered removeAll)

omit [Fintype Q] [DecidableEq Q] in
theorem claims_perm (ds : List (Descriptor Q M)) :
    (ds.flatMap (p.claims removeAll)).Perm ((askedOf ds).flatMap (fun q => (p.requested q).claims) ++
      resources ((p.coveredBy removeAll ds).map p.modules)) := by
  induction ds with
  | nil => exact .refl _
  | cons d ds ih =>
      rw [List.flatMap_cons]
      cases d with
      | requested q =>
          have hasked : askedOf (.requested q :: ds) = q :: askedOf ds := rfl
          rw [hasked, List.flatMap_cons, List.append_assoc]
          exact ih.append_left _
      | existing m =>
          have hclaims : p.claims removeAll (.existing m) =
              resources ((p.covered removeAll m).map p.modules) := moduleClaims_eq _
          have hcovered : p.coveredBy removeAll (.existing m :: ds) =
              p.covered removeAll m ++ p.coveredBy removeAll ds := rfl
          rw [hclaims, hcovered, List.map_append, resources_append]
          exact (ih.append_left _).trans (List.perm_append_comm_assoc _ _ _)

/-- **The fixed claims, the requested modules' before the others'.** -/
theorem fixedClaims_perm (roots : List (Descriptor Q M)) : (p.fixedClaims removeAll roots).Perm
    ((askedOf (p.descriptors removeAll roots)).flatMap (fun q => (p.requested q).claims) ++
      resources ((p.coveredBy removeAll (p.descriptors removeAll roots)).map p.modules)) := by
  rw [fixedClaims, join_eq_flatten, ← List.flatMap]
  exact p.claims_perm removeAll _

variable {removeAll p}

theorem mem_coveredBy {m : M} : m ∈ p.coveredBy removeAll (p.descriptors removeAll roots) ↔
    ∃ e, p.Includes roots e ∧ p.Covers e m := by
  simp only [coveredBy, List.mem_flatMap, mem_included, mem_covered]

/-- **Listed twice: covered by two existing modules.** -/
theorem two_le_count_coveredBy {m : M} :
    2 ≤ (p.coveredBy removeAll (p.descriptors removeAll roots)).count m ↔
      ∃ e e', p.Includes roots e ∧ p.Includes roots e' ∧ e ≠ e' ∧ p.Covers e m ∧ p.Covers e' m := by
  rw [coveredBy, Repeats.two_le_count_flatMap_iff (nodup_includedOf nodup_descriptors)
    fun e _ => nodup_covered e]
  simp only [mem_included, mem_covered]
  constructor
  · rintro ⟨e, he, e', he', h⟩
    exact ⟨e, e', he, he', h⟩
  · rintro ⟨e, e', he, he', h⟩
    exact ⟨e, he, e', he', h⟩

omit [Fintype Q] [Fintype M] [DecidableEq Q] [DecidableEq M] in
theorem resources_map (ms : List M) :
    resources (ms.map p.modules) = ms.flatMap fun m => (p.modules m).resources := by
  rw [resources, List.flatMap_map]

variable (removeAll)

/-- Once each, exactly where what is listed twice claims nothing. -/
theorem claimsOnce_iff : p.ClaimsOnce removeAll roots ↔ p.SharedClaimNothing roots := by
  have hshared : p.SharedClaimNothing roots ↔
      ∀ m, 2 ≤ (p.coveredBy removeAll (p.descriptors removeAll roots)).count m →
        (p.modules m).resources = [] := by
    simp only [two_le_count_coveredBy, SharedClaimNothing]
    constructor
    · rintro h m ⟨e, e', he, he', hne, hm, hm'⟩
      exact h e e' m he he' hne hm hm'
    · intro h e e' m he he' hne hm hm'
      exact h m ⟨e, e', he, he', hne, hm, hm'⟩
  rw [hshared]
  constructor
  · rintro ⟨asked, owners, hasked, hasked', howners, howners', hperm⟩
    have heq : asked.Perm (askedOf (p.descriptors removeAll roots)) :=
      (List.perm_ext_iff_of_nodup hasked (nodup_askedOf nodup_descriptors)).mpr fun q => by
        rw [hasked', mem_asked]
    have hcovered := ((p.fixedClaims_perm removeAll roots).symm.trans hperm).trans
      ((heq.flatMap_right _).append_right _)
    rw [List.perm_append_left_iff, resources_map, resources_map] at hcovered
    refine (Repeats.flatMap_perm_iff howners (fun m => ?_) _).mp hcovered
    rw [howners', mem_coveredBy]
  · intro h
    refine ⟨askedOf (p.descriptors removeAll roots),
      (p.coveredBy removeAll (p.descriptors removeAll roots)).dedup, nodup_askedOf nodup_descriptors,
      fun q => mem_asked, List.nodup_dedup _, fun m => List.mem_dedup.trans mem_coveredBy, ?_⟩
    refine (p.fixedClaims_perm removeAll roots).trans (List.Perm.append_left _ ?_)
    rw [resources_map, resources_map]
    exact (Repeats.flatMap_perm_iff (List.nodup_dedup _) (fun m => List.mem_dedup) _).mpr h

/-! ### The bound application -/

omit [Fintype Q] [Fintype M] [DecidableEq Q] [DecidableEq M] in
theorem resources_module (a : Allocation R T V Name Use) (m : M) :
    (p.bound a (.module m)).resources = (p.modules m).resources := by
  rw [bound, Module.resources, Module.map, List.flatMap_map]
  rfl

omit [Fintype Q] [Fintype M] [DecidableEq Q] [DecidableEq M] in
/-- The claims a requested module names are among those of what it is bound to. -/
theorem claims_sublist (a : Allocation R T V Name Use) (q : Q) :
    (p.requested q).claims.Sublist (p.bound a (.bind q)).resources := by
  rw [bound, Module.resources, List.flatMap_append, List.flatMap_cons]
  exact (List.sublist_append_left _ _).trans (List.sublist_append_right _ _)

omit [Fintype Q] [Fintype M] [DecidableEq Q] [DecidableEq M] in
theorem Covers.reaches_bound {e m : M} (a : Allocation R T V Name Use) (h : p.Covers e m) :
    Digraph.Reaches (Application.deps (p.bound a)) [.module e] (.module m) := by
  refine h.mem_of_closed (S := fun m => Digraph.Reaches (Application.deps (p.bound a)) [.module e]
    (.module m)) (fun r hr => ?_) ?_
  · obtain rfl := List.mem_singleton.mp hr
    exact .of_mem (List.mem_singleton_self _)
  · rintro c ⟨r, hr, hrc⟩ d hcd
    refine ⟨r, hr, hrc.tail ?_⟩
    rw [Digraph.Edge, Application.deps, deps_module]
    exact List.mem_map_of_mem hcd

/-- **What is listed once is claimed by the bound application.** -/
theorem fixedClaims_subperm (h : p.SharedClaimNothing roots) (backend : Backend R T V Name Use) :
    List.Subperm (p.fixedClaims removeAll roots)
      (resources ((Application.allModules (removeAll _)
        (p.bound (p.allocation removeAll roots backend)) (p.boundRoots removeAll roots)).map
          (p.bound (p.allocation removeAll roots backend)))) := by
  obtain ⟨asked, owners, hasked, hasked', howners, howners', hperm⟩ :=
    (claimsOnce_iff removeAll).mpr h
  generalize p.allocation removeAll roots backend = a
  have hsublist : (asked.flatMap (fun q => (p.requested q).claims) ++
      resources (owners.map p.modules)).Sublist
        ((asked.map Bound.bind ++ owners.map Bound.module).flatMap fun b =>
          (p.bound a b).resources) := by
    rw [List.flatMap_append, List.flatMap_map, List.flatMap_map, resources_map]
    refine (List.Sublist.flatMap_right _ fun q _ => claims_sublist a q).append ?_
    exact List.Sublist.flatMap_right _ fun m _ => (resources_module a m).symm ▸ .refl _
  have hnodup : (asked.map Bound.bind ++ owners.map (Bound.module : M → Bound Q M)).Nodup := by
    refine List.nodup_append.mpr ⟨hasked.map fun _ _ h => Bound.bind.inj h,
      howners.map fun _ _ h => Bound.module.inj h, ?_⟩
    intro b hb c hc
    obtain ⟨q, -, rfl⟩ := List.mem_map.mp hb
    obtain ⟨m, -, rfl⟩ := List.mem_map.mp hc
    exact fun h => by cases h
  have hsubset : asked.map Bound.bind ++ owners.map (Bound.module : M → Bound Q M) ⊆
      Application.allModules (removeAll _) (p.bound a) (p.boundRoots removeAll roots) := by
    intro b hb
    refine (mem_moduleClosure _).mpr (reaches_closure.mpr ?_)
    rcases List.mem_append.mp hb with hb | hb
    · obtain ⟨q, hq, rfl⟩ := List.mem_map.mp hb
      exact ⟨.requested q, (hasked' q).mp hq, .of_mem (List.mem_singleton_self _)⟩
    · obtain ⟨m, hm, rfl⟩ := List.mem_map.mp hb
      obtain ⟨e, he, hem⟩ := (howners' m).mp hm
      exact ⟨.existing e, he, hem.reaches_bound a⟩
  obtain ⟨l, hl, hls⟩ := hnodup.subperm hsubset
  rw [resources, List.flatMap_map]
  exact hperm.subperm.trans (hsublist.subperm.trans ⟨l.flatMap _, hl.flatMap_right _, hls.flatMap _⟩)

variable [DecidableEq Name] [DecidableEq Use]

theorem conflictsAreReal (h : p.SharedClaimNothing roots) : p.ConflictsAreReal removeAll roots := by
  intro backend canonicalGpio i j r r' hij hr hr' hconflict
  by_contra hno
  rw [Bool.not_eq_true] at hno
  obtain ⟨l, hl, hls⟩ := fixedClaims_subperm removeAll h backend
  have hapart := (hl.pairwise_iff fun hxy => hxy.symm).mp
    ((applicationHasConflict_eq_false.mp hno).sublist hls)
  have hapart' := ((Positions.list _).pairwise _ fun _ _ hxy => hxy.symm).mpr hapart
  exact absurd hconflict (Bool.eq_false_iff.mp (hapart' i j r r' hij hr hr'))

end Program

/-- **Each owner's fixed claims are passed once, and no conflict among them is one of the list alone,
exactly where the modules that existing modules share claim nothing.** -/
theorem fixed_claims_once_iff [DecidableEq Name] [DecidableEq Use]
    (removeAll : (α : Type) → [DecidableEq α] → RemoveAll α) (p : Program Q M R T V Name Use)
    (roots : List (Descriptor Q M)) :
    (p.ClaimsOnce removeAll roots ∧ p.ConflictsAreReal removeAll roots) ↔
      p.SharedClaimNothing roots :=
  ⟨fun h => (Program.claimsOnce_iff removeAll).mp h.1,
    fun h => ⟨(Program.claimsOnce_iff removeAll).mpr h, Program.conflictsAreReal removeAll h⟩⟩

/-- Two modules over one, which claims a resource. -/
def overlapping : Program Empty (Option Bool) Unit Unit Unit Unit Unit where
  name := id
  modules
    | none => ⟨[], [⟨none, [.other ()]⟩]⟩
    | some _ => ⟨[none], []⟩
  requested := Empty.elim

def overlappingRoots : List (Descriptor Empty (Option Bool)) :=
  [.existing (some false), .existing (some true)]

/-- **The claims of a shared module are passed twice**, as if it had two owners, though the
application has no conflict. -/
theorem shared_module_claims_twice :
    overlapping.fixedClaims (fun _ _ => .inPlace) overlappingRoots =
        [.other (), .other ()] ∧
      (∀ backend, overlapping.hasConflict (fun _ _ => .inPlace) overlappingRoots backend id =
        false) ∧
      ¬ (overlapping.ClaimsOnce (fun _ _ => .inPlace) overlappingRoots ∧
        overlapping.ConflictsAreReal (fun _ _ => .inPlace) overlappingRoots) := by
  have hclaims : overlapping.fixedClaims (fun _ _ => .inPlace) overlappingRoots =
      [.other (), .other ()] := by
    simp [overlappingRoots, Program.fixedClaims, Program.descriptors, Program.claims,
      Program.dependencies, moduleClosure, moduleClosureVa, RemoveAll.inPlace, join, moduleClaims,
      parameterClaims, Application.deps, Module.deps, depsFromParams, Parameter.depsOf, overlapping]
  have hapart : ∀ backend, overlapping.hasConflict (fun _ _ => .inPlace) overlappingRoots backend id =
      false := by
    intro backend
    have hresources : ∀ a b, (overlapping.bound a b).resources =
        if b = .module none then [.other ()] else [] := by
      rintro a (q | m)
      · exact q.elim
      · rw [Program.resources_module]
        revert m
        decide
    -- of all modules of the application only the shared one claims a resource
    rw [Program.hasConflict, Application.hasConflict, applicationHasConflict_eq_false, resources,
      List.flatMap_map, List.pairwise_flatMap]
    refine ⟨fun b _ => ?_, (nodup_moduleClosure _ _).imp fun {b c} hne r hr r' hr' => ?_⟩
    · rw [hresources]
      split <;> simp
    · rw [hresources] at hr hr'
      split at hr
      next hb =>
        split at hr'
        next hc => exact absurd (hb.trans hc.symm) hne
        next => cases hr'
      next => cases hr
  refine ⟨hclaims, hapart, fun h => ?_⟩
  have hreal := h.2 (fun _ _ => ⟨true, fun _ => (), fun _ => []⟩) id 0 1 (.other ()) (.other ())
    (by decide) (by rw [hclaims]; rfl) (by rw [hclaims]; rfl) rfl
  exact absurd ((hapart _).symm.trans hreal) (by decide)

end Grevir.Core
