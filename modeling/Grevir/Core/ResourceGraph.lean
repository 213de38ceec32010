import Grevir.Support.Branches

/-!
# Core — ResourceGraph

The roots a resource rests on.  A resource declares the tuple of the resources it depends on; one that
declares only itself, or nothing, is a root.  Two resources that rest on one root conflict.

The templates are instantiated from `RootDependencies<T>` down, to a bounded depth; a cycle has no
instantiation of any depth.  `tuple_concat` comes from a library whose code is elsewhere, so it is a
parameter, and what is proved assumes that it is the concatenation.

* `properDependencies_eq_nil_iff`: the resources that the resolution stops at are the roots.
* `rootDependencyOf_settles`: by induction on what a resource depends on, the resolution has a result,
  the ends of all dependency paths.
* `rootDependencies_exist_iff`: without that, exactly the resources that rest on no cycle have a result.
* `rootDependencies_exact`: `RootDependencies` are the roots at the ends of the paths, in order; they
  are the roots that are reached, and tell whether two resources have one in common.
-/

namespace Grevir.Core

open Branches Digraph

section Graph

variable {R : Type} [DecidableEq R] (dependencies : R → List R)
  (tupleConcat : List R → List R → List R)

/-! ### The resolution -/

/-- `RootDependencyOfHelper`: the resource itself where it declares itself or nothing. -/
def rootDependencyOfHelper (finder : List R → Option (List R)) (t : R) (deps : List R) :
    Option (List R) :=
  if deps = [t] then some [t]
  else
    match deps with
    | [] => some [t]
    | d :: ds => finder (d :: ds)

mutual

/-- `RootDependencyFinder`, to a depth. -/
def rootDependencyFinder : Nat → List R → Option (List R)
  | _, [] => some []
  | 0, _ :: _ => none
  | depth + 1, t :: ts => do
      let tDeps ← rootDependencyOf depth t
      let tsDeps ← rootDependencyFinder depth ts
      some (tupleConcat tDeps tsDeps)

/-- `RootDependencyOf`, to a depth. -/
def rootDependencyOf : Nat → R → Option (List R)
  | 0, _ => none
  | depth + 1, t => rootDependencyOfHelper (rootDependencyFinder depth) t (dependencies t)

end

/-- `RootDependencies`, to a depth. -/
def rootDependencies (depth : Nat) (t : R) : Option (List R) :=
  rootDependencyFinder dependencies tupleConcat depth (dependencies t)

/-! ### Roots and paths -/

/-- A resource that depends only on itself or on nothing. -/
def IsRoot (t : R) : Prop := dependencies t = [t] ∨ dependencies t = []

/-- The dependencies of a resource that is no root. -/
def properDependencies (t : R) : List R := if dependencies t = [t] then [] else dependencies t

/-- No resource rests on itself, but for those that declare just themselves. -/
def Acyclic : Prop := ∀ t, ¬ Relation.TransGen (Edge (properDependencies dependencies)) t t

/-- `path` takes one position in the tuple of each resource on the way from `t` to a root. -/
def DependencyPath (t : R) (path : List Nat) (root : R) : Prop :=
  Leads (properDependencies dependencies) t path root

variable {dependencies}

theorem properDependencies_eq_nil_iff {t : R} :
    properDependencies dependencies t = [] ↔ IsRoot dependencies t := by
  rw [properDependencies, IsRoot]
  split
  · exact iff_of_true rfl (Or.inl ‹_›)
  · rw [or_iff_right ‹_›]

/-- What a resource that is no root declares is what it depends on. -/
theorem properDependencies_eq {t : R} (h : ¬ IsRoot dependencies t) :
    properDependencies dependencies t = dependencies t :=
  if_neg fun hself => h (Or.inl hself)

/-- A resource that declares itself reaches no more by that. -/
theorem reaches_proper_iff {t r : R} :
    Relation.ReflTransGen (Edge (properDependencies dependencies)) t r ↔
      Relation.ReflTransGen (Edge dependencies) t r := by
  constructor
  · intro h
    refine Relation.ReflTransGen.mono (fun a b hab => ?_) _ _ h
    rw [Edge, properDependencies] at hab
    split at hab
    · cases hab
    · exact hab
  · intro h
    induction h with
    | refl => exact .refl
    | @tail a b _ hab ih =>
        by_cases hself : dependencies a = [a]
        · rw [Edge, hself, List.mem_singleton] at hab
          exact hab ▸ ih
        · exact ih.tail (by rwa [Edge, properDependencies, if_neg hself])

/-- A rank that goes down along the dependencies shows that there is no cycle. -/
theorem acyclic_of_rank (rank : R → Nat)
    (h : ∀ a, ∀ b ∈ properDependencies dependencies a, rank b < rank a) : Acyclic dependencies := by
  intro t hcycle
  have hlt : ∀ {a b}, Relation.TransGen (Edge (properDependencies dependencies)) a b →
      rank b < rank a := by
    intro a b hab
    induction hab with
    | single hb => exact h _ _ hb
    | tail _ hb ih => exact (h _ _ hb).trans ih
  exact Nat.lt_irrefl _ (hlt hcycle)

/-! ### The result -/

section

variable {finder : List R → Option (List R)} {t : R}

theorem rootDependencyOfHelper_root (h : IsRoot dependencies t) :
    rootDependencyOfHelper finder t (dependencies t) = some [t] := by
  unfold rootDependencyOfHelper
  rcases h with hself | hempty
  · rw [if_pos hself]
  · rw [hempty, if_neg (List.cons_ne_nil t []).symm]

theorem rootDependencyOfHelper_proper (h : ¬ IsRoot dependencies t) :
    rootDependencyOfHelper finder t (dependencies t) = finder (dependencies t) := by
  unfold rootDependencyOfHelper
  rw [if_neg fun hself => h (Or.inl hself)]
  split
  · exact absurd (Or.inr ‹_›) h
  · rw [‹dependencies t = _›]

end

variable {tupleConcat} (hconcat : ∀ as bs, tupleConcat as bs = as ++ bs)

include hconcat in
/-- The roots under a list of resources are those under each of them, in order. -/
theorem rootDependencyFinder_settles (ts : List R)
    (h : ∀ t ∈ ts, ∃ branches, DepthFirst (DependencyPath dependencies t) branches ∧
      Settles (fun depth => rootDependencyOf dependencies tupleConcat depth t)
        (branches.map Prod.snd)) :
    ∃ branches, DepthFirst (LeadsAmong (properDependencies dependencies) ts) branches ∧
      Settles (fun depth => rootDependencyFinder dependencies tupleConcat depth ts)
        (branches.map Prod.snd) := by
  induction ts with
  | nil => exact ⟨[], .nil, .of_forall fun depth => by rw [rootDependencyFinder]; rfl⟩
  | cons t ts ih =>
      obtain ⟨first, hfirst, hof⟩ := h t List.mem_cons_self
      obtain ⟨rest, hrest, hfinder⟩ := ih fun u hu => h u (List.mem_cons_of_mem t hu)
      refine ⟨_, hfirst.cons hrest, .of_succ ?_⟩
      rw [DepthFirst.ends_cons, ← hconcat]
      simp only [rootDependencyFinder]
      exact hof.bind (hfinder.bind (.of_forall fun _ => rfl))

include hconcat in
/-- **The resolution follows every path**, where there is no cycle. -/
theorem rootDependencyOf_settles [Finite R] (hacyclic : Acyclic dependencies) (t : R) :
    ∃ branches, DepthFirst (DependencyPath dependencies t) branches ∧
      Settles (fun depth => rootDependencyOf dependencies tupleConcat depth t)
        (branches.map Prod.snd) := by
  induction t using (wellFounded_of_acyclic hacyclic).induction with
  | h t ih =>
      by_cases hroot : IsRoot dependencies t
      · refine ⟨_, .of_sink (properDependencies_eq_nil_iff.mpr hroot), .of_succ (.of_forall ?_)⟩
        intro depth
        rw [rootDependencyOf, rootDependencyOfHelper_root hroot]
        rfl
      · have hproper := properDependencies_eq hroot
        have hne := mt properDependencies_eq_nil_iff.mp hroot
        obtain ⟨branches, hdepth, hfinder⟩ := rootDependencyFinder_settles hconcat (dependencies t)
          fun d hd => ih d (by rwa [Edge, hproper])
        refine ⟨branches, .down hne (hproper ▸ hdepth), .of_succ ?_⟩
        simp only [rootDependencyOf, rootDependencyOfHelper_proper hroot]
        exact hfinder

include hconcat in
/-- The same for `RootDependencies`, which goes on from what the resource declares. -/
theorem rootDependencies_settles [Finite R] (hacyclic : Acyclic dependencies) {t : R}
    (ht : dependencies t ≠ []) :
    ∃ branches, DepthFirst (DependencyPath dependencies t) branches ∧
      Settles (fun depth => rootDependencies dependencies tupleConcat depth t)
        (branches.map Prod.snd) := by
  by_cases hroot : IsRoot dependencies t
  · have hself : dependencies t = [t] := hroot.resolve_right ht
    refine ⟨_, .of_sink (properDependencies_eq_nil_iff.mpr hroot),
      .of_succ (.of_succ (.of_forall ?_))⟩
    intro depth
    rw [rootDependencies, hself, rootDependencyFinder, rootDependencyOf,
      rootDependencyOfHelper_root hroot, rootDependencyFinder]
    exact congrArg some (hconcat [t] [])
  · have hproper := properDependencies_eq hroot
    have hne := mt properDependencies_eq_nil_iff.mp hroot
    obtain ⟨branches, hdepth, hfinder⟩ := rootDependencyFinder_settles hconcat (dependencies t)
      fun d _ => rootDependencyOf_settles hconcat hacyclic d
    exact ⟨branches, .down hne (hproper ▸ hdepth), hfinder⟩

/-- A resource that declares nothing has no `RootDependencies`, though it is a root. -/
theorem rootDependencies_of_empty {t : R} (ht : dependencies t = []) (depth : Nat) :
    rootDependencies dependencies tupleConcat depth t = some [] := by
  rw [rootDependencies, ht, rootDependencyFinder]

/-! ### Cycles -/

theorem mem_of_proper {t d : R} (h : d ∈ properDependencies dependencies t) : d ∈ dependencies t := by
  rw [properDependencies] at h
  split at h
  · cases h
  · exact h

omit hconcat in
/-- The roots under a list of resources take the roots under each of them, less deep. -/
theorem rootDependencyFinder_some {depth : Nat} {ts roots : List R}
    (h : rootDependencyFinder dependencies tupleConcat depth ts = some roots) {t : R} (ht : t ∈ ts) :
    ∃ depth' < depth, ∃ roots', rootDependencyOf dependencies tupleConcat depth' t = some roots' := by
  induction ts generalizing depth roots with
  | nil => cases ht
  | cons u ts ih =>
      cases depth with
      | zero =>
          rw [rootDependencyFinder] at h
          cases h
      | succ depth =>
          rw [rootDependencyFinder] at h
          obtain ⟨first, hfirst, hbind⟩ := Option.bind_eq_some_iff.mp h
          obtain ⟨rest, hrest, -⟩ := Option.bind_eq_some_iff.mp hbind
          rcases List.mem_cons.mp ht with rfl | ht
          · exact ⟨depth, Nat.lt_succ_self depth, first, hfirst⟩
          · obtain ⟨depth', hlt, hroots⟩ := ih hrest ht
            exact ⟨depth', hlt.trans (Nat.lt_succ_self depth), hroots⟩

omit hconcat in
theorem rootDependencyOf_some (depth : Nat) (t : R) (roots : List R)
    (h : rootDependencyOf dependencies tupleConcat depth t = some roots) :
    ∀ d ∈ properDependencies dependencies t, ∃ depth' < depth, ∃ roots',
      rootDependencyOf dependencies tupleConcat depth' d = some roots' := by
  intro d hd
  cases depth with
  | zero =>
      rw [rootDependencyOf] at h
      cases h
  | succ depth =>
      have hproper : ¬ IsRoot dependencies t := fun hroot =>
        absurd (properDependencies_eq_nil_iff.mpr hroot) (List.ne_nil_of_mem hd)
      rw [rootDependencyOf, rootDependencyOfHelper_proper hproper] at h
      obtain ⟨depth', hlt, hroots⟩ := rootDependencyFinder_some h (mem_of_proper hd)
      exact ⟨depth', hlt.trans (Nat.lt_succ_self depth), hroots⟩

variable (tupleConcat) in
/-- The roots under a list of resources are there, where those under each of them are. -/
theorem exists_rootDependencyFinder (ts : List R)
    (h : ∀ t ∈ ts, ∃ roots, Settles (fun depth => rootDependencyOf dependencies tupleConcat depth t)
      roots) :
    ∃ roots, Settles (fun depth => rootDependencyFinder dependencies tupleConcat depth ts) roots := by
  induction ts with
  | nil => exact ⟨[], .of_forall fun depth => by rw [rootDependencyFinder]⟩
  | cons t ts ih =>
      obtain ⟨first, hfirst⟩ := h t List.mem_cons_self
      obtain ⟨rest, hrest⟩ := ih fun u hu => h u (List.mem_cons_of_mem t hu)
      refine ⟨tupleConcat first rest, .of_succ ?_⟩
      simp only [rootDependencyFinder]
      exact hfirst.bind (hrest.bind (.of_forall fun _ => rfl))

theorem exists_rootDependencyOf [Finite R] {t : R}
    (h : ¬ Cyclic (properDependencies dependencies) [t]) :
    ∃ roots, Settles (fun depth => rootDependencyOf dependencies tupleConcat depth t) roots := by
  induction acc_of_not_cyclic h with
  | intro t _ ih =>
      by_cases hroot : IsRoot dependencies t
      · refine ⟨[t], .of_succ (.of_forall fun depth => ?_)⟩
        rw [rootDependencyOf, rootDependencyOfHelper_root hroot]
      · have hproper := properDependencies_eq hroot
        obtain ⟨roots, hroots⟩ := exists_rootDependencyFinder tupleConcat (dependencies t) fun d hd => by
            have hedge : Edge (properDependencies dependencies) t d := by rwa [Edge, hproper]
            exact ih d hedge fun hcyclic => h (hcyclic.of_succ hedge)
        refine ⟨roots, .of_succ ?_⟩
        simp only [rootDependencyOf, rootDependencyOfHelper_proper hroot]
        exact hroots

/-- **A resource has `RootDependencies` exactly if it rests on no cycle**, but for those that declare
just themselves; over a cycle there is no instantiation of any depth. -/
theorem rootDependencies_exist_iff [Finite R] (tupleConcat : List R → List R → List R) (t : R) :
    (¬ Cyclic (properDependencies dependencies) [t] ↔
      ∃ roots, Settles (fun depth => rootDependencies dependencies tupleConcat depth t) roots) ∧
    (Cyclic (properDependencies dependencies) [t] ↔
      ∀ depth, rootDependencies dependencies tupleConcat depth t = none) := by
  have hnone : Cyclic (properDependencies dependencies) [t] →
      ∀ depth, rootDependencies dependencies tupleConcat depth t = none := by
    intro hcyclic depth
    obtain ⟨d, hd, hcyclic⟩ := hcyclic.exists_succ
    cases hroots : rootDependencies dependencies tupleConcat depth t with
    | none => rfl
    | some roots =>
        obtain ⟨depth', -, roots', hroots'⟩ := rootDependencyFinder_some hroots (mem_of_proper hd)
        rw [none_of_cyclic rootDependencyOf_some hcyclic depth'] at hroots'
        cases hroots'
  have hsome : ¬ Cyclic (properDependencies dependencies) [t] →
      ∃ roots, Settles (fun depth => rootDependencies dependencies tupleConcat depth t) roots := by
    intro hacyclic
    refine exists_rootDependencyFinder tupleConcat (dependencies t) fun d hd => ?_
    by_cases hself : dependencies t = [t]
    · obtain rfl := List.mem_singleton.mp (hself ▸ hd)
      exact exists_rootDependencyOf hacyclic
    · have hedge : Edge (properDependencies dependencies) t d := by
        rwa [Edge, properDependencies, if_neg hself]
      exact exists_rootDependencyOf fun hcyclic => hacyclic (hcyclic.of_succ hedge)
  have hboth : (∃ roots, Settles (fun depth => rootDependencies dependencies tupleConcat depth t) roots) →
      ¬ ∀ depth, rootDependencies dependencies tupleConcat depth t = none := by
    rintro ⟨roots, depth, hroots⟩ hall
    have hdepth : rootDependencies dependencies tupleConcat depth t = some roots :=
      hroots depth (Nat.le_refl depth)
    rw [hall depth] at hdepth
    cases hdepth
  exact ⟨⟨hsome, fun hexists hcyclic => hboth hexists (hnone hcyclic)⟩,
    ⟨hnone, fun hall => not_not.mp fun hacyclic => hboth (hsome hacyclic) hall⟩⟩

/-- Two resources that declare each other. -/
theorem rootDependencies_exist_iff_mutual :
    ¬ ∃ roots, Settles (fun depth => rootDependencies (fun b : Bool => [!b]) (· ++ ·) depth true) roots := by
  have hedge : ∀ b, (!b) ∈ properDependencies (fun b : Bool => [!b]) b := by decide
  have hcycle : Relation.TransGen (Edge (properDependencies fun b : Bool => [!b])) true true :=
    .head (hedge true) (.single (hedge false))
  exact fun hexists => (rootDependencies_exist_iff (· ++ ·) true).1.mpr hexists
    ⟨true, .of_mem (List.mem_singleton_self _), hcycle⟩

/-! ### Whose roots they are -/

/-- There is a path to each root that is reached. -/
theorem exists_path_iff {t root : R} :
    (∃ path, DependencyPath dependencies t path root) ↔
      IsRoot dependencies root ∧ Relation.ReflTransGen (Edge dependencies) t root := by
  rw [← properDependencies_eq_nil_iff, ← reaches_proper_iff]
  exact exists_leads_iff

/-- **`RootDependencies` is exact** on a finite graph without cycles: it has one root for each path, in
the order of the paths, and two resources share one when a root is reached from both. -/
theorem rootDependencies_exact [Finite R] (hconcat : ∀ as bs, tupleConcat as bs = as ++ bs)
    (hacyclic : Acyclic dependencies) :
    ∃ roots : R → List R, ∀ t, dependencies t ≠ [] →
      Settles (fun depth => rootDependencies dependencies tupleConcat depth t) (roots t) ∧
      (∃ branches, DepthFirst (DependencyPath dependencies t) branches ∧
        roots t = branches.map Prod.snd) ∧
      (∀ root, root ∈ roots t ↔
        IsRoot dependencies root ∧ Relation.ReflTransGen (Edge dependencies) t root) ∧
      ∀ u, dependencies u ≠ [] →
        ((roots t).Disjoint (roots u) ↔ ¬ ∃ root, IsRoot dependencies root ∧
          Relation.ReflTransGen (Edge dependencies) t root ∧
          Relation.ReflTransGen (Edge dependencies) u root) := by
  have hex : ∀ t, ∃ branches, dependencies t ≠ [] →
      DepthFirst (DependencyPath dependencies t) branches ∧
      Settles (fun depth => rootDependencies dependencies tupleConcat depth t)
        (branches.map Prod.snd) := by
    intro t
    by_cases ht : dependencies t = []
    · exact ⟨[], fun hne => absurd ht hne⟩
    · obtain ⟨branches, h⟩ := rootDependencies_settles hconcat hacyclic ht
      exact ⟨branches, fun _ => h⟩
  choose branches hbranches using hex
  have hmem : ∀ t, dependencies t ≠ [] → ∀ root, root ∈ (branches t).map Prod.snd ↔
      IsRoot dependencies root ∧ Relation.ReflTransGen (Edge dependencies) t root := fun t ht root =>
    (hbranches t ht).1.mem_ends_iff.trans exists_path_iff
  refine ⟨fun t => (branches t).map Prod.snd, fun t ht => ⟨(hbranches t ht).2,
    ⟨branches t, (hbranches t ht).1, rfl⟩, hmem t ht, fun u hu => ?_⟩⟩
  rw [List.disjoint_iff_ne]
  constructor
  · rintro hne ⟨root, hroot, htr, hur⟩
    exact hne root ((hmem t ht root).mpr ⟨hroot, htr⟩) root ((hmem u hu root).mpr ⟨hroot, hur⟩) rfl
  · rintro hno a ha b hb rfl
    obtain ⟨hroot, hta⟩ := (hmem t ht a).mp ha
    exact hno ⟨a, hroot, hta, ((hmem u hu a).mp hb).2⟩

end Graph

/-- Two pins, a bus over both and a device on the bus. -/
inductive Part where
  | pinA | pinB | bus | device
  deriving DecidableEq

instance : Fintype Part := ⟨{.pinA, .pinB, .bus, .device}, fun p => by cases p <;> simp⟩

/-- One pin declares itself, the other nothing. -/
def Part.dependencies : Part → List Part
  | .pinA => [.pinA]
  | .pinB => []
  | .bus => [.pinA, .pinB]
  | .device => [.bus]

def Part.rank : Part → Nat
  | .pinA | .pinB => 0
  | .bus => 1
  | .device => 2

theorem rootDependencies_exact_device :
    ∃ roots, Settles (fun depth => rootDependencies Part.dependencies (· ++ ·) depth .device) roots ∧
      Part.pinB ∈ roots := by
  have hrank : ∀ a, ∀ b ∈ properDependencies Part.dependencies a, b.rank < a.rank := by decide
  have hacyclic : Acyclic Part.dependencies := acyclic_of_rank Part.rank hrank
  obtain ⟨roots, hroots⟩ := rootDependencies_exact (fun _ _ => rfl) hacyclic
  obtain ⟨hsettles, -, hmem, -⟩ := hroots .device (by decide)
  have hbus : Edge Part.dependencies .device .bus := List.mem_singleton_self _
  have hpin : Edge Part.dependencies .bus .pinB := List.mem_cons_of_mem _ (List.mem_singleton_self _)
  exact ⟨roots .device, hsettles, (hmem .pinB).mpr ⟨.inr rfl, .head hbus (.single hpin)⟩⟩

end Grevir.Core
