import Grevir.Support.Preorder
import Grevir.Core.Application

/-!
# Core — ModuleClosure

The order of a closure.  `ModuleClosureVa` keeps one list of what is still to be looked at, with a
module's dependencies before the rest; the traversal by recursion visits the dependencies, then the
rest.  They agree where `RemoveAll` deletes in place, as a visit to a list is a visit to its first
part, then to its second (`Digraph.visit_append`), and a module already visited may be left out
(`Digraph.visit_filter`).

* `moduleClosureVa_eq_visit`: the loop ends with what the traversal visits.
* `module_closure_exact`: the closure is what the roots reach, once each, in preorder.
-/

namespace Grevir.Core

variable {M Name Use : Type}

theorem depsFromParams_eq (ps : List (Parameter M Name Use)) :
    depsFromParams ps = ps.flatMap Parameter.depsOf := by
  induction ps with
  | nil => rfl
  | cons p ps ih => rw [depsFromParams, ih, List.flatMap_cons]

/-- A module's dependencies: its implicit ones, then those of its parameters. -/
theorem Module.deps_eq (m : Module M Name Use) :
    m.deps = m.implicitDeps ++ m.params.flatMap Parameter.depsOf := by
  rw [Module.deps, depsFromParams_eq]

variable [Fintype M] [DecidableEq M]

/-- **The loop ends with what the traversal visits.** -/
theorem moduleClosureVa_eq_visit {removeAll : RemoveAll M} {deps : M → List M}
    (hdelete : ∀ as bs, removeAll.remove as bs = as.filter (· ∉ bs)) {contained ms : List M}
    (hnew : ∀ x ∈ ms, x ∉ contained) :
    moduleClosureVa removeAll deps contained ms = (Digraph.visit deps contained ms).1 := by
  induction contained, ms using moduleClosureVa.induct removeAll deps with
  | case1 contained => rw [moduleClosureVa, Digraph.visit_nil]
  | case2 contained t ms newContained ih =>
      have hrest : ∀ x ∈ removeAll.remove (deps t ++ ms) newContained, x ∉ newContained :=
        fun x hx => (removeAll.mem_remove.mp hx).2
      calc moduleClosureVa removeAll deps contained (t :: ms)
          = moduleClosureVa removeAll deps newContained
              (removeAll.remove (deps t ++ ms) newContained) := by rw [moduleClosureVa]
        _ = (Digraph.visit deps newContained
              (removeAll.remove (deps t ++ ms) newContained)).1 := ih hrest
        _ = (Digraph.visit deps newContained (deps t ++ ms)).1 := by
              rw [hdelete, Digraph.visit_filter (List.Subset.refl _)]
        _ = (Digraph.visit deps contained (t :: ms)).1 := by
              rw [Digraph.visit_append, Digraph.visit_new (hnew t List.mem_cons_self)]

/-- **A closure is exact, and stands in preorder.** -/
theorem module_closure_exact (removeAll : RemoveAll M) (modules : M → Module M Name Use)
    (roots : List M) (hdelete : ∀ as bs, removeAll.remove as bs = as.filter (· ∉ bs)) :
    let deps := Application.deps modules
    let closure := moduleClosure removeAll deps roots
    (∀ m, deps m = (modules m).implicitDeps ++ (modules m).params.flatMap Parameter.depsOf) ∧
      closure.Nodup ∧ (∀ m, m ∈ closure ↔ Digraph.Reaches deps roots m) ∧
      closure = Digraph.preorder deps roots := by
  intro deps closure
  refine ⟨fun m => Module.deps_eq (modules m), nodup_moduleClosure removeAll roots,
    fun m => mem_moduleClosure removeAll, ?_⟩
  exact moduleClosureVa_eq_visit hdelete (by simp)

/-- A left and a right module over one leaf, which depends on the left one through a parameter. -/
def diamond : Fin 3 → Module (Fin 3) Unit Unit
  | 0 => ⟨[2], []⟩
  | 1 => ⟨[2], []⟩
  | 2 => ⟨[], [⟨none, []⟩, ⟨some [0], []⟩]⟩

theorem module_closure_exact_diamond :
    moduleClosure RemoveAll.inPlace (Application.deps diamond) [0, 1, 2, 1] = [0, 2, 1] ∧
      moduleClosure RemoveAll.inPlace (Application.deps diamond) [0, 1, 2, 1] =
        Digraph.preorder (Application.deps diamond) [0, 1, 2, 1] := by
  refine ⟨?_, (module_closure_exact RemoveAll.inPlace diamond [0, 1, 2, 1]
    fun as bs => rfl).2.2.2⟩
  simp [moduleClosure, moduleClosureVa, RemoveAll.inPlace, Application.deps, diamond, Module.deps,
    depsFromParams, Parameter.depsOf]

end Grevir.Core
