import Grevir.Support.Preorder
import Grevir.Core.ResourceClaims

/-!
# Core — Module

Modules, their parameters and dependencies, the closure of an application's roots, and `Runner`.

A module is a type; what it declares is a `Module`, and a program's modules are a finite type `M`
with a declaration for each.  `TypeArgs` lists are lists: `cat` appends and `catr` prepends.
`RemoveAll` comes from a library whose code is elsewhere, so it is a parameter: whatever list it
answers with, that list has the members of the first list that are not in the second.

* `mem_moduleClosure`: the closure has what the roots reach.
* `nodup_moduleClosure`: each module once.
-/

namespace Grevir.Core

variable {M Name Use : Type}

/-- `setl::RemoveAll`. -/
structure RemoveAll (M : Type) where
  remove : List M → List M → List M
  mem_remove : ∀ {as bs : List M} {x : M}, x ∈ remove as bs ↔ x ∈ as ∧ x ∉ bs

/-- The `RemoveAll` that keeps the rest in place. -/
def RemoveAll.inPlace [DecidableEq M] : RemoveAll M where
  remove as bs := as.filter (· ∉ bs)
  mem_remove := by simp

/-- A module parameter: its `Deps`, where it declares any, and the resources of its `Claims`. -/
structure Parameter (M Name Use : Type) where
  deps : Option (List M)
  claims : List (Resource Name Use)

/-- `ModuleBase`: the dependencies declared on the module itself, and its parameters. -/
structure Module (M Name Use : Type) where
  implicitDeps : List M
  params : List (Parameter M Name Use)

/-- `DepsOf`: `EmptyDeps` where the parameter has none. -/
def Parameter.depsOf (p : Parameter M Name Use) : List M :=
  match p.deps with
  | some deps => deps
  | none => []

def depsFromParams : List (Parameter M Name Use) → List M
  | [] => []
  | p :: ps => p.depsOf ++ depsFromParams ps

def Module.deps (m : Module M Name Use) : List M := m.implicitDeps ++ depsFromParams m.params

/-! ### The closure -/

section Closure

/-- `ModuleClosureVa`: take the first module, and go on with its dependencies and the rest, less
what is taken.  Only a first list can hold a module that is taken already. -/
def moduleClosureVa [Fintype M] [DecidableEq M] (removeAll : RemoveAll M) (deps : M → List M)
    (contained : List M) : List M → List M
  | [] => contained
  | t :: ms =>
      let newContained := contained ++ [t]
      moduleClosureVa removeAll deps newContained (removeAll.remove (deps t ++ ms) newContained)
termination_by ms =>
  2 * (Finset.univ \ contained.toFinset).card + if ∃ x ∈ ms, x ∈ contained then 1 else 0
decreasing_by
  have hrest : ¬ ∃ x ∈ removeAll.remove (deps t ++ ms) (contained ++ [t]), x ∈ contained ++ [t] := by
    rintro ⟨x, hx, hc⟩
    exact (removeAll.mem_remove.mp hx).2 hc
  rw [if_neg hrest]
  by_cases ht : t ∈ contained
  · have hsame : (contained ++ [t]).toFinset = contained.toFinset := by
      ext x
      simp only [List.mem_toFinset, List.mem_append, List.mem_singleton]
      exact or_iff_left_of_imp fun e => e ▸ ht
    rw [hsame, if_pos ⟨t, List.mem_cons_self, ht⟩]
    exact Nat.lt_succ_self _
  · have hlt := Digraph.card_new_lt ht (List.Subset.refl (contained ++ [t]))
    omega

variable [Fintype M] [DecidableEq M] (removeAll : RemoveAll M) (deps : M → List M)

def moduleClosure (roots : List M) : List M := moduleClosureVa removeAll deps [] roots

/-- What the loop has taken, and what it has still to look at. -/
structure Worklist (contained ms : List M) : Prop where
  nodup : contained.Nodup
  new : ∀ x ∈ ms, x ∉ contained
  closed : ∀ x ∈ contained, ∀ d ∈ deps x, d ∈ contained ∨ d ∈ ms

variable {deps}

omit [Fintype M] [DecidableEq M] in
theorem Worklist.step {contained ms : List M} {t : M} (h : Worklist deps contained (t :: ms)) :
    Worklist deps (contained ++ [t]) (removeAll.remove (deps t ++ ms) (contained ++ [t])) where
  nodup := by
    refine List.nodup_append.mpr ⟨h.nodup, List.nodup_singleton t, fun x hx y hy e => ?_⟩
    obtain rfl := List.mem_singleton.mp hy
    exact h.new y List.mem_cons_self (e ▸ hx)
  new x hx := (removeAll.mem_remove.mp hx).2
  closed x hx d hd := by
    by_cases hc : d ∈ contained ++ [t]
    · exact .inl hc
    · refine .inr (removeAll.mem_remove.mpr ⟨?_, hc⟩)
      rcases List.mem_append.mp hx with hx | hx
      · rcases h.closed x hx d hd with hd | hd
        · exact absurd (List.mem_append_left _ hd) hc
        · rcases List.mem_cons.mp hd with rfl | hd
          · exact absurd (by simp) hc
          · exact List.mem_append_right _ hd
      · obtain rfl := List.mem_singleton.mp hx
        exact List.mem_append_left _ hd

/-- The loop ends with what it has taken and what the rest reaches, each once. -/
theorem moduleClosureVa_spec {contained ms : List M} (h : Worklist deps contained ms) :
    Worklist deps (moduleClosureVa removeAll deps contained ms) [] ∧
      (∀ x, x ∈ contained ∨ x ∈ ms → x ∈ moduleClosureVa removeAll deps contained ms) ∧
      ∀ x ∈ moduleClosureVa removeAll deps contained ms,
        x ∈ contained ∨ Digraph.Reaches deps ms x := by
  induction contained, ms using moduleClosureVa.induct removeAll deps with
  | case1 contained =>
      rw [moduleClosureVa]
      exact ⟨h, fun x hx => hx.resolve_right (by simp), fun x hx => .inl hx⟩
  | case2 contained t ms newContained ih =>
      rw [moduleClosureVa]
      obtain ⟨hw, hin, hout⟩ := ih (h.step removeAll)
      refine ⟨hw, fun x hx => ?_, fun x hx => ?_⟩
      · by_cases hc : x ∈ contained ++ [t]
        · exact hin x (.inl hc)
        · refine hin x (.inr (removeAll.mem_remove.mpr ⟨?_, hc⟩))
          rcases hx with hx | hx
          · exact absurd (List.mem_append_left _ hx) hc
          · rcases List.mem_cons.mp hx with rfl | hx
            · exact absurd (by simp) hc
            · exact List.mem_append_right _ hx
      · rcases hout x hx with hx | ⟨r, hr, hrx⟩
        · rcases List.mem_append.mp hx with hx | hx
          · exact .inl hx
          · exact .inr (.of_mem (by simp [List.mem_singleton.mp hx]))
        · right
          rcases List.mem_append.mp (removeAll.mem_remove.mp hr).1 with hr | hr
          · exact (Digraph.Reaches.of_succ ⟨r, hr, hrx⟩).mono (by simp)
          · exact ⟨r, List.mem_cons_of_mem _ hr, hrx⟩

/-- **The closure has what the roots reach.** -/
theorem mem_moduleClosure {roots : List M} {x : M} :
    x ∈ moduleClosure removeAll deps roots ↔ Digraph.Reaches deps roots x := by
  have h0 : Worklist deps [] roots := ⟨List.nodup_nil, by simp, by simp⟩
  obtain ⟨hw, hin, hout⟩ := moduleClosureVa_spec removeAll h0
  constructor
  · intro hx
    exact (hout x hx).resolve_left (by simp)
  · intro hx
    exact hx.mem_of_closed (fun r hr => hin r (.inr hr))
      (fun a ha b hb => (hw.closed a ha b hb).resolve_right (by simp))

theorem nodup_moduleClosure (roots : List M) : (moduleClosure removeAll deps roots).Nodup :=
  (moduleClosureVa_spec removeAll ⟨List.nodup_nil, by simp, by simp⟩).1.nodup

end Closure

/-! ### `Runner` -/

/-- The static functions a runner calls. -/
inductive Callback (M : Type) where
  | paramsSetup (m : M)
  | paramsLoop (m : M)
  | runSetup (m : M)
  | runLoop (m : M)
  deriving DecidableEq

namespace Runner

/-- One of the functions of `Runner`: the rest of the list first, then its own module. -/
def run (call : M → Callback M) : List M → List (Callback M)
  | [] => []
  | s :: ts => run call ts ++ [call s]

def runParamsSetup : List M → List (Callback M) := run .paramsSetup

def runParamsLoop : List M → List (Callback M) := run .paramsLoop

def runSetup : List M → List (Callback M) := run .runSetup

def runLoop : List M → List (Callback M) := run .runLoop

/-- A runner calls its list backwards. -/
theorem run_eq (call : M → Callback M) (ms : List M) : run call ms = (ms.map call).reverse := by
  induction ms with
  | nil => rfl
  | cons m ms ih => rw [run, ih, List.map_cons, List.reverse_cons]

end Runner

end Grevir.Core
