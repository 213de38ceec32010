import Grevir.Support.Digraph
import Mathlib.Data.Fintype.Card
import Mathlib.Data.Finset.Card

/-!
# Support — Preorder

The depth-first traversal of a finite directed graph by recursion, with the list of nodes visited so
far: a node that is new is visited, then its successors, then the nodes after it.

* `visit_append`: a list is traversed from where the list before it left off.
* `visit_filter`: nodes that are visited already may be left out.
-/

namespace Digraph

variable {α : Type*}

/-- A visit leaves fewer nodes new. -/
theorem card_new_lt [Fintype α] [DecidableEq α] {visited later : List α} {a : α}
    (ha : a ∉ visited) (hlater : visited ++ [a] ⊆ later) :
    (Finset.univ \ later.toFinset).card < (Finset.univ \ visited.toFinset).card := by
  refine Finset.card_lt_card (Finset.ssubset_iff_of_subset (fun x hx => ?_) |>.mpr ⟨a, ?_, ?_⟩)
  · rw [Finset.mem_sdiff, List.mem_toFinset] at hx ⊢
    exact ⟨hx.1, fun h => hx.2 (hlater (List.mem_append_left _ h))⟩
  · simpa using ha
  · simpa using hlater (by simp)

/-- The nodes visited once the nodes of a list are, in the order of their first visits. -/
def visit [Fintype α] [DecidableEq α] (succ : α → List α) (visited : List α) :
    (nodes : List α) → { later : List α // visited ⊆ later }
  | [] => ⟨visited, List.Subset.refl _⟩
  | a :: rest =>
      if _ : a ∈ visited then visit succ visited rest
      else
        let below := visit succ (visited ++ [a]) (succ a)
        let later := visit succ below.1 rest
        ⟨later.1, fun x hx => later.2 (below.2 (List.mem_append_left _ hx))⟩
termination_by nodes => ((Finset.univ \ visited.toFinset).card, nodes.length)
decreasing_by
  · exact Prod.Lex.right _ (Nat.lt_succ_self _)
  · exact Prod.Lex.left _ _ (card_new_lt ‹_› (List.Subset.refl _))
  · exact Prod.Lex.left _ _ (card_new_lt ‹_› below.2)

variable [Fintype α] [DecidableEq α] (succ : α → List α)

/-- The nodes that some roots reach, in depth-first preorder. -/
def preorder (roots : List α) : List α := (visit succ [] roots).1

variable {succ} {visited : List α}

theorem visit_nil : (visit succ visited []).1 = visited := by
  rw [visit]

theorem visit_visited {a : α} {rest : List α} (h : a ∈ visited) :
    (visit succ visited (a :: rest)).1 = (visit succ visited rest).1 := by
  rw [visit, dif_pos h]

theorem visit_new {a : α} {rest : List α} (h : a ∉ visited) :
    (visit succ visited (a :: rest)).1 =
      (visit succ (visit succ (visited ++ [a]) (succ a)).1 rest).1 := by
  rw [visit, dif_neg h]

theorem visit_append (nodes rest : List α) :
    (visit succ visited (nodes ++ rest)).1 = (visit succ (visit succ visited nodes).1 rest).1 := by
  induction nodes generalizing visited with
  | nil => rw [List.nil_append, visit_nil]
  | cons a nodes ih =>
      rw [List.cons_append]
      by_cases h : a ∈ visited
      · rw [visit_visited h, visit_visited h, ih]
      · rw [visit_new h, visit_new h, ih]

theorem visit_filter {seen : List α} (hseen : seen ⊆ visited) (nodes : List α) :
    (visit succ visited (nodes.filter (· ∉ seen))).1 = (visit succ visited nodes).1 := by
  induction nodes generalizing visited with
  | nil => rfl
  | cons a nodes ih =>
      by_cases hdropped : a ∈ seen
      · rw [List.filter_cons, if_neg (by simpa using hdropped), visit_visited (hseen hdropped),
          ih hseen]
      · rw [List.filter_cons, if_pos (by simpa using hdropped)]
        by_cases h : a ∈ visited
        · rw [visit_visited h, visit_visited h, ih hseen]
        · have hlater : seen ⊆ (visit succ (visited ++ [a]) (succ a)).1 := fun x hx =>
            (visit succ (visited ++ [a]) (succ a)).2 (List.mem_append_left _ (hseen hx))
          rw [visit_new h, visit_new h, ih hlater]

end Digraph
