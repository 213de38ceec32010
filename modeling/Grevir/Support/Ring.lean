import Mathlib.Data.Nat.ModEq
import Mathlib.Order.Basic
import Mathlib.Logic.Function.Basic
import Mathlib.Tactic.Common

/-!
# Support — Ring

The window of a ring: the `n` cells of a store of `c` cells that start at cell `h` and wrap at
`c`, in order.  A push writes the cell after the window and appends to it; a pop moves the start
by one cell and drops the first.  No operation touches a cell of the window it keeps.
-/

namespace Ring

variable {α : Type*}

/-- The cell `i` places after the start `h`, in a ring of `c` cells. -/
def cell (c h i : Nat) : Nat := (h + i) % c

theorem cell_lt {c : Nat} (hc : 0 < c) (h i : Nat) : cell c h i < c := Nat.mod_lt _ hc

/-- Two places less than a revolution apart are two cells. -/
theorem cell_inj {c h i j : Nat} (hi : i < c) (hj : j < c) (e : cell c h i = cell c h j) :
    i = j := by
  have e' : i % c = j % c := Nat.ModEq.add_left_cancel rfl e
  rwa [Nat.mod_eq_of_lt hi, Nat.mod_eq_of_lt hj] at e'

/-- The start moved by one cell. -/
theorem cell_succ (c h i : Nat) : cell c (cell c h 1) i = cell c h (i + 1) := by
  simp only [cell, Nat.mod_add_mod]
  congr 1
  omega

/-- The `n` cells from `h` on, in order. -/
def window (c h n : Nat) (store : Nat → α) : List α :=
  (List.range n).map fun i => store (cell c h i)

@[simp] theorem length_window (c h n : Nat) (store : Nat → α) :
    (window c h n store).length = n := by simp [window]

@[simp] theorem window_zero (c h : Nat) (store : Nat → α) : window c h 0 store = [] := rfl

/-- **Push**: writing the cell after a window that leaves one free appends to it. -/
theorem window_push {c h n : Nat} (hn : n < c) (store : Nat → α) (x : α) :
    window c h (n + 1) (Function.update store (cell c h n) x) = window c h n store ++ [x] := by
  simp only [window, List.range_succ, List.map_append, List.map_cons, List.map_nil,
    Function.update_self]
  refine congrArg (· ++ [x]) (List.map_congr_left fun i hi => ?_)
  have hin : i < n := List.mem_range.mp hi
  exact Function.update_of_ne
    (fun e => (Nat.ne_of_lt hin) (cell_inj (Nat.lt_trans hin hn) hn e)) _ _

/-- **Pop**: the first cell, and the window from the next one on. -/
theorem window_pop (c h n : Nat) (store : Nat → α) :
    window c h (n + 1) store = store (cell c h 0) :: window c (cell c h 1) n store := by
  simp only [window, List.range_succ_eq_map, List.map_cons, List.map_map]
  refine congrArg _ (List.map_congr_left fun i _ => ?_)
  simp only [Function.comp_apply, cell_succ]

end Ring
