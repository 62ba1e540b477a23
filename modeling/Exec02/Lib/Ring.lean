import Mathlib.Data.Int.ModEq
import Mathlib.Data.List.Range
import Mathlib.Logic.Function.Basic

/-!
# Windows of a ring

A ring of `n` cells is a memory read at indices modulo `n`, and its contents are a window: `count`
consecutive cells from `front` on, wrapping around as often as need be. A bounded queue kept in
such a ring only ever does two things to its window, extend it by a cell at the back and drop a
cell at the front, and these are the two lemmas.

## Main definitions

* `window` — the elements of a window, first cell first

## Main results

* `window_snoc` — writing behind a window that does not fill the ring appends to it
* `window_cons` — a non-empty window is its first cell and the window one further on
-/

namespace Exec02

variable {β : Type*}

/-- The elements in `count` consecutive cells of a ring of `n` cells, from `front` on. -/
def window (cell : ℤ → β) (n front : ℤ) (count : ℕ) : List β :=
  (List.range count).map fun i : ℕ => cell ((front + i) % n)

@[simp] theorem length_window (cell : ℤ → β) (n front : ℤ) (count : ℕ) :
    (window cell n front count).length = count := by
  simp [window]

/-- Two cells less than a turn apart are different cells. -/
theorem emod_ne_of_lt {n front i j : ℤ} (hi : 0 ≤ i) (hij : i < j) (hj : j < n) :
    (front + i) % n ≠ (front + j) % n := by
  intro heq
  have hdvd : n ∣ (front + j) - (front + i) := Int.ModEq.dvd heq
  have hle := Int.le_of_dvd (by omega) hdvd
  omega

/-- **Extending a window.** Writing the cell right behind a window that does not fill the ring
appends the value written and disturbs nothing in the window. -/
theorem window_snoc (cell : ℤ → β) (front : ℤ) {n : ℤ} {count : ℕ} (hn : (count : ℤ) < n) (v : β) :
    window (Function.update cell ((front + count) % n) v) n front (count + 1) =
      window cell n front count ++ [v] := by
  rw [window, List.range_succ, List.map_append, List.map_singleton, Function.update_self, window]
  congr 1
  refine List.map_congr_left fun i hi => Function.update_of_ne ?_ ..
  have hi : (i : ℤ) < count := by exact_mod_cast List.mem_range.mp hi
  exact emod_ne_of_lt (by omega) hi hn

/-- **Shortening a window.** Its first element is in the cell at `front`, and the rest is the window
that starts one cell further on. -/
theorem window_cons (cell : ℤ → β) (n front : ℤ) (count : ℕ) :
    window cell n front (count + 1) =
      cell (front % n) :: window cell n ((front + 1) % n) count := by
  rw [window, List.range_succ_eq_map, List.map_cons, List.map_map, window]
  congr 1
  · simp
  · refine List.map_congr_left ?_
    intro i _
    simp only [Function.comp_apply, Nat.cast_succ]
    rw [Int.emod_add_emod, add_assoc, add_comm 1 (i : ℤ)]

end Exec02
