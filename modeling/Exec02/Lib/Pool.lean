import Mathlib.Algebra.BigOperators.Group.List.Basic
import Mathlib.Algebra.Order.BigOperators.Group.List

/-!
# Totals over a pool of threads

What a number of threads have between them, when each of them has so much: counters they have raised
and not yet entered, values they have taken and not yet put down. A step of one thread changes one
summand.

## Main results

* `total_set` — one thread goes on
* `total_replicate`, `total_eq_of_forall` — all of them at the same place
-/

namespace Exec02

variable {τ M : Type*} [AddCommMonoid M]

/-- What the threads have between them. -/
def total (f : τ → M) (threads : List τ) : M := (threads.map f).sum

@[simp] theorem total_nil (f : τ → M) : total f [] = 0 := rfl

@[simp] theorem total_cons (f : τ → M) (t : τ) (threads : List τ) :
    total f (t :: threads) = f t + total f threads := List.sum_cons

/-- **One thread goes on**, from where it was to another place. -/
theorem total_set (f : τ → M) {threads : List τ} {n : ℕ} {t : τ} (h : threads[n]? = some t)
    (t' : τ) : total f (threads.set n t') + f t = total f threads + f t' := by
  induction threads generalizing n with
  | nil => simp at h
  | cons u threads ih =>
    cases n with
    | zero =>
      obtain rfl : u = t := by simpa using h
      rw [List.set_cons_zero, total_cons, total_cons, add_right_comm, add_comm (f t'),
        add_right_comm]
    | succ n =>
      have h : threads[n]? = some t := by simpa using h
      rw [List.set_cons_succ, total_cons, total_cons, add_assoc, ih h, add_assoc]

theorem total_replicate (f : τ → M) (n : ℕ) (t : τ) :
    total f (List.replicate n t) = n • f t := by
  rw [total, List.map_replicate, List.sum_replicate]

theorem total_eq_of_forall {f : τ → M} {threads : List τ} {t : τ} (h : ∀ u ∈ threads, u = t) :
    total f threads = threads.length • f t := by
  rw [List.eq_replicate_of_mem h, total_replicate, List.length_replicate]

theorem total_eq_zero_of_forall {f : τ → M} {threads : List τ} (h : ∀ t ∈ threads, f t = 0) :
    total f threads = 0 := by
  rw [total]
  refine List.sum_eq_zero ?_
  simpa using h

end Exec02
