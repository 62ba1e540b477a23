import Mathlib.Algebra.Ring.Int.Defs
import Mathlib.Data.List.Basic
import Mathlib.Data.List.Perm.Basic

/-!
# Comparisons, and stable sorting

A comparison answers a negative number, zero or a positive one, and `TotalPreorder` says that it
does so consistently. A list is a stable sort of another when it has the same entries, in order, and
equivalent ones follow each other as they did.

## Main definitions

* `TotalPreorder` — comparisons that order their arguments
* `IsStableSort` — in order, and equivalent entries as they were

## Main results

* `IsStableSort.insert` — an entry put behind the last one that is not greater
-/

namespace Exec02

variable {α : Type*} {compare : α → α → ℤ} {x y z : α}

/-- A comparison that is a total preorder: zero for equivalent entries, and with its arguments
changed round the other sign. -/
structure TotalPreorder (compare : α → α → ℤ) : Prop where
  /-- What is greater one way is less the other. -/
  pos_iff : ∀ x y, 0 < compare x y ↔ compare y x < 0
  /-- Not being greater is transitive. -/
  trans : ∀ {x y z}, compare x y ≤ 0 → compare y z ≤ 0 → compare x z ≤ 0

namespace TotalPreorder

/-- Comparing by a number that belongs to each entry. -/
theorem of_key (key : α → ℤ) : TotalPreorder fun x y => key x - key y :=
  ⟨fun x y => by omega, fun {x y z} hxy hyz => by omega⟩

theorem self_eq_zero (h : TotalPreorder compare) (x : α) : compare x x = 0 := by
  have hflip := h.pos_iff x x
  omega

theorem neg_iff (h : TotalPreorder compare) (x y : α) : compare x y < 0 ↔ 0 < compare y x :=
  (h.pos_iff y x).symm

theorem eq_zero_iff (h : TotalPreorder compare) (x y : α) : compare x y = 0 ↔ compare y x = 0 := by
  have h₁ := h.pos_iff x y
  have h₂ := h.pos_iff y x
  omega

theorem nonpos_iff (h : TotalPreorder compare) (x y : α) : compare x y ≤ 0 ↔ 0 ≤ compare y x := by
  have h₁ := h.pos_iff x y
  omega

/-- What is less than something not greater than `z` is less than `z`. -/
theorem neg_of_neg_of_nonpos (h : TotalPreorder compare) (hxy : compare x y < 0)
    (hyz : compare y z ≤ 0) : compare x z < 0 := by
  by_contra hzx
  -- otherwise `z`, and so `y`, is not greater than `x`
  have hyx := h.trans hyz ((h.nonpos_iff z x).mpr (Int.not_lt.mp hzx))
  have hpos := (h.neg_iff x y).mp hxy
  omega

theorem pos_of_pos_of_nonpos (h : TotalPreorder compare) (hxy : 0 < compare x y)
    (hxz : compare x z ≤ 0) : 0 < compare z y := by
  have hyx := (h.pos_iff x y).mp hxy
  exact (h.pos_iff z y).mpr (h.neg_of_neg_of_nonpos hyx hxz)

end TotalPreorder

/-- `l'` is a stable sort of `l`. -/
structure IsStableSort (compare : α → α → ℤ) (l l' : List α) : Prop where
  /-- In order. -/
  sorted : l'.Pairwise fun x y => compare x y ≤ 0
  /-- Equivalent entries are as they were. -/
  stable : ∀ x, l'.filter (compare x · = 0) = l.filter (compare x · = 0)

namespace IsStableSort

theorem nil (compare : α → α → ℤ) : IsStableSort compare [] [] := ⟨.nil, fun _ => rfl⟩

/-- **Insertion.** An entry put where everything behind it is greater, and what is in front of it is
not, is sorted in stably. -/
theorem insert (hcompare : TotalPreorder compare) {l l₁ l₂ : List α} {key : α}
    (h : IsStableSort compare l (l₁ ++ l₂)) (hle : ∀ x ∈ l₁.getLast?, compare x key ≤ 0)
    (hgt : ∀ x ∈ l₂, 0 < compare x key) :
    IsStableSort compare (l ++ [key]) (l₁ ++ key :: l₂) := by
  have hsorted := List.pairwise_append.mp h.sorted
  constructor
  · refine List.pairwise_append.mpr ⟨hsorted.1, List.pairwise_cons.mpr ⟨?_, hsorted.2.1⟩, ?_⟩
    · intro x hx
      have hneg := (hcompare.pos_iff x key).mp (hgt x hx)
      omega
    · -- what is in front is not greater than the last of it
      have hkey : ∀ x ∈ l₁, compare x key ≤ 0 := by
        rcases List.eq_nil_or_concat' l₁ with rfl | ⟨front, last, rfl⟩
        · exact fun _ => nofun
        · have hlast := hle last (by simp)
          intro x hx
          rcases List.mem_append.mp hx with hx | hx
          · have hfront := (List.pairwise_append.mp hsorted.1).2.2 x hx last (by simp)
            exact hcompare.trans hfront hlast
          · rwa [List.mem_singleton.mp hx]
      intro x hx y hy
      rcases List.mem_cons.mp hy with rfl | hy
      · exact hkey x hx
      · exact hsorted.2.2 x hx y hy
  · intro x
    rw [List.filter_append, List.filter_append, ← h.stable x, List.filter_append]
    by_cases hx : compare x key = 0
    · -- nothing behind the entry is equivalent to it
      have hnone : l₂.filter (compare x · = 0) = [] := by
        refine List.filter_eq_nil_iff.mpr ?_
        intro y hy
        have hpos := hgt y hy
        have hyx := hcompare.pos_of_pos_of_nonpos hpos (z := x)
        simp only [decide_eq_true_eq]
        intro hxy
        have hyx' := (hcompare.eq_zero_iff x y).mp hxy
        have := hyx (Int.le_of_eq hyx')
        omega
      rw [List.filter_cons_of_pos (by simpa using hx), hnone]
      simp [hx]
    · simp [hx]

end IsStableSort

end Exec02
