import Mathlib.Data.List.Sort

/-!
# Sets kept in order

A finite set as the strictly increasing list of its elements, which is how an ordered container
is walked. The order is a field of the structure, so an insertion cannot leave it and an element
cannot be there twice.

## Main definitions

* `SortedSet` — the sets
* `SortedSet.insert`, `SortedSet.erase` — the two operations

## Main results

* `SortedSet.mem_insert`, `SortedSet.mem_erase` — what they do to membership
* `SortedSet.filter_eq` — a walk over the set meets each element once
-/

namespace Exec02

variable {α : Type*} [LinearOrder α]

/-- A finite set, as the strictly increasing list of its elements. -/
structure SortedSet (α : Type*) [LinearOrder α] where
  /-- The elements, in order. -/
  toList : List α
  sorted : toList.Pairwise (· < ·)
  deriving DecidableEq

namespace SortedSet

instance : Membership α (SortedSet α) := ⟨fun s a => a ∈ s.toList⟩

instance (a : α) (s : SortedSet α) : Decidable (a ∈ s) :=
  inferInstanceAs (Decidable (a ∈ s.toList))

/-- The empty set. -/
def empty : SortedSet α := ⟨[], .nil⟩

@[simp] theorem notMem_empty (a : α) : a ∉ (empty : SortedSet α) := List.not_mem_nil

/-- Put `a` in its place in an ordered list, unless it is there. -/
def place (a : α) : List α → List α
  | [] => [a]
  | b :: l => if a < b then a :: b :: l else if a = b then b :: l else b :: place a l

theorem mem_place {a b : α} {l : List α} : b ∈ place a l ↔ b = a ∨ b ∈ l := by
  induction l with
  | nil => simp [place]
  | cons c l ih =>
    rw [place]
    split_ifs with hlt heq
    · simp
    · subst heq
      simp
    · rw [List.mem_cons, ih, List.mem_cons, or_left_comm]

theorem place_sorted {a : α} {l : List α} (h : l.Pairwise (· < ·)) :
    (place a l).Pairwise (· < ·) := by
  induction l with
  | nil => simp [place]
  | cons b l ih =>
    obtain ⟨hb, hl⟩ := List.pairwise_cons.mp h
    rw [place]
    split_ifs with hlt heq
    · refine List.pairwise_cons.mpr ⟨?_, h⟩
      intro c hc
      rcases List.mem_cons.mp hc with rfl | hc
      · exact hlt
      · exact hlt.trans (hb c hc)
    · exact h
    · refine List.pairwise_cons.mpr ⟨?_, ih hl⟩
      intro c hc
      rcases mem_place.mp hc with rfl | hc
      · exact lt_of_le_of_ne (not_lt.mp hlt) (Ne.symm heq)
      · exact hb c hc

/-- Insert an element; nothing happens if it is there already. -/
def insert (a : α) (s : SortedSet α) : SortedSet α := ⟨place a s.toList, place_sorted s.sorted⟩

/-- Erase an element; nothing happens if it is not there. -/
def erase (a : α) (s : SortedSet α) : SortedSet α :=
  ⟨s.toList.erase a, s.sorted.sublist List.erase_sublist⟩

theorem nodup (s : SortedSet α) : s.toList.Nodup := s.sorted.imp ne_of_lt

@[simp] theorem mem_insert {a b : α} {s : SortedSet α} : b ∈ s.insert a ↔ b = a ∨ b ∈ s :=
  mem_place

@[simp] theorem mem_erase {a b : α} {s : SortedSet α} : b ∈ s.erase a ↔ b ≠ a ∧ b ∈ s :=
  s.nodup.mem_erase_iff

/-- **A walk meets each element once.** -/
theorem filter_eq (a : α) (s : SortedSet α) :
    s.toList.filter (· = a) = if a ∈ s then [a] else [] := by
  rw [List.filter_eq]
  by_cases h : a ∈ s
  · rw [if_pos h, List.count_eq_one_of_mem s.nodup h]
    rfl
  · rw [if_neg h, List.count_eq_zero.mpr h]
    rfl

end SortedSet

end Exec02
