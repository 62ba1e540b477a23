import Mathlib.Data.Finset.Card
import Mathlib.Data.Finset.SDiff
import Mathlib.Logic.Function.Basic

/-!
# Owners of blocks

Objects that have one block each, or none: an object that goes is to free its block, and one that
is given another block is to free the first. Where it does not, the block is lost; it stays live and
nobody can free it any more. `Owners` says that every live block is owned or lost, and not by two.

## Main results

* `Owners.acquire`, `Owners.release`, `Owners.lose` — what can happen to a block
* `Owners.card_live` — how many blocks are live
* `Owners.live_eq` — and which, when nobody has one
-/

namespace Exec02

variable {ι α : Type*} {own : ι → Option α} {lost : List α} {live : Finset α} {i j : ι} {a b : α}

/-- Every live block belongs to one owner, or has been lost. -/
structure Owners (own : ι → Option α) (lost : List α) (live : Finset α) : Prop where
  /-- No block has two owners. -/
  unique {i j : ι} {a : α} : own i = some a → own j = some a → i = j
  live_iff {a : α} : a ∈ live ↔ (∃ i, own i = some a) ∨ a ∈ lost
  /-- No block is lost twice. -/
  nodup : lost.Nodup
  /-- What is lost has no owner. -/
  notMem {i : ι} {a : α} : own i = some a → a ∉ lost

namespace Owners

theorem empty : Owners (fun _ : ι => (none : Option α)) [] ∅ where
  unique := by simp
  live_iff := by simp
  nodup := .nil
  notMem := by simp

theorem mem_live (h : Owners own lost live) (hi : own i = some a) : a ∈ live :=
  h.live_iff.mpr (.inl ⟨i, hi⟩)

theorem ne_of_ne (h : Owners own lost live) (hi : own i = some a) (hij : j ≠ i) :
    own j ≠ some a :=
  fun hj => hij (h.unique hj hi)

/-- **How many blocks.** There is one for each owner, and those that were lost. -/
theorem card_live [DecidableEq α] (h : Owners own lost live) (owners : Finset ι)
    (howners : ∀ i, i ∈ owners ↔ ∃ a, own i = some a) :
    live.card = owners.card + lost.length := by
  have hsub : lost.toFinset ⊆ live := by
    intro a ha
    exact h.live_iff.mpr (.inr (List.mem_toFinset.mp ha))
  have hbij : owners.card = (live \ lost.toFinset).card := by
    refine Finset.card_bij (fun i hi => ((howners i).mp hi).choose) ?_ ?_ ?_
    · intro i hi
      have hown := ((howners i).mp hi).choose_spec
      rw [Finset.mem_sdiff, List.mem_toFinset]
      exact ⟨h.mem_live hown, h.notMem hown⟩
    · intro i hi j hj heq
      have hown := ((howners i).mp hi).choose_spec
      rw [heq] at hown
      exact h.unique hown ((howners j).mp hj).choose_spec
    · intro a ha
      rw [Finset.mem_sdiff, List.mem_toFinset] at ha
      obtain ⟨i, hi⟩ := (h.live_iff.mp ha.1).resolve_right ha.2
      have hmem := (howners i).mpr ⟨a, hi⟩
      have hown := ((howners i).mp hmem).choose_spec
      exact ⟨i, hmem, Option.some.inj (hown.symm.trans hi)⟩
  rw [hbij, ← List.toFinset_card_of_nodup h.nodup, Finset.card_sdiff_add_card_eq_card hsub]

/-- **Leaks.** When nobody has a block any more, what is live are those that were lost. -/
theorem live_eq [DecidableEq α] (h : Owners own lost live) (hnone : ∀ i, own i = none) :
    live = lost.toFinset := by
  ext a
  rw [h.live_iff, List.mem_toFinset, or_iff_right]
  rintro ⟨i, hi⟩
  rw [hnone i] at hi
  cases hi

/-! ### What can happen -/

variable [DecidableEq ι]

/-- Somebody who has none is given a block. -/
theorem acquire [DecidableEq α] (h : Owners own lost live) (hi : own i = none) (ha : a ∉ live) :
    Owners (Function.update own i (some a)) lost (insert a live) where
  unique := by
    intro j k b hj hk
    simp only [Function.update_apply] at hj hk
    split_ifs at hj hk with hji hki hki
    · rw [hji, hki]
    · rw [Option.some.inj hj] at ha
      exact absurd (h.mem_live hk) ha
    · rw [Option.some.inj hk] at ha
      exact absurd (h.mem_live hj) ha
    · exact h.unique hj hk
  live_iff := by
    intro b
    rw [Finset.mem_insert, h.live_iff]
    constructor
    · rintro (rfl | ⟨j, hj⟩ | hb)
      · exact .inl ⟨i, Function.update_self ..⟩
      · refine .inl ⟨j, ?_⟩
        rw [Function.update_of_ne, hj]
        rintro rfl
        rw [hi] at hj
        cases hj
      · exact .inr hb
    · rintro (⟨j, hj⟩ | hb)
      · rw [Function.update_apply] at hj
        split_ifs at hj
        · exact .inl (Option.some.inj hj).symm
        · exact .inr (.inl ⟨j, hj⟩)
      · exact .inr (.inr hb)
  nodup := h.nodup
  notMem := by
    intro j b hj hb
    rw [Function.update_apply] at hj
    split_ifs at hj
    · rw [Option.some.inj hj] at ha
      exact ha (h.live_iff.mpr (.inr hb))
    · exact h.notMem hj hb

/-- Who still has a block when one owner has given up his. -/
theorem update_none_eq_some : Function.update own i none j = some b ↔ j ≠ i ∧ own j = some b := by
  rw [Function.update_apply]
  split_ifs with hji
  · simp [hji]
  · simp [hji]

/-- A block is freed. -/
theorem release [DecidableEq α] (h : Owners own lost live) (hi : own i = some a) :
    Owners (Function.update own i none) lost (live.erase a) where
  unique hj hk := h.unique (update_none_eq_some.mp hj).2 (update_none_eq_some.mp hk).2
  live_iff := by
    intro b
    simp only [Finset.mem_erase, h.live_iff, update_none_eq_some]
    constructor
    · rintro ⟨hne, ⟨j, hj⟩ | hb⟩
      · refine .inl ⟨j, ?_, hj⟩
        rintro rfl
        exact hne (Option.some.inj (hj.symm.trans hi))
      · exact .inr hb
    · rintro (⟨j, hji, hj⟩ | hb)
      · refine ⟨?_, .inl ⟨j, hj⟩⟩
        rintro rfl
        exact h.ne_of_ne hi hji hj
      · refine ⟨?_, .inr hb⟩
        rintro rfl
        exact h.notMem hi hb
  nodup := h.nodup
  notMem hj := h.notMem (update_none_eq_some.mp hj).2

/-- A block is not freed, and nobody has it any more. -/
theorem lose (h : Owners own lost live) (hi : own i = some a) :
    Owners (Function.update own i none) (lost ++ [a]) live where
  unique hj hk := h.unique (update_none_eq_some.mp hj).2 (update_none_eq_some.mp hk).2
  live_iff := by
    intro b
    simp only [h.live_iff, update_none_eq_some, List.mem_append, List.mem_singleton]
    constructor
    · rintro (⟨j, hj⟩ | hb)
      · by_cases hji : j = i
        · rw [hji, hi] at hj
          exact .inr (.inr (Option.some.inj hj).symm)
        · exact .inl ⟨j, hji, hj⟩
      · exact .inr (.inl hb)
    · rintro (⟨j, -, hj⟩ | hb | rfl)
      · exact .inl ⟨j, hj⟩
      · exact .inr hb
      · exact .inl ⟨i, hi⟩
  nodup := List.nodup_append.mpr ⟨h.nodup, List.nodup_singleton a, by
    rintro b hb c hc rfl
    rw [List.mem_singleton.mp hc] at hb
    exact h.notMem hi hb⟩
  notMem := by
    intro j b hj hb
    obtain ⟨hji, hj⟩ := update_none_eq_some.mp hj
    rcases List.mem_append.mp hb with hb | hb
    · exact h.notMem hj hb
    · rw [List.mem_singleton.mp hb] at hj
      exact h.ne_of_ne hi hji hj

end Owners

end Exec02
