import Mathlib.Data.List.Intervals
import Mathlib.Data.List.Nodup
import Mathlib.Data.List.Perm.Basic
import Mathlib.Logic.Equiv.Basic

/-!
# Segments of a sequence

An array is a sequence of which a program may touch a part. `segment f lo hi` is the list of what is
at `lo`, …, `hi - 1`, and `Rearranges lo hi f g` says that `g` is `f` but for the order of that
segment. Rearrangements compose, and a rearrangement of a part is one of the whole.

## Main definitions

* `segment` — the entries from `lo` on, in front of `hi`
* `Rearranges` — the same entries in another order, and the rest as it was

## Main results

* `Rearranges.mono`, `Rearranges.trans`, `Rearranges.swap`
* `pairwise_segment` — a relation that holds along a segment, in terms of positions
-/

namespace Exec02

variable {α : Type*} {f g h : ℕ → α} {lo mid hi lo' hi' : ℕ}

/-- The entries at `lo`, …, `hi - 1`. -/
def segment (f : ℕ → α) (lo hi : ℕ) : List α := (List.Ico lo hi).map f

theorem mem_segment {x : α} : x ∈ segment f lo hi ↔ ∃ m, (lo ≤ m ∧ m < hi) ∧ f m = x := by
  simp only [segment, List.mem_map, List.Ico.mem]

theorem segment_self (f : ℕ → α) (lo : ℕ) : segment f lo lo = [] := by
  rw [segment, List.Ico.self_empty, List.map_nil]

theorem length_segment (f : ℕ → α) (lo hi : ℕ) : (segment f lo hi).length = hi - lo := by
  rw [segment, List.length_map, List.Ico.length]

theorem segment_append (f : ℕ → α) (hlo : lo ≤ mid) (hhi : mid ≤ hi) :
    segment f lo mid ++ segment f mid hi = segment f lo hi := by
  rw [segment, segment, segment, ← List.map_append, List.Ico.append_consecutive hlo hhi]

theorem segment_succ (f : ℕ → α) (h : lo ≤ hi) :
    segment f lo (hi + 1) = segment f lo hi ++ [f hi] := by
  rw [segment, segment, List.Ico.succ_top h, List.map_append, List.map_singleton]

theorem segment_cons (f : ℕ → α) (h : lo < hi) :
    segment f lo hi = f lo :: segment f (lo + 1) hi := by
  rw [segment, segment, List.Ico.eq_cons h, List.map_cons]

theorem segment_congr (h : ∀ m, lo ≤ m → m < hi → f m = g m) :
    segment f lo hi = segment g lo hi := by
  refine List.map_congr_left ?_
  intro m hm
  rw [List.Ico.mem] at hm
  exact h m hm.1 hm.2

/-- A segment that has moved up by one. -/
theorem segment_shift (h : ∀ m, lo ≤ m → m < hi → g (m + 1) = f m) :
    segment g (lo + 1) (hi + 1) = segment f lo hi := by
  have hIco : List.Ico (lo + 1) (hi + 1) = (List.Ico lo hi).map (1 + ·) := by
    rw [List.Ico.map_add, Nat.add_comm lo, Nat.add_comm hi]
  rw [segment, segment, hIco, List.map_map]
  refine List.map_congr_left ?_
  intro m hm
  rw [List.Ico.mem] at hm
  rw [Function.comp_apply, Nat.add_comm]
  exact h m hm.1 hm.2

/-- The last entry in the place of the first. -/
theorem perm_segment_update (f : ℕ → α) (h : lo ≤ hi) :
    (segment f lo (hi + 1)).Perm (f lo :: segment (Function.update f lo (f hi)) lo hi) := by
  rcases h.eq_or_lt with rfl | hlt
  · rw [segment_succ f le_rfl, segment_self, segment_self]
    exact .refl _
  · have hrest : segment (Function.update f lo (f hi)) (lo + 1) hi = segment f (lo + 1) hi :=
      segment_congr fun m hm _ => Function.update_of_ne (by omega) ..
    rw [segment_succ f h, segment_cons f hlt, segment_cons _ hlt, hrest, Function.update_self]
    exact (List.perm_append_singleton ..).trans (.swap ..)

/-- A relation that holds along a segment holds between any two positions in it. -/
theorem pairwise_segment {r : α → α → Prop} :
    (segment f lo hi).Pairwise r ↔ ∀ m m', lo ≤ m → m < m' → m' < hi → r (f m) (f m') := by
  rw [segment, List.pairwise_map]
  constructor
  · intro h m m' hm hlt hm'
    have hsplit : List.Ico lo hi = List.Ico lo m' ++ List.Ico m' hi :=
      (List.Ico.append_consecutive (by omega) (by omega)).symm
    rw [hsplit, List.pairwise_append] at h
    exact h.2.2 m (List.Ico.mem.mpr ⟨hm, hlt⟩) m' (List.Ico.mem.mpr ⟨le_rfl, hm'⟩)
  · intro h
    refine (List.Ico.pairwise_lt lo hi).imp_of_mem fun hm hm' hlt => ?_
    exact h _ _ (List.Ico.mem.mp hm).1 hlt (List.Ico.mem.mp hm').2

/-! ### Rearrangements -/

/-- `g` is `f` with the entries at `lo`, …, `hi - 1` in another order. -/
structure Rearranges (lo hi : ℕ) (f g : ℕ → α) : Prop where
  /-- The rest is as it was. -/
  outside : ∀ m, m < lo ∨ hi ≤ m → g m = f m
  /-- The entries are the same. -/
  perm : (segment g lo hi).Perm (segment f lo hi)

namespace Rearranges

theorem refl (lo hi : ℕ) (f : ℕ → α) : Rearranges lo hi f f := ⟨fun _ _ => rfl, .refl _⟩

theorem trans (h₁ : Rearranges lo hi f g) (h₂ : Rearranges lo hi g h) : Rearranges lo hi f h :=
  ⟨fun m hm => (h₂.outside m hm).trans (h₁.outside m hm), h₂.perm.trans h₁.perm⟩

/-- A rearrangement of a part is one of the whole. -/
theorem mono (h : Rearranges lo' hi' f g) (hlo : lo ≤ lo') (hmid : lo' ≤ hi') (hhi : hi' ≤ hi) :
    Rearranges lo hi f g := by
  refine ⟨fun m hm => h.outside m (by omega), ?_⟩
  have hbefore : segment g lo lo' = segment f lo lo' :=
    segment_congr fun m _ hm => h.outside m (Or.inl hm)
  have hafter : segment g hi' hi = segment f hi' hi :=
    segment_congr fun m hm _ => h.outside m (Or.inr hm)
  rw [← segment_append g hlo (hmid.trans hhi), ← segment_append g hmid hhi,
    ← segment_append f hlo (hmid.trans hhi), ← segment_append f hmid hhi, hbefore, hafter]
  exact (h.perm.append_right _).append_left _

/-- Two entries change places. -/
theorem swap {m m' : ℕ} (f : ℕ → α) (hm : lo ≤ m ∧ m < hi) (hm' : lo ≤ m' ∧ m' < hi) :
    Rearranges lo hi f (f ∘ Equiv.swap m m') := by
  refine ⟨?_, ?_⟩
  · intro n hn
    rw [Function.comp_apply, Equiv.swap_apply_of_ne_of_ne (by omega) (by omega)]
  · have hperm : ((List.Ico lo hi).map (Equiv.swap m m')).Perm (List.Ico lo hi) := by
      refine (List.perm_ext_iff_of_nodup ?_ (List.Ico.nodup lo hi)).mpr ?_
      · exact List.Nodup.map (Equiv.swap m m').injective (List.Ico.nodup lo hi)
      · intro n
        rw [List.mem_map, List.Ico.mem]
        constructor
        · rintro ⟨k, hk, rfl⟩
          rw [List.Ico.mem] at hk
          rw [Equiv.swap_apply_def]
          split_ifs <;> assumption
        · intro hn
          refine ⟨Equiv.swap m m' n, ?_, Equiv.swap_apply_self m m' n⟩
          rw [List.Ico.mem, Equiv.swap_apply_def]
          split_ifs <;> assumption
    rw [segment, segment, ← List.map_map]
    exact hperm.map f

end Rearranges

end Exec02
