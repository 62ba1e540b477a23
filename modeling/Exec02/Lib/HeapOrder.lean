import Mathlib.Logic.Equiv.Basic
import Mathlib.Order.Lattice.Nat

/-!
# Sequences in heap order

A binary tree without gaps is a sequence: the children of the entry at `i` are at `2 * i + 1` and
`2 * i + 2`, and its parent is at `(i - 1) / 2`. In heap order no entry is greater than its parent,
so the greatest one is in front.

An entry that is out of order is put right by exchanging it with a neighbour, over and over. On its
way up, the only pair that may be wrong is the one with its parent; on its way down, those with its
children. In both cases its children are not greater than its parent, which is what makes the next
exchange right.

## Main definitions

* `HeapOrdered` — the first `n` entries are in heap order
* `RisingAt`, `SinkingAt` — they are but for one entry on its way up, or down

## Main results

* `HeapOrdered.le_front` — the greatest entry is in front
* `RisingAt.exchange`, `RisingAt.stop` — a step up, and the end of the way
* `SinkingAt.exchange`, `SinkingAt.stop` — a step down, and the end of the way
-/

namespace Exec02

variable {α : Type*} [LinearOrder α] {f g : ℕ → α} {n i k m : ℕ}

/-- The first `n` entries are in heap order. -/
def HeapOrdered (f : ℕ → α) (n : ℕ) : Prop := ∀ i, 0 < i → i < n → f i ≤ f ((i - 1) / 2)

/-- Heap order, but for the entry at `k` and its parent. -/
structure RisingAt (f : ℕ → α) (n k : ℕ) : Prop where
  others : ∀ i, 0 < i → i < n → i ≠ k → f i ≤ f ((i - 1) / 2)
  children : ∀ i, 0 < i → i < n → (i - 1) / 2 = k → 0 < k → f i ≤ f ((k - 1) / 2)

/-- Heap order, but for the entry at `k` and its children. -/
structure SinkingAt (f : ℕ → α) (n k : ℕ) : Prop where
  others : ∀ i, 0 < i → i < n → (i - 1) / 2 ≠ k → f i ≤ f ((i - 1) / 2)
  children : ∀ i, 0 < i → i < n → (i - 1) / 2 = k → 0 < k → f i ≤ f ((k - 1) / 2)

namespace HeapOrdered

/-- **The front.** No entry is greater than the first one. -/
theorem le_front (h : HeapOrdered f n) (hi : i < n) : f i ≤ f 0 := by
  induction i using Nat.strongRecOn with
  | ind i ih =>
    rcases Nat.eq_zero_or_pos i with rfl | hpos
    · exact le_rfl
    · exact (h i hpos hi).trans (ih ((i - 1) / 2) (by omega) (by omega))

theorem mono (h : HeapOrdered f n) (hm : m ≤ n) : HeapOrdered f m :=
  fun i hpos hi => h i hpos (hi.trans_le hm)

theorem congr (h : HeapOrdered f n) (hg : ∀ i < n, g i = f i) : HeapOrdered g n := by
  intro i hpos hi
  rw [hg i hi, hg _ (by omega)]
  exact h i hpos hi

/-- A last entry is on its way up. -/
theorem rising (h : HeapOrdered f n) (x : α) : RisingAt (Function.update f n x) (n + 1) n where
  others i hpos hi hne := by
    rw [Function.update_of_ne hne, Function.update_of_ne (by omega)]
    exact h i hpos (by omega)
  children i _ hi hparent _ := by omega

/-- Another first entry is on its way down. -/
theorem sinking (h : HeapOrdered f n) (x : α) : SinkingAt (Function.update f 0 x) n 0 where
  others i hpos hi hne := by
    rw [Function.update_of_ne hpos.ne', Function.update_of_ne hne]
    exact h i hpos hi
  children i _ _ _ hk := absurd hk (Nat.lt_irrefl 0)

end HeapOrdered

/-! ### Up -/

namespace RisingAt

/-- **A step up.** The entry takes the place of its parent, which is smaller. -/
theorem exchange (h : RisingAt f n k) (hpos : 0 < k) (hk : k < n)
    (hlt : f ((k - 1) / 2) < f k) :
    RisingAt (f ∘ Equiv.swap k ((k - 1) / 2)) n ((k - 1) / 2) := by
  have hat : (f ∘ Equiv.swap k ((k - 1) / 2)) k = f ((k - 1) / 2) :=
    congrArg f (Equiv.swap_apply_left ..)
  have hat' : (f ∘ Equiv.swap k ((k - 1) / 2)) ((k - 1) / 2) = f k :=
    congrArg f (Equiv.swap_apply_right ..)
  have hne : ∀ i, i ≠ k → i ≠ (k - 1) / 2 → (f ∘ Equiv.swap k ((k - 1) / 2)) i = f i :=
    fun i hi hi' => congrArg f (Equiv.swap_apply_of_ne_of_ne hi hi')
  refine ⟨?_, ?_⟩
  · intro i hi hin hip
    by_cases hik : i = k
    · rw [hik, hat, hat']
      exact hlt.le
    · have hle := h.others i hi hin hik
      rw [hne i hik hip]
      by_cases hparent : (i - 1) / 2 = k
      · rw [hparent, hat]
        exact h.children i hi hin hparent hpos
      · by_cases hparent' : (i - 1) / 2 = (k - 1) / 2
        · rw [hparent', hat']
          rw [hparent'] at hle
          exact hle.trans hlt.le
        · rwa [hne _ hparent hparent']
  · intro i hi hin hparent hp
    have hle := h.others ((k - 1) / 2) hp (by omega) (by omega)
    rw [hne (((k - 1) / 2 - 1) / 2) (by omega) (by omega)]
    by_cases hik : i = k
    · rwa [hik, hat]
    · have hle' := h.others i hi hin hik
      rw [hparent] at hle'
      rw [hne i hik (by omega)]
      exact hle'.trans hle

/-- **The end of the way up.** -/
theorem stop (h : RisingAt f n k) (hstop : 0 < k → f k ≤ f ((k - 1) / 2)) : HeapOrdered f n := by
  intro i hpos hi
  by_cases hik : i = k
  · rw [hik] at hpos ⊢
    exact hstop hpos
  · exact h.others i hpos hi hik

end RisingAt

/-! ### Down -/

namespace SinkingAt

theorem congr (h : SinkingAt f n k) (hg : ∀ i < n, g i = f i) : SinkingAt g n k where
  others i hpos hi hne := by
    rw [hg i hi, hg _ (by omega)]
    exact h.others i hpos hi hne
  children i hpos hi hparent hk' := by
    rw [hg i hi, hg _ (by omega)]
    exact h.children i hpos hi hparent hk'

/-- **A step down.** The entry takes the place of its greatest child, which is greater. -/
theorem exchange (h : SinkingAt f n k) (hpos : 0 < m) (hm : m < n) (hparent : (m - 1) / 2 = k)
    (hlt : f k < f m) (hmax : ∀ i, 0 < i → i < n → (i - 1) / 2 = k → f i ≤ f m) :
    SinkingAt (f ∘ Equiv.swap k m) n m := by
  have hat : (f ∘ Equiv.swap k m) k = f m := congrArg f (Equiv.swap_apply_left ..)
  have hat' : (f ∘ Equiv.swap k m) m = f k := congrArg f (Equiv.swap_apply_right ..)
  have hne : ∀ i, i ≠ k → i ≠ m → (f ∘ Equiv.swap k m) i = f i :=
    fun i hi hi' => congrArg f (Equiv.swap_apply_of_ne_of_ne hi hi')
  refine ⟨?_, ?_⟩
  · intro i hi hin hip
    by_cases hik : i = k
    · rw [hik] at hi ⊢
      rw [hat, hne ((k - 1) / 2) (by omega) (by omega)]
      exact h.children m hpos hm hparent hi
    · by_cases him : i = m
      · rw [him, hparent, hat, hat']
        exact hlt.le
      · rw [hne i hik him]
        by_cases hik' : (i - 1) / 2 = k
        · rw [hik', hat]
          exact hmax i hi hin hik'
        · rw [hne _ hik' hip]
          exact h.others i hi hin hik'
  · intro i hi hin hip _
    have hle := h.others i hi hin (by omega)
    rw [hip] at hle
    rwa [hparent, hat, hne i (by omega) (by omega)]

/-- **The end of the way down.** -/
theorem stop (h : SinkingAt f n k)
    (hstop : ∀ i, 0 < i → i < n → (i - 1) / 2 = k → f i ≤ f k) : HeapOrdered f n := by
  intro i hpos hi
  by_cases hik : (i - 1) / 2 = k
  · rw [hik]
    exact hstop i hpos hi hik
  · exact h.others i hpos hi hik

end SinkingAt

end Exec02
