import Exec02.Lib.Heap
import Exec02.Lib.Segment
import Mathlib.Algebra.Ring.Nat
import Mathlib.Data.Finset.Range

/-!
# Arrays of elements of any size

An array that a C function knows by a `char *` and the size of its elements, which it moves byte by
byte. `a.element esize` is the sequence of elements those bytes are, whether or not they may be
touched; `a.Has esize m` says that the one at `m` may, and that `m * esize` is an `int`.

Addresses are counted from the start of the array.

## Main definitions

* `Bytes`, `Elem`, `Bytes.element`
* `Bytes.get`, `Bytes.set` — `memcpy` from the array and to it
* `Bytes.Within` — nothing but some of the elements has changed

## Main results

* `Bytes.get_of_has`, `Bytes.set_of_has` — the two on the sequence of elements
* `Bytes.exchange_of_has` — two copies that exchange two elements
-/

namespace Exec02

/-- Memory, byte by byte. -/
abbrev Bytes := Heap ℕ UInt8

/-- An element of `esize` bytes. -/
abbrev Elem (esize : ℕ) := Fin esize → UInt8

namespace Bytes

variable {a b c : Bytes} {esize m lo hi lo' hi' : ℕ}

/-- A buffer with these bytes, all of which may be touched. -/
def ofList (bytes : List UInt8) : Bytes := ⟨fun p => bytes.getD p 0, Finset.range bytes.length⟩

/-- The bytes of the element at `m`. -/
def element (a : Bytes) (esize m : ℕ) : Elem esize := fun d => a.cell (m * esize + d)

/-- The element at `m` may be accessed: its offset is an `int`, and its bytes are live. -/
def Has (a : Bytes) (esize m : ℕ) : Prop :=
  m * esize < 2 ^ 31 ∧ ∀ d < esize, m * esize + d ∈ a.live

instance (a : Bytes) (esize m : ℕ) : Decidable (a.Has esize m) :=
  inferInstanceAs (Decidable (_ ∧ _))

/-- `memcpy(e, &a[m * esize], esize)`. -/
def get (a : Bytes) (esize m : ℕ) : Option (Elem esize) :=
  if a.Has esize m then some (a.element esize m) else none

/-- `memcpy(&a[m * esize], e, esize)`. -/
def set (a : Bytes) (m : ℕ) (e : Elem esize) : Option Bytes :=
  if a.Has esize m then
    some
      { a with
        cell := fun p =>
          if h : m * esize ≤ p ∧ p - m * esize < esize then e ⟨p - m * esize, h.2⟩ else a.cell p }
  else none

/-- Nothing but the elements at `lo`, …, `hi - 1` has changed. -/
structure Within (esize lo hi : ℕ) (a b : Bytes) : Prop where
  live : b.live = a.live
  cell : ∀ p, p < lo * esize ∨ hi * esize ≤ p → b.cell p = a.cell p

namespace Within

theorem refl (esize lo hi : ℕ) (a : Bytes) : Within esize lo hi a a := ⟨rfl, fun _ _ => rfl⟩

theorem trans (h₁ : Within esize lo hi a b) (h₂ : Within esize lo hi b c) :
    Within esize lo hi a c :=
  ⟨h₂.live.trans h₁.live, fun p hp => (h₂.cell p hp).trans (h₁.cell p hp)⟩

theorem mono (h : Within esize lo' hi' a b) (hlo : lo ≤ lo') (hhi : hi' ≤ hi) :
    Within esize lo hi a b := by
  refine ⟨h.live, fun p hp => h.cell p (hp.imp ?_ ?_)⟩
  · intro hp
    exact hp.trans_le (Nat.mul_le_mul_right esize hlo)
  · intro hp
    exact (Nat.mul_le_mul_right esize hhi).trans hp

theorem has (h : Within esize lo hi a b) (ha : a.Has esize m) : b.Has esize m := by
  rw [Has, h.live]
  exact ha

end Within

theorem get_of_has (h : a.Has esize m) : a.get esize m = some (a.element esize m) := if_pos h

/-- **A copy to the array** is an update of the sequence of its elements. -/
theorem set_of_has (h : a.Has esize m) (e : Elem esize) :
    ∃ b, a.set m e = some b ∧ b.element esize = Function.update (a.element esize) m e ∧
      Within esize m (m + 1) a b := by
  refine ⟨_, if_pos h, ?_, rfl, ?_⟩
  · funext n d
    have hd := d.isLt
    by_cases hn : n = m
    · subst hn
      have hin : n * esize ≤ n * esize + d ∧ n * esize + d - n * esize < esize := by omega
      simp only [element, Function.update_self, hin, and_self, dite_true]
      exact congrArg e (Fin.ext (Nat.add_sub_cancel_left ..))
    · -- another element has no byte in common with it
      have hout : ¬ (m * esize ≤ n * esize + d ∧ n * esize + d - m * esize < esize) := by
        rcases Nat.lt_or_gt_of_ne hn with hlt | hgt
        · have hle := Nat.mul_le_mul_right esize (Nat.succ_le_of_lt hlt)
          rw [Nat.succ_mul] at hle
          omega
        · have hle := Nat.mul_le_mul_right esize (Nat.succ_le_of_lt hgt)
          rw [Nat.succ_mul] at hle
          omega
      rw [Function.update_of_ne hn]
      exact dif_neg hout
  · intro p hp
    refine dif_neg ?_
    rw [Nat.succ_mul] at hp
    omega

/-- **An exchange**: each of two elements is copied to the place of the other. -/
theorem exchange_of_has (lo hi : ℕ) {m' : ℕ} (h : a.Has esize m) (h' : a.Has esize m')
    (hlo : lo ≤ m ∧ lo ≤ m') (hhi : m < hi ∧ m' < hi) :
    ∃ a₁ b, a.set m (a.element esize m') = some a₁ ∧ a₁.set m' (a.element esize m) = some b ∧
      b.element esize = a.element esize ∘ Equiv.swap m m' ∧ Within esize lo hi a b := by
  obtain ⟨a₁, hset₁, helem₁, hwithin₁⟩ := set_of_has h (a.element esize m')
  obtain ⟨b, hset₂, helem₂, hwithin₂⟩ := set_of_has (hwithin₁.has h') (a.element esize m)
  refine ⟨a₁, b, hset₁, hset₂, ?_, ?_⟩
  · rw [helem₂, helem₁, Equiv.swap_comm, Equiv.comp_swap_eq_update]
  · exact (hwithin₁.mono hlo.1 hhi.1).trans (hwithin₂.mono hlo.2 hhi.2)

/-- The elements of a buffer that has room for `size` of them may be accessed. -/
theorem has_of_live {size : ℕ} (hsize : size * esize < 2 ^ 31)
    (hlive : a.live = Finset.range (size * esize)) (hm : m < size) : a.Has esize m := by
  have hle := Nat.mul_le_mul_right esize (Nat.succ_le_of_lt hm)
  rw [Nat.succ_mul] at hle
  refine ⟨by omega, ?_⟩
  intro d hd
  rw [hlive, Finset.mem_range]
  omega

end Bytes

end Exec02
