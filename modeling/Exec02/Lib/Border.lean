import Mathlib.Data.List.Infix
import Mathlib.Data.Set.Image
import Mathlib.Order.Bounds.Defs
import Mathlib.Order.Lattice.Nat

/-!
# Borders and the longest match that ends here

A matcher that never backs up remembers one number: how many symbols of the pattern are the last
symbols read. Every shorter match that ends at the same place is a *border* of the longer one, a
prefix of the pattern that is also a suffix of what was matched. So the matches that end at a place
are found by starting at the longest and falling back from each to its longest border, and a table
of borders is made by running the pattern against itself.

Texts and patterns are functions on the natural numbers. Nothing is assumed of where they end: the
bound `lim` of `Longest` and `Falling` says which lengths count as candidates. It is the number of
symbols read when the table is made, and the length of the pattern when a text is searched.

## Main results

* `EndsAt.border` — a shorter match that ends here is a border of a longer one
* `Falling.step` — falling back to the longest border loses no candidate
* `Falling.extend`, `Falling.restart` — the longest match after one more symbol
* `Longest.of_full` — the longest match behind a full one
* `Longest.isGreatest` — the longest match of a list with its own end is its longest border
-/

namespace Exec02

variable {α : Type*}

/-- The first `k` symbols of the pattern are the last `k` of the first `i` symbols of the text. -/
def EndsAt (p t : ℕ → α) (i k : ℕ) : Prop := k ≤ i ∧ ∀ d < k, p d = t (i - k + d)

/-- `j` is the longest match that ends at `i`, of those shorter than `lim`. -/
structure Longest (p t : ℕ → α) (lim i j : ℕ) : Prop where
  ends : EndsAt p t i j
  lt : j < lim
  le {k : ℕ} (hk : k < lim) (h : EndsAt p t i k) : k ≤ j

/-- `j` is a match that ends at `i`, and no longer one can be extended by the next symbol. -/
structure Falling (p t : ℕ → α) (lim i j : ℕ) : Prop where
  ends : EndsAt p t i j
  lt : j < lim
  le {k : ℕ} (hk : k < lim) (h : EndsAt p t i k) (hnext : p k = t i) : k ≤ j

variable {p t : ℕ → α} {lim lim' i j k b m : ℕ}

/-! ### Matches that end at a place -/

theorem EndsAt.zero (p t : ℕ → α) (i : ℕ) : EndsAt p t i 0 := ⟨Nat.zero_le i, nofun⟩

/-- A match of one more symbol, one symbol later. -/
theorem endsAt_succ_iff : EndsAt p t (i + 1) (k + 1) ↔ EndsAt p t i k ∧ p k = t i := by
  constructor
  · rintro ⟨hk, h⟩
    refine ⟨⟨by omega, ?_⟩, ?_⟩
    · intro d hd
      rw [h d (by omega)]
      exact congrArg t (by omega)
    · rw [h k (by omega)]
      exact congrArg t (by omega)
  · rintro ⟨⟨hk, h⟩, hnext⟩
    refine ⟨by omega, ?_⟩
    intro d hd
    rcases Nat.lt_succ_iff_lt_or_eq.mp hd with hd | rfl
    · rw [h d hd]
      exact congrArg t (by omega)
    · rw [hnext]
      exact congrArg t (by omega)

/-- **Borders.** A shorter match that ends here is a border of a longer one. -/
theorem EndsAt.border (hj : EndsAt p t i j) (hk : EndsAt p t i k) (hkj : k ≤ j) :
    EndsAt p p j k := by
  refine ⟨hkj, ?_⟩
  intro d hd
  have hji := hj.1
  rw [hk.2 d hd, hj.2 (j - k + d) (by omega)]
  exact congrArg t (by omega)

/-- A border of a match that ends here is a match that ends here. -/
theorem EndsAt.trans (hj : EndsAt p t i j) (hk : EndsAt p p j k) : EndsAt p t i k := by
  have hji := hj.1
  have hkj := hk.1
  refine ⟨by omega, ?_⟩
  intro d hd
  rw [hk.2 d hd, hj.2 (j - k + d) (by omega)]
  exact congrArg t (by omega)

/-! ### The longest of them -/

theorem Longest.zero (hlim : 0 < lim) : Longest p t lim 0 0 :=
  ⟨.zero p t 0, hlim, fun _ h => h.1⟩

theorem Longest.falling (h : Longest p t lim i j) : Falling p t lim i j :=
  ⟨h.ends, h.lt, fun hk hends _ => h.le hk hends⟩

/-- Behind a full match, the longest match is the longest border of the pattern. -/
theorem Longest.of_full (hfull : EndsAt p t i m) (hb : Longest p p m m b) : Longest p t m i b :=
  ⟨hfull.trans hb.ends, hb.lt, fun hk h => hb.le hk (hfull.border h hk.le)⟩

namespace Falling

/-- **Falling back.** What does not extend `j` and is shorter is found at its longest border. -/
theorem step (h : Falling p t lim i j) (hne : p j ≠ t i) (hb : Longest p p j j b) :
    Falling p t lim i b := by
  refine ⟨h.ends.trans hb.ends, hb.lt.trans h.lt, ?_⟩
  intro k hk hends hnext
  have hkj : k ≠ j := by
    rintro rfl
    exact hne hnext
  have hlt := lt_of_le_of_ne (h.le hk hends hnext) hkj
  exact hb.le hlt (h.ends.border hends hlt.le)

/-- The next symbol extends the match, unless that makes it too long to count. -/
theorem extend (h : Falling p t lim i j) (hnext : p j = t i) (hj : j + 1 < lim')
    (hlim : lim' ≤ lim + 1) : Longest p t lim' (i + 1) (j + 1) := by
  refine ⟨endsAt_succ_iff.mpr ⟨h.ends, hnext⟩, hj, ?_⟩
  intro k hk hends
  cases k with
  | zero => exact Nat.zero_le _
  | succ k =>
    obtain ⟨hends, hnext⟩ := endsAt_succ_iff.mp hends
    exact Nat.succ_le_succ (h.le (by omega) hends hnext)

/-- Nothing is left that the next symbol extends. -/
theorem restart (h : Falling p t lim i 0) (hne : p 0 ≠ t i) (hlim' : 0 < lim')
    (hlim : lim' ≤ lim + 1) : Longest p t lim' (i + 1) 0 := by
  refine ⟨.zero p t _, hlim', ?_⟩
  intro k hk hends
  cases k with
  | zero => exact le_rfl
  | succ k =>
    obtain ⟨hends, hnext⟩ := endsAt_succ_iff.mp hends
    obtain rfl := Nat.le_zero.mp (h.le (by omega) hends hnext)
    exact absurd hnext hne

/-- Where falling back has come to its end, a full match ends at the next symbol just when that
symbol is the one the pattern lacked. -/
theorem endsAt_iff (h : Falling p t m i j) (hexit : j = 0 ∨ p j = t i) (hm : 0 < m) :
    EndsAt p t (i + 1) m ↔ p j = t i ∧ j + 1 = m := by
  obtain ⟨m, rfl⟩ := Nat.exists_eq_succ_of_ne_zero hm.ne'
  have hj := h.lt
  rw [Nat.succ_eq_add_one, endsAt_succ_iff]
  constructor
  · rintro ⟨hends, hnext⟩
    obtain rfl : m = j := by
      have := h.le (Nat.lt_succ_self m) hends hnext
      omega
    exact ⟨hnext, rfl⟩
  · rintro ⟨hnext, hjm⟩
    obtain rfl : j = m := by omega
    exact ⟨h.ends, hnext⟩

end Falling

/-! ### Borders of a list -/

/-- A prefix that is also a suffix, and not the whole. -/
structure IsBorder (b l : List α) : Prop where
  isPrefix : b <+: l
  suffix : b <:+ l
  ne : b ≠ l

section List

variable {l : List α}

/-- The first symbols of a list are also its last ones. -/
theorem take_suffix_iff (hread : ∀ d < l.length, l[d]? = some (p d)) (hk : k ≤ l.length) :
    l.take k <:+ l ↔ EndsAt p p l.length k := by
  rw [List.suffix_iff_eq_drop, List.length_take_of_le hk]
  have hdrop : ∀ d < k, (l.drop (l.length - k))[d]? = some (p (l.length - k + d)) := by
    intro d hd
    rw [List.getElem?_drop, hread _ (by omega)]
  have htake : ∀ d < k, (l.take k)[d]? = some (p d) := by
    intro d hd
    rw [List.getElem?_take_of_lt hd, hread d (by omega)]
  constructor
  · intro heq
    refine ⟨hk, ?_⟩
    intro d hd
    rw [← Option.some_inj, ← htake d hd, ← hdrop d hd, ← heq]
  · rintro ⟨-, hends⟩
    refine List.ext_getElem? ?_
    intro d
    rcases Nat.lt_or_ge d k with hd | hd
    · rw [htake d hd, hdrop d hd, hends d hd]
    · rw [List.getElem?_eq_none (by simp; omega), List.getElem?_eq_none (by simp; omega)]

/-- **The longest border.** -/
theorem Longest.isGreatest (hread : ∀ d < l.length, l[d]? = some (p d))
    (h : Longest p p l.length l.length j) :
    IsGreatest (List.length '' {b | IsBorder b l}) j := by
  refine ⟨⟨l.take j, ⟨l.take_prefix j, (take_suffix_iff hread h.lt.le).mpr h.ends, ?_⟩,
    List.length_take_of_le h.lt.le⟩, ?_⟩
  · intro heq
    have hlen := congrArg List.length heq
    rw [List.length_take_of_le h.lt.le] at hlen
    exact h.lt.ne hlen
  · rintro k ⟨b, hb, rfl⟩
    have hlt : b.length < l.length :=
      lt_of_le_of_ne hb.isPrefix.length_le fun heq => hb.ne (hb.isPrefix.eq_of_length heq)
    refine h.le hlt ((take_suffix_iff hread hlt.le).mp ?_)
    rw [← List.prefix_iff_eq_take.mp hb.isPrefix]
    exact hb.suffix

end List

end Exec02
