import Exec02.MySort

/-!
# Partition

`partition` of `MySort.c`: a pivot value is chosen among three elements of the range, and two scans
meet. The one from above stops at elements that are not greater than the pivot, as it should. The
one from below stops at elements that are equal to it, whatever else it passes. Neither looks at
the ends of the range: what stops them is an element that an exchange has left behind.

## Reading the model

* a range is given by its first index and its last; the model has the index of the upward scan one
  up and the range end behind, where the source starts from `i - 1` and `k + 1`
* `pval`, `temp` and `r` enter as what is in them; `Supply` tells which calls of `malloc` succeed
  and what `rand` answers

## Main results

* `Scanning` — the loop invariant, on sequences of anything
* `Split.lt_iff`, `Split.separates_iff` — how the range has been cut, in terms of what was in it
* `partition_spec` — one call
-/

namespace Exec02

/-! ### Sequences that are scanned from both ends -/

section Sequences

variable {α : Type*} {cmp : α → α → ℤ} {p : α} {f₀ f g : ℕ → α} {lo hi i k j m n : ℕ}

/-- How many elements in front of `m` are equal to the pivot. -/
def equalBefore (cmp : α → α → ℤ) (p : α) (f : ℕ → α) (lo m : ℕ) : ℕ :=
  (segment f lo m).countP (cmp · p = 0)

/-- How many elements from `m` on are not greater than the pivot. -/
def notGreaterFrom (cmp : α → α → ℤ) (p : α) (f : ℕ → α) (m hi : ℕ) : ℕ :=
  (segment f m hi).countP (cmp · p ≤ 0)

theorem equalBefore_add (cmp : α → α → ℤ) (p : α) (f : ℕ → α) (hlo : lo ≤ m) (hm : m ≤ n) :
    equalBefore cmp p f lo m + equalBefore cmp p f m n = equalBefore cmp p f lo n := by
  rw [equalBefore, equalBefore, equalBefore, ← List.countP_append, segment_append f hlo hm]

theorem notGreaterFrom_add (cmp : α → α → ℤ) (p : α) (f : ℕ → α) (hm : m ≤ n) (hhi : n ≤ hi) :
    notGreaterFrom cmp p f m n + notGreaterFrom cmp p f n hi = notGreaterFrom cmp p f m hi := by
  rw [notGreaterFrom, notGreaterFrom, notGreaterFrom, ← List.countP_append, segment_append f hm hhi]

theorem equalBefore_eq_zero_iff :
    equalBefore cmp p f lo m = 0 ↔ ∀ n, lo ≤ n → n < m → cmp (f n) p ≠ 0 := by
  rw [equalBefore, List.countP_eq_zero]
  constructor
  · intro h n hlo hm
    simpa using h (f n) (mem_segment.mpr ⟨n, ⟨hlo, hm⟩, rfl⟩)
  · intro h x hx
    obtain ⟨n, hn, rfl⟩ := mem_segment.mp hx
    simpa using h n hn.1 hn.2

theorem notGreaterFrom_eq_zero_iff :
    notGreaterFrom cmp p f m hi = 0 ↔ ∀ n, m ≤ n → n < hi → 0 < cmp (f n) p := by
  rw [notGreaterFrom, List.countP_eq_zero]
  constructor
  · intro h n hlo hm
    simpa using h (f n) (mem_segment.mpr ⟨n, ⟨hlo, hm⟩, rfl⟩)
  · intro h x hx
    obtain ⟨n, hn, rfl⟩ := mem_segment.mp hx
    simpa using h n hn.1 hn.2

theorem equalBefore_succ_self (h : cmp (f m) p = 0) : equalBefore cmp p f m (m + 1) = 1 := by
  rw [equalBefore, segment_succ f le_rfl, segment_self]
  simp [h]

theorem notGreaterFrom_succ_self (h : cmp (f m) p ≤ 0) : notGreaterFrom cmp p f m (m + 1) = 1 := by
  rw [notGreaterFrom, segment_succ f le_rfl, segment_self]
  simp [h]

/-- **The loop invariant.** The scan from below is to start at `i`, the scan from above in front of
`k`, and the sequence that was `f₀` is `f` by now. -/
structure Scanning (cmp : α → α → ℤ) (p : α) (f₀ f : ℕ → α) (lo hi i k : ℕ) : Prop where
  lo_le : lo ≤ i
  le : i ≤ k
  le_hi : k ≤ hi
  rearranges : Rearranges lo hi f₀ f
  /-- Elements greater than the pivot do not move. -/
  greater : ∀ m, 0 < cmp (f₀ m) p → f m = f₀ m
  /-- The others change places among themselves. -/
  notGreater : ∀ m, cmp (f₀ m) p ≤ 0 → cmp (f m) p ≤ 0
  /-- Between the scans nothing has changed. -/
  middle : ∀ m, i ≤ m → m < k → f m = f₀ m
  /-- Nothing less than the pivot is behind. -/
  behind : ∀ m, k ≤ m → m < hi → 0 ≤ cmp (f m) p
  /-- Every exchange takes one element equal to the pivot, and one that is not greater. -/
  count : equalBefore cmp p f₀ lo i = notGreaterFrom cmp p f₀ k hi
  /-- The scan from above will stop. -/
  down : ∃ s, lo ≤ s ∧ i ≤ s + 1 ∧ s < k ∧ cmp (f s) p ≤ 0
  /-- The scan from below will stop. -/
  up : ∃ e, i ≤ e ∧ e < hi ∧ cmp (f e) p = 0

/-- **The result.** The range is cut behind `j`. -/
structure Split (cmp : α → α → ℤ) (p : α) (f₀ f : ℕ → α) (lo hi j : ℕ) : Prop where
  lo_le : lo ≤ j
  lt_hi : j < hi
  rearranges : Rearranges lo hi f₀ f
  greater : ∀ m, 0 < cmp (f₀ m) p → f m = f₀ m
  notGreater : ∀ m, cmp (f₀ m) p ≤ 0 → cmp (f m) p ≤ 0
  at_cut : cmp (f j) p ≤ 0
  behind : ∀ m, j < m → m < hi → 0 ≤ cmp (f m) p
  /-- Where the cut is can be told from what was there: it is the last place with fewer equal
  elements in front of it than elements that are not greater from it on. -/
  count : equalBefore cmp p f₀ lo j < notGreaterFrom cmp p f₀ j hi
  count_behind : ∀ m, j < m → m < hi → notGreaterFrom cmp p f₀ m hi ≤ equalBefore cmp p f₀ lo m

namespace Scanning

theorem init (hlo : lo ≤ m) (hhi : m < hi) (hm : cmp (f m) p = 0) :
    Scanning cmp p f f lo hi lo hi where
  lo_le := le_rfl
  le := by omega
  le_hi := le_rfl
  rearranges := .refl ..
  greater _ _ := rfl
  notGreater _ h := h
  middle _ _ _ := rfl
  behind _ _ _ := by omega
  count := by rw [equalBefore, notGreaterFrom, segment_self, segment_self]; rfl
  down := ⟨m, hlo, by omega, hhi, hm.le⟩
  up := ⟨m, hlo, hhi, hm⟩

variable {k' i' : ℕ}

/-- What is not greater now was not greater before. -/
theorem notGreater_of (h : Scanning cmp p f₀ f lo hi i k) (hm : cmp (f m) p ≤ 0) :
    cmp (f₀ m) p ≤ 0 := by
  by_contra hpos
  rw [h.greater m (not_le.mp hpos)] at hm
  exact hpos hm

/-- Between the place where the scan from above stops and the one where it started there is nothing
that is not greater than the pivot. -/
theorem notGreaterFrom_eq_zero (h : Scanning cmp p f₀ f lo hi i k)
    (hpassed : ∀ m, k' < m → m < k → 0 < cmp (f m) p) (hm : k' < m) :
    notGreaterFrom cmp p f₀ m k = 0 := by
  rw [notGreaterFrom_eq_zero_iff]
  intro n hn hk
  by_contra hle
  have hpos := hpassed n (by omega) hk
  have hle' := h.notGreater n (not_lt.mp hle)
  omega

/-- Between the place where the scan from below starts and the one where it stops there is nothing
that is equal to the pivot. -/
theorem equalBefore_eq_zero (h : Scanning cmp p f₀ f lo hi i k)
    (hpassed : ∀ m, i ≤ m → m < i' → cmp (f m) p ≠ 0) (hm : m ≤ i') (hk : m ≤ k) :
    equalBefore cmp p f₀ i m = 0 := by
  rw [equalBefore_eq_zero_iff]
  intro n hn hnm
  rw [← h.middle n hn (by omega)]
  exact hpassed n hn (by omega)

/-- **A round.** The scans have stopped, and have not met: the two elements change places. -/
theorem swap (h : Scanning cmp p f₀ f lo hi i k) (hk : k' < k) (hdown : cmp (f k') p ≤ 0)
    (hdown' : ∀ m, k' < m → m < k → 0 < cmp (f m) p) (hi' : i ≤ i') (hup : cmp (f i') p = 0)
    (hup' : ∀ m, i ≤ m → m < i' → cmp (f m) p ≠ 0) (hlt : i' < k') :
    Scanning cmp p f₀ (f ∘ Equiv.swap i' k') lo hi (i' + 1) k' := by
  have hlo := h.lo_le
  have hhi := h.le_hi
  have hat : (f ∘ Equiv.swap i' k') i' = f k' := congrArg f (Equiv.swap_apply_left ..)
  have hat' : (f ∘ Equiv.swap i' k') k' = f i' := congrArg f (Equiv.swap_apply_right ..)
  have hne : ∀ m, m ≠ i' → m ≠ k' → (f ∘ Equiv.swap i' k') m = f m := fun m hm hm' =>
    congrArg f (Equiv.swap_apply_of_ne_of_ne hm hm')
  have hi₀ : f i' = f₀ i' := h.middle i' hi' (by omega)
  have hk₀ : f k' = f₀ k' := h.middle k' (by omega) hk
  refine ⟨by omega, by omega, by omega, ?_, ?_, ?_, ?_,
    ?_, ?_, ⟨i', by omega, le_rfl, hlt, by rwa [hat]⟩,
    ⟨k', by omega, by omega, by rwa [hat']⟩⟩
  · exact h.rearranges.trans (.swap f ⟨by omega, by omega⟩ ⟨by omega, by omega⟩)
  · intro m hm
    rw [hne m ?_ ?_, h.greater m hm]
    · rintro rfl
      rw [← hi₀] at hm
      omega
    · rintro rfl
      rw [← hk₀] at hm
      omega
  · intro m hm
    by_cases hmi : m = i'
    · rwa [hmi, hat]
    · by_cases hmk : m = k'
      · rw [hmk, hat', hup]
      · rw [hne m hmi hmk]
        exact h.notGreater m hm
  · intro m hm hmk
    rw [hne m (by omega) (by omega), h.middle m (by omega) (by omega)]
  · intro m hm hmhi
    by_cases hmk : m = k'
    · rw [hmk, hat', hup]
    · rw [hne m (by omega) hmk]
      rcases Nat.lt_or_ge m k with hlt' | hge
      · exact (hdown' m (by omega) hlt').le
      · exact h.behind m hge hmhi
  · -- one more on both sides
    have hcount := h.count
    have hback := h.notGreaterFrom_eq_zero hdown' (Nat.lt_succ_self k')
    have hfront := h.equalBefore_eq_zero hup' le_rfl (by omega)
    rw [hi₀] at hup
    rw [hk₀] at hdown
    rw [← equalBefore_add cmp p f₀ (m := i) (by omega) (by omega : i ≤ i' + 1),
      ← equalBefore_add cmp p f₀ (m := i') hi' (Nat.le_succ i'), hfront,
      equalBefore_succ_self hup,
      ← notGreaterFrom_add cmp p f₀ (n := k) hk.le hhi,
      ← notGreaterFrom_add cmp p f₀ (n := k' + 1) (Nat.le_succ k') hk, hback,
      notGreaterFrom_succ_self hdown]
    omega

/-- **The end.** The scans have met. -/
theorem split (h : Scanning cmp p f₀ f lo hi i k) (hk : k' < k) (hdown : cmp (f k') p ≤ 0)
    (hdown' : ∀ m, k' < m → m < k → 0 < cmp (f m) p)
    (hup' : ∀ m, i ≤ m → m < i' → cmp (f m) p ≠ 0) (hle : k' ≤ i') :
    Split cmp p f₀ f lo hi k' := by
  have hlo := h.lo_le
  have hhi := h.le_hi
  have hcount := h.count
  -- the element that was to stop the scan from above is where it has stopped or in front of it
  obtain ⟨s, hs, his, hsk, hsp⟩ := h.down
  have hsk' : s ≤ k' := by
    by_contra hlt
    have hpos := hdown' s (not_le.mp hlt) hsk
    omega
  refine ⟨by omega, by omega, h.rearranges, h.greater, h.notGreater, hdown, ?_, ?_, ?_⟩
  · intro m hm hmhi
    rcases Nat.lt_or_ge m k with hlt | hge
    · exact (hdown' m hm hlt).le
    · exact h.behind m hge hmhi
  · have hfrom : notGreaterFrom cmp p f₀ k' hi = 1 + notGreaterFrom cmp p f₀ (k' + 1) hi := by
      rw [← notGreaterFrom_add cmp p f₀ (n := k' + 1) (Nat.le_succ k') (by omega),
        notGreaterFrom_succ_self (h.notGreater_of hdown)]
    have hback : notGreaterFrom cmp p f₀ (k' + 1) hi = notGreaterFrom cmp p f₀ k hi := by
      rw [← notGreaterFrom_add cmp p f₀ (n := k) hk hhi,
        h.notGreaterFrom_eq_zero hdown' (Nat.lt_succ_self k'), Nat.zero_add]
    rcases Nat.lt_or_ge i k' with hlt | hge
    · have hfront := h.equalBefore_eq_zero hup' hle hk.le
      rw [← equalBefore_add cmp p f₀ hlo hlt.le, hfront]
      omega
    · have hfront := equalBefore_add cmp p f₀ (n := i) (by omega : lo ≤ k') hge
      omega
  · intro m hm hmhi
    have hfront := equalBefore_add cmp p f₀ hlo (by omega : i ≤ m)
    rcases Nat.lt_or_ge m k with hlt | hge
    · rw [← notGreaterFrom_add cmp p f₀ hlt.le hhi, h.notGreaterFrom_eq_zero hdown' hm]
      omega
    · have hback := notGreaterFrom_add cmp p f₀ hge hmhi.le
      omega

end Scanning

/-- The cut puts nothing in front of itself that is greater than something behind. -/
def Separates (cmp : α → α → ℤ) (f : ℕ → α) (lo hi j : ℕ) : Prop :=
  ∀ m n, lo ≤ m → m ≤ j → j < n → n < hi → cmp (f m) (f n) ≤ 0

/-- No element that is greater than the pivot has a smaller one behind it with the cut between the
two. The cut is behind `m` where fewer elements in front of `m` are equal to the pivot than elements
from `m` on are not greater, and in front of `n` where that is not so. -/
def CutsCleanly (cmp : α → α → ℤ) (p : α) (f : ℕ → α) (lo hi : ℕ) : Prop :=
  ∀ m n, lo ≤ m → m < n → n < hi → 0 < cmp (f m) p →
    equalBefore cmp p f lo m < notGreaterFrom cmp p f m hi →
    notGreaterFrom cmp p f n hi ≤ equalBefore cmp p f lo n → cmp (f m) (f n) ≤ 0

namespace Split

theorem pos_iff (h : Split cmp p f₀ f lo hi j) (m : ℕ) : 0 < cmp (f m) p ↔ 0 < cmp (f₀ m) p := by
  constructor
  · intro hm
    by_contra hle
    have hle' := h.notGreater m (not_lt.mp hle)
    omega
  · intro hm
    rwa [h.greater m hm]

/-- **Progress.** The part in front of the cut is smaller than the range exactly when an element
equal to the pivot was in front of the last one. -/
theorem lt_iff (h : Split cmp p f₀ f lo hi j)
    (hpivot : ∃ r, lo ≤ r ∧ r < hi ∧ cmp (f₀ r) p = 0) :
    j + 1 < hi ↔ ∃ m, lo ≤ m ∧ m + 1 < hi ∧ cmp (f₀ m) p = 0 := by
  have hlo := h.lo_le
  have hlt := h.lt_hi
  constructor
  · intro hj
    by_contra hnone
    push Not at hnone
    -- then the pivot is the last element, and is in front of the cut
    obtain ⟨r, hr, hrhi, hrp⟩ := hpivot
    have hlast : r + 1 = hi := by
      by_contra hne
      exact hnone r hr (by omega) hrp
    have hcount := h.count_behind r (by omega) hrhi
    have hzero : equalBefore cmp p f₀ lo r = 0 :=
      equalBefore_eq_zero_iff.mpr fun m hm hmr => hnone m hm (by omega)
    have hone := notGreaterFrom_succ_self hrp.le
    rw [hlast] at hone
    omega
  · rintro ⟨m, hm, hmhi, hmp⟩
    by_contra hj
    have hlast : j + 1 = hi := by omega
    have hcount := h.count
    have hone : notGreaterFrom cmp p f₀ j hi = 1 := by
      rw [← hlast]
      refine notGreaterFrom_succ_self (not_lt.mp ?_)
      intro hpos
      have hcut := h.at_cut
      have hpos' := (h.pos_iff j).mpr hpos
      omega
    have hzero : equalBefore cmp p f₀ lo j = 0 := by omega
    exact equalBefore_eq_zero_iff.mp hzero m hm (by omega) hmp

/-- **Separation.** Nothing in front of the cut is greater than something behind it, exactly when
the range was one that is cut cleanly. -/
theorem separates_iff (hcmp : TotalPreorder cmp) (h : Split cmp p f₀ f lo hi j) :
    Separates cmp f lo hi j ↔ CutsCleanly cmp p f₀ lo hi := by
  have hcut := h.at_cut
  have hcount := h.count
  constructor
  · intro hsep m n hm hmn hn hpos hbefore hfrom
    have hpos' := (h.pos_iff m).mpr hpos
    have hmj : m ≤ j := by
      by_contra hgt
      have hle := h.count_behind m (not_le.mp hgt) (by omega)
      omega
    have hjn : j < n := by
      by_contra hge
      have h₁ := equalBefore_add cmp p f₀ (by omega : lo ≤ n) (not_lt.mp hge)
      have h₂ := notGreaterFrom_add cmp p f₀ (not_lt.mp hge) h.lt_hi.le
      omega
    have hle := hsep m n hm hmj hjn hn
    -- so what is behind is greater than the pivot too, and has not moved
    have hn' : 0 < cmp (f n) p := hcmp.pos_of_pos_of_nonpos hpos' hle
    rwa [h.greater m hpos, h.greater n ((h.pos_iff n).mp hn')] at hle
  · intro hclean m n hm hmj hjn hn
    by_cases hpos : 0 < cmp (f m) p
    · have hpos₀ := (h.pos_iff m).mp hpos
      have hne : m ≠ j := by
        rintro rfl
        omega
      have h₁ := equalBefore_add cmp p f₀ hm hmj
      have h₂ := notGreaterFrom_add cmp p f₀ hmj h.lt_hi.le
      have hle := hclean m n hm (by omega) hn hpos₀ (by omega) (h.count_behind n hjn hn)
      have hn₀ : 0 < cmp (f₀ n) p := hcmp.pos_of_pos_of_nonpos hpos₀ hle
      rwa [h.greater m hpos₀, h.greater n hn₀]
    · exact hcmp.trans (not_lt.mp hpos) ((hcmp.nonpos_iff p (f n)).mpr (h.behind n hjn hn))

end Split

end Sequences

/-! ### The code -/

/-- Which calls of `malloc` succeed, and what `rand` answers. -/
structure Supply where
  malloc : ℕ → Bool
  rand : ℕ → ℕ

/-- The array, and how often `malloc` and `rand` have been called. -/
structure SortMem where
  a : Bytes
  mallocs : ℕ
  rands : ℕ

/-- The bytes of an `int` that is not negative. -/
def bytesOfInt (n : ℕ) : Elem 4 := fun d => UInt8.ofNat (n / 2 ^ (8 * d.val))

/-- `*(const int *)int1`. -/
def intOfBytes (e : Elem 4) : ℤ :=
  let n : ℕ := (e 0).toNat + 2 ^ 8 * (e 1).toNat + 2 ^ 16 * (e 2).toNat + 2 ^ 24 * (e 3).toNat
  if n < 2 ^ 31 then n else n - 2 ^ 32

/-- `compare_int`. -/
def compareInt (int1 int2 : Elem 4) : ℤ :=
  if intOfBytes int1 > intOfBytes int2 then 1
  else if intOfBytes int1 < intOfBytes int2 then -1
  else 0

variable {esize : ℕ}

namespace partition

/-- `r[1]` after `r` has been filled and sorted. What `issort` answers is not looked at. -/
def pivotIndex (env : Supply) (i k mallocs rands : ℕ) : Option ℕ := do
  let r : Bytes := ⟨fun _ => 0, Finset.range 12⟩
  let r ← r.set 0 (bytesOfInt (env.rand rands % (k - i + 1) + i))
  let r ← r.set 1 (bytesOfInt (env.rand (rands + 1) % (k - i + 1) + i))
  let r ← r.set 2 (bytesOfInt (env.rand (rands + 2) % (k - i + 1) + i))
  let (_, r, _) ← issort (env.malloc mallocs) r 3 (.ofPure compareInt) ()
  let r₁ := intOfBytes (← r.get 4 1)
  if 0 ≤ r₁ then return r₁.toNat else none

variable (cmp : Elem esize → Elem esize → ℤ) (pval : Elem esize)

/-- `do { k--; } while (compare(&a[k*esize], pval) > 0)`. -/
def scanDown (a : Bytes) : ℕ → Option ℕ
  | 0 => none
  | k + 1 => do
    let x ← a.get esize k
    if 0 < cmp x pval then scanDown a k else return k

/-- `do { i++; } while (compare(&a[i*esize], pval))`, at `i + 1`, with the number of values an `int`
has from there on. -/
def scanUp (a : Bytes) : ℕ → ℕ → Option ℕ
  | 0, _ => none
  | n + 1, i => do
    let x ← a.get esize i
    if cmp x pval ≠ 0 then scanUp a n (i + 1) else return i

/-- The loop, at `i + 1` and `k`. Every round brings `k` down, so there are at most as many. -/
def loop : ℕ → ℕ → ℕ → Bytes → Option (ℕ × Bytes)
  | 0, _, _, _ => none
  | n + 1, i, k, a => do
    let k ← scanDown cmp pval a k
    let i ← scanUp cmp pval a (2 ^ 31 - i) i
    if k ≤ i then return (k, a)
    else
      let temp ← a.get esize i
      let x ← a.get esize k
      let a ← a.set i x
      let a ← a.set k temp
      loop n (i + 1) k a

end partition

/-- `partition`. -/
def partition (env : Supply) (cmp : Elem esize → Elem esize → ℤ) (s : SortMem) (i k : ℕ) :
    Option (ℤ × SortMem) :=
  if env.malloc s.mallocs then
    if env.malloc (s.mallocs + 1) then do
      let r ← partition.pivotIndex env i k (s.mallocs + 2) s.rands
      let pval ← s.a.get esize r
      let (k, a) ← partition.loop cmp pval (k + 1) i (k + 1) s.a
      return (k, ⟨a, s.mallocs + 3, s.rands + 3⟩)
    else some (-1, ⟨s.a, s.mallocs + 2, s.rands⟩)
  else some (-1, ⟨s.a, s.mallocs + 1, s.rands⟩)

/-! ### The scans -/

namespace partition

variable {cmp : Elem esize → Elem esize → ℤ} {pval : Elem esize} {a : Bytes} {lo hi : ℕ}

theorem scanDown_spec {s : ℕ} (hs : cmp (a.element esize s) pval ≤ 0) : ∀ {k : ℕ}, s < k →
    (∀ m, s ≤ m → m < k → a.Has esize m) →
    ∃ k', scanDown cmp pval a k = some k' ∧ s ≤ k' ∧ k' < k ∧
      cmp (a.element esize k') pval ≤ 0 ∧
      ∀ m, k' < m → m < k → 0 < cmp (a.element esize m) pval := by
  intro k
  induction k with
  | zero => exact fun h => by omega
  | succ k ih =>
    intro hsk hhas
    have hget := Bytes.get_of_has (hhas k (by omega) (Nat.lt_succ_self k))
    by_cases hpos : 0 < cmp (a.element esize k) pval
    · have hne : s ≠ k := by
        rintro rfl
        omega
      obtain ⟨k', hscan, hs', hk', hle, hpassed⟩ :=
        ih (by omega) fun m hm hmk => hhas m hm (by omega)
      refine ⟨k', by simp [scanDown, hget, hpos, hscan], hs', by omega, hle, ?_⟩
      intro m hm hmk
      rcases Nat.lt_succ_iff_lt_or_eq.mp hmk with hlt | rfl
      · exact hpassed m hm hlt
      · exact hpos
    · exact ⟨k, by simp [scanDown, hget, hpos], by omega, Nat.lt_succ_self k, not_lt.mp hpos,
        fun m hm hmk => by omega⟩

theorem scanUp_spec {e : ℕ} (he : cmp (a.element esize e) pval = 0) : ∀ {n i : ℕ}, i ≤ e →
    e < i + n → (∀ m, i ≤ m → m ≤ e → a.Has esize m) →
    ∃ i', scanUp cmp pval a n i = some i' ∧ i ≤ i' ∧ i' ≤ e ∧
      cmp (a.element esize i') pval = 0 ∧
      ∀ m, i ≤ m → m < i' → cmp (a.element esize m) pval ≠ 0 := by
  intro n
  induction n with
  | zero => exact fun h₁ h₂ => by omega
  | succ n ih =>
    intro i hie hen hhas
    have hget := Bytes.get_of_has (hhas i le_rfl hie)
    by_cases hzero : cmp (a.element esize i) pval = 0
    · exact ⟨i, by simp [scanUp, hget, hzero], le_rfl, hie, hzero, fun m hm hmi => by omega⟩
    · have hne : i ≠ e := by
        rintro rfl
        exact hzero he
      obtain ⟨i', hscan, hi', he', heq, hpassed⟩ :=
        ih (i := i + 1) (by omega) (by omega) fun m hm hme => hhas m (by omega) hme
      refine ⟨i', by simp [scanUp, hget, hzero, hscan], by omega, he', heq, ?_⟩
      intro m hm hmi
      rcases Nat.eq_or_lt_of_le hm with rfl | hlt
      · exact hzero
      · exact hpassed m hlt hmi

/-- **The loop.** It touches nothing but the range, and cuts it. -/
theorem loop_spec (hesize : 1 ≤ esize) (f₀ : ℕ → Elem esize) : ∀ {n i k : ℕ} {a : Bytes}, k ≤ n →
    (∀ m, lo ≤ m → m < hi → a.Has esize m) →
    Scanning cmp pval f₀ (a.element esize) lo hi i k →
    ∃ j b, loop cmp pval n i k a = some (j, b) ∧ a.Within esize lo hi b ∧
      Split cmp pval f₀ (b.element esize) lo hi j := by
  intro n
  induction n with
  | zero =>
    intro i k a hk _ h
    obtain ⟨s, -, -, hsk, -⟩ := h.down
    omega
  | succ n ih =>
    intro i k a hkn hhas h
    have hlo := h.lo_le
    have hhi := h.le_hi
    obtain ⟨s, hs, his, hsk, hsp⟩ := h.down
    obtain ⟨e, hie, hehi, hep⟩ := h.up
    obtain ⟨k', hdown, hsk', hk', hkp, hkpassed⟩ :=
      scanDown_spec hsp hsk fun m hm hmk => hhas m (by omega) (by omega)
    have hint : e < i + (2 ^ 31 - i) := by
      have hlt := (hhas e (by omega) hehi).1
      have hle := Nat.le_mul_of_pos_right e hesize
      omega
    obtain ⟨i', hup, hii', hie', hip, hipassed⟩ :=
      scanUp_spec hep hie hint fun m hm hme => hhas m (by omega) (by omega)
    by_cases hmet : k' ≤ i'
    · refine ⟨k', a, ?_, .refl .., h.split hk' hkp hkpassed hipassed hmet⟩
      simp [-Nat.reducePow, loop, hdown, hup, hmet]
    · have hi'has := hhas i' (by omega) (by omega)
      have hk'has := hhas k' (by omega) (by omega)
      obtain ⟨a₁, a₂, hset₁, hset₂, hswap, hwithin⟩ :=
        Bytes.exchange_of_has lo hi hi'has hk'has (by omega) (by omega)
      have hnext := h.swap hk' hkp hkpassed hii' hip hipassed (not_le.mp hmet)
      rw [← hswap] at hnext
      obtain ⟨j, b, hloop, hwithin', hsplit⟩ :=
        ih (by omega) (fun m hm hmhi => hwithin.has (hhas m hm hmhi)) hnext
      refine ⟨j, b, ?_, hwithin.trans hwithin', hsplit⟩
      simp [-Nat.reducePow, loop, hdown, hup, hmet, Bytes.get_of_has hi'has,
        Bytes.get_of_has hk'has, hset₁, hset₂, hloop]

/-! ### One call -/

theorem intOfBytes_bytesOfInt {n : ℕ} (hn : n < 2 ^ 31) : intOfBytes (bytesOfInt n) = n := by
  have hsum : n / 2 ^ (8 * 0) % 2 ^ 8 + 2 ^ 8 * (n / 2 ^ (8 * 1) % 2 ^ 8) +
      2 ^ 16 * (n / 2 ^ (8 * 2) % 2 ^ 8) + 2 ^ 24 * (n / 2 ^ (8 * 3) % 2 ^ 8) = n := by omega
  have hthree : (3 : Fin 4).val = 3 := rfl
  simp only [intOfBytes, bytesOfInt, UInt8.toNat_ofNat', Fin.val_zero, Fin.val_one, Fin.val_two,
    hthree, hsum, hn, if_true]

/-- Sorting `r`, or not, leaves in it what was there. -/
theorem forall_of_issort {r : Bytes} (malloc : Bool) (q : Elem 4 → Prop)
    (hhas : ∀ m < 3, r.Has 4 m) (hq : ∀ m < 3, q (r.element 4 m)) :
    ∃ ret r' st, issort malloc r 3 (.ofPure compareInt) () = some (ret, r', st) ∧
      r'.Has 4 1 ∧ q (r'.element 4 1) := by
  cases malloc with
  | false => exact ⟨-1, r, (), rfl, hhas 1 (by decide), hq 1 (by decide)⟩
  | true =>
    obtain ⟨r', st, hsort, hwithin, hperm, -⟩ := issort.spec (.ofPure compareInt) () hhas
    refine ⟨0, r', st, hsort, hwithin.has (hhas 1 (by decide)), ?_⟩
    obtain ⟨m, hm, heq⟩ := mem_segment.mp
      (hperm.mem_iff.mp (mem_segment.mpr ⟨1, ⟨Nat.zero_le 1, by decide⟩, rfl⟩))
    rw [← heq]
    exact hq m hm.2

/-- The three values are copied to `r`. -/
theorem fill_spec (value : ℕ → Elem 4) :
    ∃ r₁ r₂ r₃, Bytes.set ⟨fun _ => 0, Finset.range 12⟩ 0 (value 0) = some r₁ ∧
      r₁.set 1 (value 1) = some r₂ ∧ r₂.set 2 (value 2) = some r₃ ∧
      (∀ m < 3, r₃.Has 4 m) ∧ ∀ m < 3, r₃.element 4 m = value m := by
  have hhas : ∀ m < 3, Bytes.Has ⟨fun _ => 0, Finset.range 12⟩ 4 m := fun m hm =>
    Bytes.has_of_live (by decide) rfl hm
  obtain ⟨r₁, hset₁, helem₁, hwithin₁⟩ := Bytes.set_of_has (hhas 0 (by decide)) (value 0)
  have hhas₁ : ∀ m < 3, r₁.Has 4 m := fun m hm => hwithin₁.has (hhas m hm)
  obtain ⟨r₂, hset₂, helem₂, hwithin₂⟩ := Bytes.set_of_has (hhas₁ 1 (by decide)) (value 1)
  have hhas₂ : ∀ m < 3, r₂.Has 4 m := fun m hm => hwithin₂.has (hhas₁ m hm)
  obtain ⟨r₃, hset₃, helem₃, hwithin₃⟩ := Bytes.set_of_has (hhas₂ 2 (by decide)) (value 2)
  refine ⟨r₁, r₂, r₃, hset₁, hset₂, hset₃, fun m hm => hwithin₃.has (hhas₂ m hm), ?_⟩
  intro m hm
  rw [helem₃, helem₂, helem₁]
  obtain rfl | rfl | rfl : m = 0 ∨ m = 1 ∨ m = 2 := by omega
  · rfl
  · rfl
  · rfl

/-- The pivot is in the range. -/
theorem pivotIndex_spec (env : Supply) {i k : ℕ} (hik : i ≤ k) (hk : k < 2 ^ 31)
    (mallocs rands : ℕ) :
    ∃ r, pivotIndex env i k mallocs rands = some r ∧ i ≤ r ∧ r ≤ k := by
  let value (n : ℕ) : Elem 4 := bytesOfInt (env.rand (rands + n) % (k - i + 1) + i)
  obtain ⟨r₁, r₂, r₃, hset₁, hset₂, hset₃, hhas, helem⟩ := fill_spec value
  have hvalue : ∀ m < 3, ∃ v, i ≤ v ∧ v ≤ k ∧ r₃.element 4 m = bytesOfInt v := by
    intro m hm
    refine ⟨_, Nat.le_add_left .., ?_, helem m hm⟩
    have hmod := Nat.mod_lt (env.rand (rands + m)) (Nat.succ_pos (k - i))
    rw [Nat.succ_eq_add_one] at hmod
    omega
  obtain ⟨ret, r', st, hsort, hhas', v, hv, hvk, helem'⟩ :=
    forall_of_issort (env.malloc mallocs) (fun x => ∃ v, i ≤ v ∧ v ≤ k ∧ x = bytesOfInt v) hhas
      hvalue
  have hint : intOfBytes (r'.element 4 1) = v := by
    rw [helem', intOfBytes_bytesOfInt (by omega)]
  refine ⟨v, ?_, hv, hvk⟩
  rw [pivotIndex]
  simp only [Option.bind_eq_bind]
  rw [show bytesOfInt (env.rand rands % (k - i + 1) + i) = value 0 from rfl, hset₁,
    Option.bind_some, hset₂, Option.bind_some, hset₃, Option.bind_some, hsort, Option.bind_some,
    Bytes.get_of_has hhas', Option.bind_some, hint, if_pos (Int.natCast_nonneg v),
    Int.toNat_natCast]
  rfl

end partition

/-- **One call.** Without memory for its two blocks it answers `-1` and has done nothing. With it,
the range is cut at the index it answers, by the element at `r[1]`. -/
theorem partition_spec (hesize : 1 ≤ esize) {cmp : Elem esize → Elem esize → ℤ}
    (hcmp : TotalPreorder cmp) (env : Supply) {s : SortMem} {i k : ℕ} (hik : i ≤ k)
    (hhas : ∀ m, i ≤ m → m < k + 1 → s.a.Has esize m) :
    (∃ s', partition env cmp s i k = some (-1, s') ∧ s'.a = s.a ∧
      ∃ n, s.mallocs ≤ n ∧ n < s'.mallocs ∧ env.malloc n = false) ∨
    ∃ (r j : ℕ) (s' : SortMem),
      partition.pivotIndex env i k (s.mallocs + 2) s.rands = some r ∧ i ≤ r ∧ r ≤ k ∧
      partition env cmp s i k = some ((j : ℤ), s') ∧ s.mallocs ≤ s'.mallocs ∧
      s.a.Within esize i (k + 1) s'.a ∧
      Split cmp (s.a.element esize r) (s.a.element esize) (s'.a.element esize) i (k + 1) j := by
  cases hpval : env.malloc s.mallocs with
  | false =>
    exact Or.inl ⟨⟨s.a, s.mallocs + 1, s.rands⟩, by simp [partition, hpval], rfl, s.mallocs,
      le_rfl, Nat.lt_succ_self _, hpval⟩
  | true =>
    cases htemp : env.malloc (s.mallocs + 1) with
    | false =>
      exact Or.inl ⟨⟨s.a, s.mallocs + 2, s.rands⟩, by simp [partition, hpval, htemp], rfl,
        s.mallocs + 1, Nat.le_succ _, Nat.lt_succ_self _, htemp⟩
    | true =>
      have hk : k < 2 ^ 31 := by
        have hlt := (hhas k hik (Nat.lt_succ_self k)).1
        have hle := Nat.le_mul_of_pos_right k hesize
        omega
      obtain ⟨r, hr, hir, hrk⟩ :=
        partition.pivotIndex_spec env hik hk (s.mallocs + 2) s.rands
      have hstart : Scanning cmp (s.a.element esize r) (s.a.element esize) (s.a.element esize) i
          (k + 1) i (k + 1) := .init hir (Nat.lt_succ_of_le hrk) (hcmp.self_eq_zero _)
      obtain ⟨j, b, hloop, hwithin, hsplit⟩ :=
        partition.loop_spec hesize _ (le_refl (k + 1)) hhas hstart
      refine Or.inr ⟨r, j, ⟨b, s.mallocs + 3, s.rands + 3⟩, hr, hir, hrk, ?_, ?_, hwithin, hsplit⟩
      · simp [partition, hpval, htemp, hr,
          Bytes.get_of_has (hhas r hir (Nat.lt_succ_of_le hrk)), hloop]
      · exact Nat.le_add_right ..

end Exec02
