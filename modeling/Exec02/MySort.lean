import Exec02.Lib.ElementArray
import Exec02.Lib.StableSort

/-!
# Insertion sort

`issort` of `MySort.c`. It works on elements of any size, which it copies byte by byte: the element
to be inserted into a block of its own first, and then the greater ones in front of it up by one, so
that in between one element is there twice and another nowhere but in the block.

## Reading the model

* the block that `key` points to enters as the element that is in it, and its `malloc` as whether it
  succeeds
* a comparison is given two elements and may answer anything: `σ` is whatever else it looks at and
  changes

## Main results

* `issort.shift_spec`, `issort.insert_spec`, `issort.loop_spec` — the two loops
* `issort_stable` — a stable sort, of elements of every size
-/

namespace Exec02

variable {esize : ℕ} {σ : Type}

/-- A function to compare elements with. -/
abbrev Compare (esize : ℕ) (σ : Type) := Elem esize → Elem esize → σ → ℤ × σ

/-- The answers of a function are those of a comparison. -/
def Compare.Answers (compare : Compare esize σ) (cmp : Elem esize → Elem esize → ℤ) : Prop :=
  ∀ x y st, (compare x y st).1 = cmp x y

/-- A comparison that looks at nothing but the two elements. -/
def Compare.ofPure (cmp : Elem esize → Elem esize → ℤ) : Compare esize Unit :=
  fun x y st => (cmp x y, st)

/-- The inner loop, at `i + 1`. It answers the `i + 1` it has come to. -/
def issort.shift (compare : Compare esize σ) (key : Elem esize) :
    ℕ → Bytes → σ → Option (ℕ × Bytes × σ)
  | 0, a, st => some (0, a, st)
  | i + 1, a, st => do
    let x ← a.get esize i
    let (c, st) := compare x key st
    if 0 < c then
      let a ← a.set (i + 1) x
      issort.shift compare key i a st
    else return (i + 1, a, st)

/-- A round of the outer loop. -/
def issort.insert (compare : Compare esize σ) (j : ℕ) (a : Bytes) (st : σ) :
    Option (Bytes × σ) := do
  let key ← a.get esize j
  let (i, a, st) ← issort.shift compare key j a st
  let a ← a.set i key
  return (a, st)

/-- The outer loop, with the number of rounds that are left. -/
def issort.loop (compare : Compare esize σ) : ℕ → ℕ → Bytes → σ → Option (Bytes × σ)
  | 0, _, a, st => some (a, st)
  | n + 1, j, a, st => do
    let (a, st) ← issort.insert compare j a st
    issort.loop compare n (j + 1) a st

/-- `issort`, with whether its `malloc` succeeds. -/
def issort (malloc : Bool) (a : Bytes) (size : ℕ) (compare : Compare esize σ) (st : σ) :
    Option (ℤ × Bytes × σ) :=
  if malloc then do
    let (a, st) ← issort.loop compare (size - 1) 1 a st
    return (0, a, st)
  else some (-1, a, st)

namespace issort

variable {a : Bytes} (compare : Compare esize σ)

/-- **The inner loop.** It stops at the place of the key: what is behind it has moved up by one and
is greater, and what is in front of it is not. -/
theorem shift_spec (key : Elem esize) : ∀ {n : ℕ} {a : Bytes} (st : σ), (∀ m ≤ n, a.Has esize m) →
    ∃ p b st', shift compare key n a st = some (p, b, st') ∧ p ≤ n ∧
      a.Within esize p (n + 1) b ∧
      (∀ m, b.element esize m =
        if p < m ∧ m ≤ n then a.element esize (m - 1) else a.element esize m) ∧
      ∀ cmp, compare.Answers cmp →
        (∀ m, p ≤ m → m < n → 0 < cmp (a.element esize m) key) ∧
        ∀ m, m + 1 = p → cmp (a.element esize m) key ≤ 0 := by
  intro n
  induction n with
  | zero =>
    intro a st _
    refine ⟨0, a, st, rfl, le_rfl, .refl .., fun m => (if_neg (by omega)).symm, ?_⟩
    intro cmp _
    exact ⟨fun m _ hm => by omega, fun m hm => by omega⟩
  | succ n ih =>
    intro a st hhas
    have hget := Bytes.get_of_has (hhas n (Nat.le_succ n))
    generalize hx : a.element esize n = x at hget
    generalize hcall : compare x key st = r
    obtain ⟨c, st₁⟩ := r
    by_cases hc : 0 < c
    · obtain ⟨a₁, hset, helem, hwithin⟩ := Bytes.set_of_has (hhas (n + 1) le_rfl) x
      obtain ⟨p, b, st', hshift, hp, hwithin', helem', hcmp⟩ :=
        ih (a := a₁) st₁ fun m hm => hwithin.has (hhas m (by omega))
      refine ⟨p, b, st', ?_, by omega, ?_, ?_, fun cmp hans => ⟨?_, ?_⟩⟩
      · simp [shift, hget, hcall, hc, hset, hshift]
      · exact (hwithin.mono (by omega) le_rfl).trans (hwithin'.mono le_rfl (by omega))
      · intro m
        rw [helem', helem]
        rcases Nat.lt_trichotomy m (n + 1) with hlt | rfl | hgt
        · split_ifs <;> first | omega | exact Function.update_of_ne (by omega) ..
        · rw [if_neg (by omega), if_pos (by omega), Function.update_self, ← hx]
          rfl
        · rw [if_neg (by omega), if_neg (by omega), Function.update_of_ne (by omega)]
      · intro m hm hmn
        have hold := (hcmp cmp hans).1
        rcases Nat.lt_succ_iff_lt_or_eq.mp hmn with hlt | rfl
        · have hpos := hold m hm hlt
          rwa [helem, Function.update_of_ne (by omega)] at hpos
        · rw [hx, ← hans x key st, hcall]
          exact hc
      · intro m hm
        have hle := (hcmp cmp hans).2 m hm
        rwa [helem, Function.update_of_ne (by omega)] at hle
    · refine ⟨n + 1, a, st₁, ?_, le_rfl, .refl .., fun m => (if_neg (by omega)).symm,
        fun cmp hans => ⟨fun m hm hmn => by omega, ?_⟩⟩
      · simp [shift, hget, hcall, hc]
      · intro m hm
        obtain rfl : m = n := by omega
        rw [hx, ← hans x key st, hcall]
        exact not_lt.mp hc

/-- **A round.** The key goes down to some place among the first `j` elements, the last one behind
which all are greater. -/
theorem insert_spec {j : ℕ} (st : σ) (hhas : ∀ m ≤ j, a.Has esize m) :
    ∃ b st' l₁ l₂, insert compare j a st = some (b, st') ∧ a.Within esize 0 (j + 1) b ∧
      segment (a.element esize) 0 j = l₁ ++ l₂ ∧
      segment (b.element esize) 0 (j + 1) = l₁ ++ a.element esize j :: l₂ ∧
      (∀ m, j < m → b.element esize m = a.element esize m) ∧
      ∀ cmp, compare.Answers cmp →
        (∀ x ∈ l₁.getLast?, cmp x (a.element esize j) ≤ 0) ∧
        ∀ x ∈ l₂, 0 < cmp x (a.element esize j) := by
  have hget := Bytes.get_of_has (hhas j le_rfl)
  generalize a.element esize j = key at hget
  obtain ⟨p, b, st', hshift, hp, hwithin, helem, hcmp⟩ := shift_spec compare key st hhas
  obtain ⟨b', hset, helem', hwithin'⟩ := Bytes.set_of_has (hwithin.has (hhas p hp)) key
  have hfront : ∀ m, m < p → b'.element esize m = a.element esize m := by
    intro m hm
    rw [helem', Function.update_of_ne (by omega), helem, if_neg (by omega)]
  refine ⟨b', st', segment (a.element esize) 0 p, segment (a.element esize) p j, ?_, ?_,
    (segment_append _ (Nat.zero_le p) hp).symm, ?_, ?_, fun cmp hans => ⟨?_, ?_⟩⟩
  · simp [insert, hget, hshift, hset]
  · exact (hwithin.mono (Nat.zero_le p) le_rfl).trans (hwithin'.mono (Nat.zero_le p) (by omega))
  · have hback : segment (b'.element esize) (p + 1) (j + 1) = segment (a.element esize) p j := by
      refine segment_shift ?_
      intro m hm hmj
      rw [helem', Function.update_of_ne (by omega), helem, if_pos (by omega), Nat.add_sub_cancel]
    have hplace : b'.element esize p = key := by
      rw [helem', Function.update_self]
    rw [← segment_append _ (Nat.zero_le p) (hp.trans (Nat.le_succ j)),
      segment_cons _ (Nat.lt_succ_of_le hp), hback, hplace,
      segment_congr fun m _ hm => hfront m hm]
  · intro m hm
    rw [helem', Function.update_of_ne (by omega), helem, if_neg (by omega)]
  · intro x hx
    cases p with
    | zero =>
      rw [segment_self] at hx
      cases hx
    | succ p =>
      rw [segment_succ _ (Nat.zero_le p), List.getLast?_concat] at hx
      obtain rfl := Option.some.inj hx
      exact (hcmp cmp hans).2 p rfl
  · intro x hx
    obtain ⟨m, hm, rfl⟩ := mem_segment.mp hx
    exact (hcmp cmp hans).1 m hm.1 hm.2

/-- **The outer loop.** What is in front of `j` stays sorted, and grows by the elements from `j`
on. -/
theorem loop_spec : ∀ {n j : ℕ} {a : Bytes} (st : σ), (∀ m < j + n, a.Has esize m) →
    ∃ b st', loop compare n j a st = some (b, st') ∧ a.Within esize 0 (j + n) b ∧
      (segment (b.element esize) 0 (j + n)).Perm (segment (a.element esize) 0 (j + n)) ∧
      ∀ cmp l, compare.Answers cmp → TotalPreorder cmp →
        IsStableSort cmp l (segment (a.element esize) 0 j) →
        IsStableSort cmp (l ++ segment (a.element esize) j (j + n))
          (segment (b.element esize) 0 (j + n)) := by
  intro n
  induction n with
  | zero =>
    intro j a st _
    refine ⟨a, st, rfl, .refl .., .refl _, ?_⟩
    intro cmp l _ _ hsort
    rwa [Nat.add_zero, segment_self, List.append_nil]
  | succ n ih =>
    intro j a st hhas
    obtain ⟨a₁, st₁, l₁, l₂, hinsert, hwithin, hsplit, hinserted, hrest, hcmp⟩ :=
      insert_spec compare (j := j) st fun m hm => hhas m (by omega)
    obtain ⟨b, st', hloop, hwithin', hperm, hsorts⟩ :=
      ih (j := j + 1) (a := a₁) st₁ fun m hm => hwithin.has (hhas m (by omega))
    have hn : j + 1 + n = j + (n + 1) := by omega
    have htail : segment (a₁.element esize) (j + 1) (j + (n + 1)) =
        segment (a.element esize) (j + 1) (j + (n + 1)) :=
      segment_congr fun m hm _ => hrest m hm
    rw [hn] at hwithin' hperm hsorts
    refine ⟨b, st', ?_, ?_, ?_, ?_⟩
    · simp [loop, hinsert, hloop]
    · exact (hwithin.mono le_rfl (by omega)).trans hwithin'
    · -- the round has changed the order in front only
      refine hperm.trans ?_
      rw [← segment_append (a₁.element esize) (Nat.zero_le (j + 1)) (by omega), hinserted, htail,
        ← segment_append (a.element esize) (Nat.zero_le (j + 1)) (by omega),
        segment_succ _ (Nat.zero_le j), hsplit]
      refine List.Perm.append_right _ (List.perm_middle.trans ?_)
      exact (List.perm_append_singleton ..).symm
    · intro cmp l hans hcompare hsort
      rw [hsplit] at hsort
      have hinto := hsort.insert hcompare (hcmp cmp hans).1 (hcmp cmp hans).2
      rw [← hinserted] at hinto
      have hresult := hsorts cmp _ hans hcompare hinto
      rwa [htail, List.append_assoc, List.singleton_append, ← segment_cons _ (by omega)] at hresult

/-- `issort`, with memory for the key. -/
theorem spec {size : ℕ} (st : σ) (hhas : ∀ m < size, a.Has esize m) :
    ∃ b st', issort true a size compare st = some (0, b, st') ∧ a.Within esize 0 size b ∧
      (segment (b.element esize) 0 size).Perm (segment (a.element esize) 0 size) ∧
      ∀ cmp, compare.Answers cmp → TotalPreorder cmp →
        IsStableSort cmp (segment (a.element esize) 0 size)
          (segment (b.element esize) 0 size) := by
  cases size with
  | zero =>
    refine ⟨a, st, rfl, .refl .., .refl _, ?_⟩
    intro cmp _ _
    rw [segment_self]
    exact .nil cmp
  | succ n =>
    have hn : 1 + n = n + 1 := Nat.add_comm ..
    obtain ⟨b, st', hloop, hwithin, hperm, hsorts⟩ :=
      loop_spec compare (n := n) (j := 1) (a := a) st (by rwa [hn])
    rw [hn] at hwithin hperm hsorts
    refine ⟨b, st', by simp [issort, hloop], hwithin, hperm, ?_⟩
    intro cmp hans hcompare
    -- one element is sorted
    have hone : IsStableSort cmp (segment (a.element esize) 0 1)
        (segment (a.element esize) 0 1) := by
      refine ⟨?_, fun _ => rfl⟩
      rw [segment_succ _ le_rfl, segment_self]
      exact List.pairwise_singleton ..
    have hresult := hsorts cmp _ hans hcompare hone
    rwa [segment_append _ (Nat.zero_le 1) (by omega)] at hresult

end issort

/-- **A stable sort.** With a buffer of `size` elements of any size, and no other byte to be
touched, `issort` ends and leaves the elements in some order, whatever the comparison does; and if
that is a total preorder, they are in order, and equivalent ones follow each other as they did. -/
theorem issort_stable (a : Bytes) (size : ℕ) (hsize : size * esize < 2 ^ 31)
    (hlive : a.live = Finset.range (size * esize)) (compare : Compare esize σ) (st : σ) :
    ∃ b st', issort true a size compare st = some (0, b, st') ∧ b.live = a.live ∧
      (segment (b.element esize) 0 size).Perm (segment (a.element esize) 0 size) ∧
      ∀ cmp, compare.Answers cmp → TotalPreorder cmp →
        IsStableSort cmp (segment (a.element esize) 0 size)
          (segment (b.element esize) 0 size) := by
  obtain ⟨b, st', hsort, hwithin, hperm, hstable⟩ :=
    issort.spec compare st fun _ => Bytes.has_of_live hsize hlive
  exact ⟨b, st', hsort, hwithin.live, hperm, hstable⟩

/-- Elements of two bytes, of which the second does not count. -/
theorem issort_stable_sample : ∃ b st', issort true (.ofList [2, 0, 1, 0, 2, 1]) 3
      (.ofPure fun x y : Elem 2 => (x 0).toNat - (y 0).toNat) () = some (0, b, st') ∧
    IsStableSort (fun x y : Elem 2 => ((x 0).toNat - (y 0).toNat : ℤ))
      (segment (Bytes.element (.ofList [2, 0, 1, 0, 2, 1]) 2) 0 3)
      (segment (b.element 2) 0 3) := by
  obtain ⟨b, st', hsort, -, -, hstable⟩ := issort_stable (.ofList [2, 0, 1, 0, 2, 1]) 3 (by decide)
    rfl (.ofPure fun x y : Elem 2 => (x 0).toNat - (y 0).toNat) ()
  exact ⟨b, st', hsort, hstable _ (fun _ _ _ => rfl) (.of_key fun x : Elem 2 => (x 0).toNat)⟩

end Exec02
