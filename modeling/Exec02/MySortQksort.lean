import Exec02.MySortPartition

/-!
# Quicksort

`qksort` of `MySort.c`. It cuts its range, calls itself for the part in front of the cut and goes on
with the part behind it. It loses nothing, whatever is chosen for pivots and wherever memory runs
out. But the upward scan of `partition` passes elements that are greater than the pivot, so the cut
may leave one in front of it that belongs behind; and the cut may be at the end of the range, and
then the call is for the same range again.

## Reading the model

* `n` bounds the depth of the calls and the rounds of the loop: a run that is over bounds is
  `unfinished`
* a run is observed with the calls of `partition` it makes, each with the memory it finds

## Main results

* `qksort_keeps` — nothing is lost
* `qksort_sorts_iff` — the runs that sort
* `partition_narrows_iff` — the calls that make the range smaller, and the runs that end
-/

namespace Exec02

variable {esize : ℕ}

/-- Why a run is not over. -/
inductive SortStop
  /-- The program did something undefined. -/
  | undefined
  /-- It goes on. -/
  | unfinished
  deriving DecidableEq

/-- A call of `partition`: what memory it finds, and the range. -/
structure PartitionCall where
  mem : SortMem
  i : ℕ
  k : ℕ

/-- `qksort`, with the calls of `partition` it makes. -/
def qksort (env : Supply) (cmp : Elem esize → Elem esize → ℤ) :
    ℕ → SortMem → ℕ → ℕ → List PartitionCall × Except SortStop (ℤ × SortMem)
  | 0, _, _, _ => ([], .error .unfinished)
  | n + 1, s, i, k =>
    if i < k then
      match partition env cmp s i k with
      | none => ([⟨s, i, k⟩], .error .undefined)
      | some (j, s₁) =>
        if j < 0 then ([⟨s, i, k⟩], .ok (-1, s₁))
        else
          match qksort env cmp n s₁ i j.toNat with
          | (calls, .error stop) => (⟨s, i, k⟩ :: calls, .error stop)
          | (calls, .ok (ret, s₂)) =>
            if ret < 0 then (⟨s, i, k⟩ :: calls, .ok (-1, s₂))
            else
              -- `i = j + 1`, and the next round
              let rest := qksort env cmp n s₂ (j.toNat + 1) k
              (⟨s, i, k⟩ :: (calls ++ rest.1), rest.2)
    else ([], .ok (0, s))

namespace PartitionCall

variable (env : Supply) (cmp : Elem esize → Elem esize → ℤ) (c : PartitionCall)

/-- The index that the call chooses its pivot by. -/
def pivotIndex : Option ℕ :=
  partition.pivotIndex env c.i c.k (c.mem.mallocs + 2) c.mem.rands

/-- The pivot, or an element equal to it, is in front of the last element. -/
def Narrows : Prop :=
  ∀ r ∈ c.pivotIndex env, ∃ m, c.i ≤ m ∧ m < c.k ∧
    cmp (c.mem.a.element esize m) (c.mem.a.element esize r) = 0

/-- The pivot cuts the range cleanly. -/
def Clean : Prop :=
  ∀ r ∈ c.pivotIndex env,
    CutsCleanly cmp (c.mem.a.element esize r) (c.mem.a.element esize) c.i (c.k + 1)

end PartitionCall

/-! ### Sorting in parts -/

section Sequences

variable {α : Type*} {cmp : α → α → ℤ} {f g h : ℕ → α} {lo hi j : ℕ}

theorem separates_iff_segments : Separates cmp f lo hi j ↔
    ∀ x ∈ segment f lo (j + 1), ∀ y ∈ segment f (j + 1) hi, cmp x y ≤ 0 := by
  constructor
  · intro hsep x hx y hy
    obtain ⟨m, hm, rfl⟩ := mem_segment.mp hx
    obtain ⟨n, hn, rfl⟩ := mem_segment.mp hy
    exact hsep m n hm.1 (by omega) (by omega) hn.2
  · intro hall m n hm hmj hjn hn
    exact hall _ (mem_segment.mpr ⟨m, ⟨hm, by omega⟩, rfl⟩) _
      (mem_segment.mpr ⟨n, ⟨hjn, hn⟩, rfl⟩)

/-- Where both parts of a range have been put in another order, the range is sorted exactly when
both parts are, and the parts were separated. -/
theorem sorted_iff_of_parts (hlo : lo ≤ j) (hhi : j < hi) (hfront : Rearranges lo (j + 1) f g)
    (hback : Rearranges (j + 1) hi g h) :
    (segment h lo hi).Pairwise (fun x y => cmp x y ≤ 0) ↔
      Separates cmp f lo hi j ∧ (segment g lo (j + 1)).Pairwise (fun x y => cmp x y ≤ 0) ∧
        (segment h (j + 1) hi).Pairwise fun x y => cmp x y ≤ 0 := by
  have hg : segment h lo (j + 1) = segment g lo (j + 1) :=
    segment_congr fun m _ hm => hback.outside m (Or.inl hm)
  have hf : segment g (j + 1) hi = segment f (j + 1) hi :=
    segment_congr fun m hm _ => hfront.outside m (Or.inr hm)
  have hperm := hback.perm
  rw [hf] at hperm
  rw [separates_iff_segments, ← segment_append h (by omega : lo ≤ j + 1) hhi, hg,
    List.pairwise_append]
  have hsep : (∀ x ∈ segment g lo (j + 1), ∀ y ∈ segment h (j + 1) hi, cmp x y ≤ 0) ↔
      ∀ x ∈ segment f lo (j + 1), ∀ y ∈ segment f (j + 1) hi, cmp x y ≤ 0 := by
    simp only [hfront.perm.mem_iff, hperm.mem_iff]
  rw [hsep]
  tauto

end Sequences

/-! ### Whole runs -/

/-- What a run may come to: it is unfinished; or it has changed the order of the range only, and
answers `0`, or `-1` where an allocation has failed. Where it answers `0` the range is sorted
exactly when every cut was a clean one. -/
def Keeps (env : Supply) (cmp : Elem esize → Elem esize → ℤ) (s : SortMem) (i k : ℕ) :
    List PartitionCall × Except SortStop (ℤ × SortMem) → Prop
  | (_, .error stop) => stop = .unfinished
  | (calls, .ok (ret, s')) =>
    s.a.Within esize i (k + 1) s'.a ∧
      Rearranges i (k + 1) (s.a.element esize) (s'.a.element esize) ∧ s.mallocs ≤ s'.mallocs ∧
      (ret = 0 ∧ ((segment (s'.a.element esize) i (k + 1)).Pairwise (fun x y => cmp x y ≤ 0) ↔
          ∀ c ∈ calls, c.Clean env cmp) ∨
        ret = -1 ∧ ∃ n, s.mallocs ≤ n ∧ n < s'.mallocs ∧ env.malloc n = false)

section Runs

variable {cmp : Elem esize → Elem esize → ℤ} {env : Supply}

/-- A call is clean exactly when its cut separates the range. -/
theorem PartitionCall.clean_iff (hcmp : TotalPreorder cmp) {s s₁ : SortMem} {i k r j : ℕ}
    (hr : partition.pivotIndex env i k (s.mallocs + 2) s.rands = some r)
    (hsplit : Split cmp (s.a.element esize r) (s.a.element esize) (s₁.a.element esize) i
      (k + 1) j) :
    PartitionCall.Clean env cmp ⟨s, i, k⟩ ↔ Separates cmp (s₁.a.element esize) i (k + 1) j := by
  rw [hsplit.separates_iff hcmp]
  constructor
  · exact fun hclean => hclean r hr
  · intro hclean r' hr'
    obtain rfl := Option.some.inj (hr.symm.trans hr')
    exact hclean

section Cut

variable {s s₁ s₂ s₃ : SortMem} {i k j n r : ℕ} {ret : ℤ} {calls calls' : List PartitionCall}

theorem qksort_of_le (h : k ≤ i) : qksort env cmp (n + 1) s i k = ([], .ok (0, s)) := by
  rw [qksort, if_neg (Nat.not_lt.mpr h)]

theorem qksort_of_failed (hik : i < k) (hpart : partition env cmp s i k = some (-1, s₁)) :
    qksort env cmp (n + 1) s i k = ([⟨s, i, k⟩], .ok (-1, s₁)) := by
  rw [qksort, if_pos hik, hpart]
  rfl

/-- The part in front of the cut goes on. -/
theorem qksort_of_front_error (hik : i < k)
    (hpart : partition env cmp s i k = some ((j : ℤ), s₁)) {stop : SortStop}
    (hfront : qksort env cmp n s₁ i j = (calls, .error stop)) :
    qksort env cmp (n + 1) s i k = (⟨s, i, k⟩ :: calls, .error stop) := by
  simp [qksort, hik, hpart, hfront]

/-- The part in front of the cut answers `-1`. -/
theorem qksort_of_front_failed (hik : i < k)
    (hpart : partition env cmp s i k = some ((j : ℤ), s₁))
    (hfront : qksort env cmp n s₁ i j = (calls, .ok (ret, s₂))) (hret : ret < 0) :
    qksort env cmp (n + 1) s i k = (⟨s, i, k⟩ :: calls, .ok (-1, s₂)) := by
  simp [qksort, hik, hpart, hfront, hret]

/-- The part in front of the cut is done, and the part behind comes next. -/
theorem qksort_of_front_done (hik : i < k)
    (hpart : partition env cmp s i k = some ((j : ℤ), s₁))
    (hfront : qksort env cmp n s₁ i j = (calls, .ok (ret, s₂))) (hret : ¬ ret < 0) :
    qksort env cmp (n + 1) s i k =
      (⟨s, i, k⟩ :: (calls ++ (qksort env cmp n s₂ (j + 1) k).1),
        (qksort env cmp n s₂ (j + 1) k).2) := by
  simp [qksort, hik, hpart, hfront, hret]

/-- The call of `partition` is the first one of the run. -/
theorem head_mem_qksort (hik : i < k) :
    (⟨s, i, k⟩ : PartitionCall) ∈ (qksort env cmp (n + 1) s i k).1 := by
  rw [qksort, if_pos hik]
  repeat' split
  all_goals exact List.mem_cons_self ..

theorem Keeps.of_le (h : k ≤ i) : Keeps env cmp s i k ([], .ok (0, s)) := by
  have hsorted : (segment (s.a.element esize) i (k + 1)).Pairwise fun x y => cmp x y ≤ 0 :=
    pairwise_segment.mpr fun m m' hm hmm hm' => by omega
  exact ⟨.refl .., .refl .., le_rfl, Or.inl ⟨rfl, iff_of_true hsorted fun _ => nofun⟩⟩

/-- A failure in the part in front of the cut. -/
theorem Keeps.front_failed (hmallocs : s.mallocs ≤ s₁.mallocs)
    (hwithin : s.a.Within esize i (k + 1) s₁.a)
    (hsplit : Split cmp (s.a.element esize r) (s.a.element esize) (s₁.a.element esize) i
      (k + 1) j)
    (hfront : Keeps env cmp s₁ i j (calls, .ok (-1, s₂))) :
    Keeps env cmp s i k (⟨s, i, k⟩ :: calls, .ok (-1, s₂)) := by
  have hij := hsplit.lo_le
  have hjk := hsplit.lt_hi
  obtain ⟨hwithin₂, hperm₂, hmallocs₂, ⟨h, -⟩ | ⟨-, m, hm, hm₂, hfail⟩⟩ := hfront
  · exact absurd h (by decide)
  · exact ⟨hwithin.trans (hwithin₂.mono le_rfl hjk),
      hsplit.rearranges.trans (hperm₂.mono le_rfl (by omega) hjk), by omega,
      Or.inr ⟨rfl, m, by omega, hm₂, hfail⟩⟩

/-- Both parts: they do not touch each other, and what they come to is what the range does. -/
theorem Keeps.join (hcmp : TotalPreorder cmp)
    (hr : partition.pivotIndex env i k (s.mallocs + 2) s.rands = some r)
    (hmallocs : s.mallocs ≤ s₁.mallocs) (hwithin : s.a.Within esize i (k + 1) s₁.a)
    (hsplit : Split cmp (s.a.element esize r) (s.a.element esize) (s₁.a.element esize) i
      (k + 1) j)
    (hfront : Keeps env cmp s₁ i j (calls, .ok (0, s₂)))
    (hback : Keeps env cmp s₂ (j + 1) k (calls', .ok (ret, s₃))) :
    Keeps env cmp s i k (⟨s, i, k⟩ :: (calls ++ calls'), .ok (ret, s₃)) := by
  have hij := hsplit.lo_le
  have hjk := hsplit.lt_hi
  obtain ⟨hwithin₂, hperm₂, hmallocs₂, ⟨-, hsorted₂⟩ | ⟨h, -⟩⟩ := hfront
  · obtain ⟨hwithin₃, hperm₃, hmallocs₃, hend⟩ := hback
    refine ⟨(hwithin.trans (hwithin₂.mono le_rfl hjk)).trans (hwithin₃.mono (by omega) le_rfl),
      (hsplit.rearranges.trans (hperm₂.mono le_rfl (by omega) hjk)).trans
        (hperm₃.mono (by omega) hjk le_rfl), by omega, ?_⟩
    obtain ⟨rfl, hsorted₃⟩ | ⟨rfl, m, hm, hm₃, hfail⟩ := hend
    · refine Or.inl ⟨rfl, ?_⟩
      rw [sorted_iff_of_parts hij hjk hperm₂ hperm₃, hsorted₂, hsorted₃,
        ← PartitionCall.clean_iff hcmp hr hsplit, List.forall_mem_cons, List.forall_mem_append]
    · exact Or.inr ⟨rfl, m, by omega, hm₃, hfail⟩
  · exact absurd h (by decide)

end Cut

/-- **A run**, by induction on its depth: the part in front of the cut, and then the part behind. -/
theorem qksort_keeps_all (hesize : 1 ≤ esize) (hcmp : TotalPreorder cmp) :
    ∀ {n : ℕ} {s : SortMem} {i k : ℕ}, i ≤ k + 1 →
      (∀ m, i ≤ m → m < k + 1 → s.a.Has esize m) →
      Keeps env cmp s i k (qksort env cmp n s i k) := by
  intro n
  induction n with
  | zero => exact fun _ _ => rfl
  | succ n ih =>
    intro s i k hik hhas
    by_cases hlt : i < k
    · obtain ⟨s₁, hpart, ha, m, hm, hm₁, hfail⟩ |
        ⟨r, j, s₁, hr, hir, hrk, hpart, hmallocs, hwithin, hsplit⟩ :=
        partition_spec hesize hcmp env hlt.le hhas
      · rw [qksort_of_failed hlt hpart]
        exact ⟨ha ▸ .refl .., ha ▸ .refl .., by omega, Or.inr ⟨rfl, m, hm, hm₁, hfail⟩⟩
      · have hij := hsplit.lo_le
        have hjk := hsplit.lt_hi
        have hhas₁ : ∀ m, i ≤ m → m < k + 1 → s₁.a.Has esize m := fun m hm hmk =>
          hwithin.has (hhas m hm hmk)
        have hleft : Keeps env cmp s₁ i j (qksort env cmp n s₁ i j) :=
          ih (by omega) fun m hm hmj => hhas₁ m hm (by omega)
        cases hfront : qksort env cmp n s₁ i j with
        | mk calls result =>
          rw [hfront] at hleft
          cases result with
          | error stop =>
            rw [qksort_of_front_error hlt hpart hfront]
            exact hleft
          | ok result =>
            obtain ⟨ret, s₂⟩ := result
            have hend := hleft.2.2.2
            obtain ⟨rfl, -⟩ | ⟨rfl, -⟩ := hend
            · have hright : Keeps env cmp s₂ (j + 1) k (qksort env cmp n s₂ (j + 1) k) :=
                ih hjk fun m hm hmk => hleft.1.has (hhas₁ m (by omega) hmk)
              rw [qksort_of_front_done hlt hpart hfront (lt_irrefl 0)]
              cases hback : qksort env cmp n s₂ (j + 1) k with
              | mk calls' result =>
                rw [hback] at hright
                cases result with
                | error stop => exact hright
                | ok result => exact .join hcmp hr hmallocs hwithin hsplit hleft hright
            · rw [qksort_of_front_failed hlt hpart hfront (by decide)]
              exact .front_failed hmallocs hwithin hsplit hleft
    · rw [qksort_of_le (Nat.le_of_not_lt hlt)]
      exact .of_le (Nat.le_of_not_lt hlt)

/-- The cut of a call is in front of the last element exactly when the call narrows. -/
theorem PartitionCall.narrows_iff (hcmp : TotalPreorder cmp) {s s₁ : SortMem} {i k r j : ℕ}
    (hr : partition.pivotIndex env i k (s.mallocs + 2) s.rands = some r) (hir : i ≤ r)
    (hrk : r ≤ k)
    (hsplit : Split cmp (s.a.element esize r) (s.a.element esize) (s₁.a.element esize) i
      (k + 1) j) :
    j < k ↔ PartitionCall.Narrows env cmp ⟨s, i, k⟩ := by
  have hlt := hsplit.lt_iff ⟨r, hir, Nat.lt_succ_of_le hrk, hcmp.self_eq_zero _⟩
  simp only [Nat.succ_lt_succ_iff] at hlt
  rw [hlt]
  constructor
  · rintro hequal r' hr'
    obtain rfl := Option.some.inj (hr.symm.trans hr')
    exact hequal
  · exact fun hnarrows => hnarrows r hr

/-- **Termination.** A run is over when it may go as deep as its range is long, if all its calls
narrow. -/
theorem qksort_ends (hesize : 1 ≤ esize) (hcmp : TotalPreorder cmp) :
    ∀ {n : ℕ} {s : SortMem} {i k : ℕ}, i ≤ k + 1 → k - i < n →
      (∀ m, i ≤ m → m < k + 1 → s.a.Has esize m) →
      (∀ c ∈ (qksort env cmp n s i k).1, c.Narrows env cmp) →
      ∃ ret s', (qksort env cmp n s i k).2 = .ok (ret, s') := by
  intro n
  induction n with
  | zero => exact fun _ h => by omega
  | succ n ih =>
    intro s i k hik hn hhas hcalls
    by_cases hlt : i < k
    · obtain ⟨s₁, hpart, -⟩ | ⟨r, j, s₁, hr, hir, hrk, hpart, -, hwithin, hsplit⟩ :=
        partition_spec hesize hcmp env hlt.le hhas
      · exact ⟨-1, s₁, by rw [qksort_of_failed hlt hpart]⟩
      · have hij := hsplit.lo_le
        have hjk : j < k := (PartitionCall.narrows_iff hcmp hr hir hrk hsplit).mpr
          (hcalls _ (head_mem_qksort hlt))
        have hhas₁ : ∀ m, i ≤ m → m < k + 1 → s₁.a.Has esize m := fun m hm hmk =>
          hwithin.has (hhas m hm hmk)
        have hkeeps : Keeps env cmp s₁ i j (qksort env cmp n s₁ i j) :=
          qksort_keeps_all hesize hcmp (by omega) fun m hm hmj => hhas₁ m hm (by omega)
        have hleft := ih (s := s₁) (i := i) (k := j) (by omega) (by omega)
          fun m hm hmj => hhas₁ m hm (by omega)
        cases hfront : qksort env cmp n s₁ i j with
        | mk calls result =>
          rw [hfront] at hkeeps hleft
          cases result with
          | error stop =>
            rw [qksort_of_front_error hlt hpart hfront] at hcalls
            obtain ⟨ret, s', hok⟩ := hleft fun c hc => hcalls c (List.mem_cons_of_mem _ hc)
            cases hok
          | ok result =>
            obtain ⟨ret, s₂⟩ := result
            by_cases hret : ret < 0
            · exact ⟨-1, s₂, by rw [qksort_of_front_failed hlt hpart hfront hret]⟩
            · rw [qksort_of_front_done hlt hpart hfront hret] at hcalls ⊢
              refine ih (by omega) (by omega) ?_ ?_
              · intro m hm hmk
                exact hkeeps.1.has (hhas₁ m (by omega) hmk)
              · intro c hc
                exact hcalls c (List.mem_cons_of_mem _ (List.mem_append_right _ hc))
    · exact ⟨0, s, by rw [qksort_of_le (Nat.le_of_not_lt hlt)]⟩

end Runs

/-! ### Results -/

section Results

variable {cmp : Elem esize → Elem esize → ℤ} {size i k : ℕ}

/-- The elements of a range may be accessed when their bytes are live. -/
theorem has_of_range {a : Bytes} (hsize : size * esize < 2 ^ 31) (hk : k < size)
    (hlive : ∀ m, i ≤ m → m ≤ k → ∀ d < esize, m * esize + d ∈ a.live) (m : ℕ) (hm : i ≤ m)
    (hmk : m < k + 1) : a.Has esize m := by
  refine ⟨?_, hlive m hm (Nat.le_of_lt_succ hmk)⟩
  have hle := Nat.mul_le_mul_right esize (show m ≤ size by omega)
  omega

/-- **Nothing is lost.** No byte outside the range need be live, so none is touched. A call of
`partition` cuts the range, or answers `-1` and has done nothing; and wherever a run of `qksort`
ends, it has changed the order of the range and nothing else, and where it answers `-1` an
allocation has failed. -/
theorem qksort_loses_nothing (hesize : 1 ≤ esize) (hcmp : TotalPreorder cmp) (env : Supply)
    (s : SortMem) (hsize : size * esize < 2 ^ 31) (hik : i < k) (hk : k < size)
    (hlive : ∀ m, i ≤ m → m ≤ k → ∀ d < esize, m * esize + d ∈ s.a.live) :
    (∃ j s', partition env cmp s i k = some (j, s') ∧ s.a.Within esize i (k + 1) s'.a ∧
      Rearranges i (k + 1) (s.a.element esize) (s'.a.element esize) ∧
      ((i : ℤ) ≤ j ∧ j ≤ k ∨ j = -1 ∧ s'.a = s.a ∧
        ∃ n, s.mallocs ≤ n ∧ n < s'.mallocs ∧ env.malloc n = false)) ∧
    ∀ n, (qksort env cmp n s i k).2 ≠ .error .undefined ∧
      ∀ ret s', (qksort env cmp n s i k).2 = .ok (ret, s') →
        s.a.Within esize i (k + 1) s'.a ∧
        Rearranges i (k + 1) (s.a.element esize) (s'.a.element esize) ∧
        (ret = 0 ∨ ret = -1 ∧ ∃ n, s.mallocs ≤ n ∧ n < s'.mallocs ∧ env.malloc n = false) := by
  have hhas := has_of_range hsize hk hlive
  refine ⟨?_, ?_⟩
  · obtain ⟨s', hpart, ha, hfail⟩ | ⟨r, j, s', -, -, -, hpart, -, hwithin, hsplit⟩ :=
      partition_spec hesize hcmp env hik.le hhas
    · exact ⟨-1, s', hpart, ha ▸ .refl .., ha ▸ .refl .., Or.inr ⟨rfl, ha, hfail⟩⟩
    · have hlo := hsplit.lo_le
      have hhi := hsplit.lt_hi
      exact ⟨j, s', hpart, hwithin, hsplit.rearranges, Or.inl ⟨by omega, by omega⟩⟩
  · intro n
    have hkeeps : Keeps env cmp s i k (qksort env cmp n s i k) :=
      qksort_keeps_all hesize hcmp (by omega) hhas
    generalize qksort env cmp n s i k = run at hkeeps ⊢
    obtain ⟨calls, stop | ⟨ret, s'⟩⟩ := run
    · obtain rfl : stop = .unfinished := hkeeps
      exact ⟨nofun, fun _ _ => nofun⟩
    · obtain ⟨hwithin, hperm, -, hend⟩ := hkeeps
      refine ⟨nofun, ?_⟩
      intro ret' t h
      obtain ⟨rfl, rfl⟩ := Prod.mk.inj (Except.ok.inj h)
      exact ⟨hwithin, hperm, hend.imp And.left id⟩

/-- Elements of one byte, compared by it. -/
def byteOrder (x y : Elem 1) : ℤ := (x 0).toNat - (y 0).toNat

theorem totalPreorder_byteOrder : TotalPreorder byteOrder := .of_key fun x : Elem 1 => (x 0).toNat

/-- Of four elements only the middle two may be touched, and there is no memory for the block that
`issort` asks for. -/
theorem qksort_loses_nothing_sample : ∃ j s',
    partition ⟨(· ≠ 2), fun _ => 0⟩ byteOrder ⟨⟨fun p => [9, 3, 1, 9].getD p 0, {1, 2}⟩, 0, 0⟩ 1 2 =
      some (j, s') ∧
    Rearranges 1 3 (Bytes.element ⟨fun p => [9, 3, 1, 9].getD p 0, {1, 2}⟩ 1) (s'.a.element 1) := by
  obtain ⟨⟨j, s', hpart, -, hperm, -⟩, -⟩ := qksort_loses_nothing (le_refl 1)
    totalPreorder_byteOrder ⟨(· ≠ 2), fun _ => 0⟩
    ⟨⟨fun p => [9, 3, 1, 9].getD p 0, {1, 2}⟩, 0, 0⟩ (show 4 * 1 < 2 ^ 31 by decide)
    (show 1 < 2 by decide) (by decide) (by decide)
  exact ⟨j, s', hpart, hperm⟩

/-- **Sorting.** A run that ends, with memory at hand, answers `0` and leaves the elements of the
range in some order; and they are in order exactly when every pivot it has chosen has cut its range
cleanly. -/
theorem qksort_sorts_iff (hesize : 1 ≤ esize) (hcmp : TotalPreorder cmp) (env : Supply)
    (henv : ∀ n, env.malloc n = true) (s : SortMem) (hsize : size * esize < 2 ^ 31)
    (hlive : s.a.live = Finset.range (size * esize)) (hik : i ≤ k) (hk : k < size) {n : ℕ}
    {calls : List PartitionCall} {ret : ℤ} {s' : SortMem}
    (h : qksort env cmp n s i k = (calls, .ok (ret, s'))) :
    ret = 0 ∧
      (segment (s'.a.element esize) i (k + 1)).Perm (segment (s.a.element esize) i (k + 1)) ∧
      ((segment (s'.a.element esize) i (k + 1)).Pairwise (fun x y => cmp x y ≤ 0) ↔
        ∀ c ∈ calls, c.Clean env cmp) := by
  have hkeeps : Keeps env cmp s i k (qksort env cmp n s i k) :=
    qksort_keeps_all hesize hcmp (by omega) fun m _ hm =>
      Bytes.has_of_live hsize hlive (by omega)
  rw [h] at hkeeps
  obtain ⟨-, hperm, -, ⟨rfl, hsorted⟩ | ⟨-, m, -, -, hfail⟩⟩ := hkeeps
  · exact ⟨rfl, hperm.perm, hsorted⟩
  · rw [henv m] at hfail
    cases hfail

/-- Three elements `3, 1, 2`, and the first of the range for the pivot every time. -/
theorem qksort_sorts_iff_sample : ∃ calls s',
    qksort ⟨fun _ => true, fun _ => 0⟩ byteOrder 5 ⟨.ofList [3, 1, 2], 0, 0⟩ 0 2 =
      (calls, .ok (0, s')) ∧
    (segment (s'.a.element 1) 0 3).map (· 0) = [1, 2, 3] ∧
    ∀ c ∈ calls, c.Clean ⟨fun _ => true, fun _ => 0⟩ byteOrder := by
  have hrun : qksort ⟨fun _ => true, fun _ => 0⟩ byteOrder 5 ⟨.ofList [3, 1, 2], 0, 0⟩ 0 2 =
      (_, .ok (0, _)) := rfl
  refine ⟨_, _, hrun, rfl, (qksort_sorts_iff (le_refl 1) totalPreorder_byteOrder _ (fun _ => rfl) _
    (show 3 * 1 < 2 ^ 31 by decide) rfl (by decide) (by decide) hrun).2.2.mp ?_⟩
  decide

/-- The same elements, and `1` for the first pivot: the cut is behind it, and the `3` in front of it
stays in front of the `2`. -/
theorem not_qksort_sorts : ∃ calls s',
    qksort ⟨fun _ => true, fun n => if n < 3 then 1 else 0⟩ byteOrder 5 ⟨.ofList [3, 1, 2], 0, 0⟩
      0 2 = (calls, .ok (0, s')) ∧
    (segment (s'.a.element 1) 0 3).map (· 0) = [1, 3, 2] ∧
    ¬ (segment (s'.a.element 1) 0 3).Pairwise fun x y => byteOrder x y ≤ 0 := by
  have hrun : qksort ⟨fun _ => true, fun n => if n < 3 then 1 else 0⟩ byteOrder 5
      ⟨.ofList [3, 1, 2], 0, 0⟩ 0 2 = (_, .ok (0, _)) := rfl
  refine ⟨_, _, hrun, rfl, ?_⟩
  decide

/-- **Progress.** With memory at hand, a call of `partition` answers an index in front of the last
one of its range exactly when its pivot, or an element equal to it, is in front of the last element.
A run of `qksort` all of whose calls are such ends. -/
theorem partition_narrows_iff (hesize : 1 ≤ esize) (hcmp : TotalPreorder cmp) (env : Supply)
    (henv : ∀ n, env.malloc n = true) (s : SortMem) (hsize : size * esize < 2 ^ 31)
    (hlive : s.a.live = Finset.range (size * esize)) (hik : i < k) (hk : k < size) :
    (∃ (j : ℕ) (s' : SortMem), partition env cmp s i k = some ((j : ℤ), s') ∧ i ≤ j ∧ j ≤ k ∧
      (j < k ↔ PartitionCall.Narrows env cmp ⟨s, i, k⟩)) ∧
    ∀ n, k - i < n → (∀ c ∈ (qksort env cmp n s i k).1, c.Narrows env cmp) →
      ∃ ret s', (qksort env cmp n s i k).2 = .ok (ret, s') := by
  have hhas : ∀ m, i ≤ m → m < k + 1 → s.a.Has esize m := fun m _ hm =>
    Bytes.has_of_live hsize hlive (by omega)
  refine ⟨?_, fun n hn hcalls => qksort_ends hesize hcmp (by omega) hn hhas hcalls⟩
  obtain ⟨s', -, -, m, -, -, hfail⟩ | ⟨r, j, s', hr, hir, hrk, hpart, -, -, hsplit⟩ :=
    partition_spec hesize hcmp env hik.le hhas
  · rw [henv m] at hfail
    cases hfail
  · exact ⟨j, s', hpart, hsplit.lo_le, Nat.le_of_lt_succ hsplit.lt_hi,
      PartitionCall.narrows_iff hcmp hr hir hrk hsplit⟩

/-- Two elements `1, 2`, and the first one for the pivot. -/
theorem partition_narrows_iff_sample : ∃ (j : ℕ) (s' : SortMem),
    partition ⟨fun _ => true, fun _ => 0⟩ byteOrder ⟨.ofList [1, 2], 0, 0⟩ 0 1 =
      some ((j : ℤ), s') ∧ j < 1 := by
  obtain ⟨⟨j, s', hpart, -, -, hlt⟩, -⟩ := partition_narrows_iff (le_refl 1)
    totalPreorder_byteOrder ⟨fun _ => true, fun _ => 0⟩ (fun _ => rfl) ⟨.ofList [1, 2], 0, 0⟩
    (show 2 * 1 < 2 ^ 31 by decide) rfl (show 0 < 1 by decide) (by decide)
  refine ⟨j, s', hpart, hlt.mpr fun r hr => ⟨0, le_rfl, Nat.zero_lt_one, ?_⟩⟩
  obtain rfl : 0 = r := Option.some.inj hr
  rfl

/-- The last of two elements for the pivot, and greater than the first: the cut is at the end of the
range, and nothing has changed. -/
theorem partition_of_last (mallocs rands : ℕ) :
    partition ⟨fun _ => true, fun _ => 1⟩ byteOrder ⟨.ofList [1, 2], mallocs, rands⟩ 0 1 =
      some (1, ⟨.ofList [1, 2], mallocs + 3, rands + 3⟩) := by
  -- it does not matter how often `malloc` and `rand` have been called
  have hfirst : partition.pivotIndex ⟨fun _ => true, fun _ => 1⟩ 0 1 0 0 = some 1 := rfl
  have hr : partition.pivotIndex ⟨fun _ => true, fun _ => 1⟩ 0 1 (mallocs + 2) rands = some 1 :=
    hfirst
  rw [partition, if_pos rfl, if_pos rfl, hr]
  rfl

/-- With that choice every time, `qksort` calls itself for the same range for ever. -/
theorem not_partition_narrows :
    (∃ s', partition ⟨fun _ => true, fun _ => 1⟩ byteOrder ⟨.ofList [1, 2], 0, 0⟩ 0 1 =
      some (1, s')) ∧
    ∀ n, (qksort ⟨fun _ => true, fun _ => 1⟩ byteOrder n ⟨.ofList [1, 2], 0, 0⟩ 0 1).2 =
      .error .unfinished := by
  refine ⟨⟨_, partition_of_last 0 0⟩, ?_⟩
  intro n
  suffices hall : ∀ mallocs rands,
      (qksort ⟨fun _ => true, fun _ => 1⟩ byteOrder n ⟨.ofList [1, 2], mallocs, rands⟩ 0 1).2 =
        .error .unfinished from hall 0 0
  induction n with
  | zero => exact fun _ _ => rfl
  | succ n ih =>
    intro mallocs rands
    have hleft := ih (mallocs + 3) (rands + 3)
    rw [qksort, if_pos Nat.zero_lt_one, partition_of_last]
    simp only [Int.toNat_one, if_neg (show ¬ (1 : ℤ) < 0 by decide)]
    generalize qksort ⟨fun _ => true, fun _ => 1⟩ byteOrder n
      ⟨.ofList [1, 2], mallocs + 3, rands + 3⟩ 0 1 = left at hleft ⊢
    obtain ⟨calls, stop | r⟩ := left
    · exact hleft
    · cases hleft

end Results

end Exec02
