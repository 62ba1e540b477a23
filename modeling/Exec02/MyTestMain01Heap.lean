import Exec02.Lib.Heap
import Exec02.Lib.HeapOrder
import Exec02.Lib.Machine
import Exec02.Lib.Segment
import Mathlib.Data.Finset.Range

/-!
# The priority queue of `MyTestMain01.cpp`

`struct Heap`: a queue of `int`s in an array that is a heap. `insert` lets a hole travel up from the
end until the new value fits into it; `deleteMax` puts the last value in front and exchanges it with
its greater child until there is none. There is room for a new value because `resize` doubles the
capacity, which makes room unless there was none at all.

## Reading the model

A heap is modelled together with its array, which no one else has a pointer to; what the array is
made of may be accessed, and nothing else. `new` always finds memory, which holds anything. An
`int` that gets too large is a fault, and so is an access outside the array. `fuel` bounds loops and
recursions, and running out of it is a fault as well.

## Main results

* `percolateDown_spec`, `insert.loop_spec` — a value on its way down, and a hole on its way up
* `resize_spec`, `insert_spec`, `deleteMax_spec`, `buildHeap_spec` — the operations on a heap
-/

namespace Exec02

/-! ### The source -/

/-- What may go wrong. -/
inductive HeapFault
  | overflow
  | outside
  | endless
  deriving DecidableEq

namespace HeapFault

/-- The result of an operation on `int`s. -/
def toInt (i : ℤ) : Except HeapFault ℤ :=
  if -2 ^ 31 ≤ i ∧ i < 2 ^ 31 then .ok i else .error .overflow

/-- An access that fails is one outside the array. -/
def orOutside {α : Type} : Option α → Except HeapFault α
  | some a => .ok a
  | none => .error .outside

/-- An `int` has become too large. -/
def isOverflow {α : Type} : Except HeapFault α → Bool
  | .error .overflow => true
  | _ => false

end HeapFault

open HeapFault

/-- `new int[n]`. -/
def newInts (n : ℤ) (prior : ℕ → ℤ) : Heap ℕ ℤ := ⟨prior, Finset.range n.toNat⟩

/-- `ar[i]`. -/
def loadAt (ar : Heap ℕ ℤ) (i : ℤ) : Except HeapFault ℤ := orOutside do ar.load (← i.toNat?)

/-- `ar[i] = v`. -/
def storeAt (ar : Heap ℕ ℤ) (i v : ℤ) : Except HeapFault (Heap ℕ ℤ) :=
  orOutside do ar.store (← i.toNat?) v

inductive HeapType
  | min
  | max
  deriving DecidableEq

/-- `struct Heap`, with what `ar` is: a pointer, or the array that it points to. -/
structure HeapOf (π : Type) where
  capacity : ℤ
  count : ℤ
  ar : π
  heapType : HeapType

/-- A heap with its array. -/
abbrev IntHeap := HeapOf (Heap ℕ ℤ)

namespace IntHeap

/-- `Heap(capacity, heapType)`, which throws if the capacity is negative. -/
def new (capacity : Int32) (heapType : HeapType) (prior : ℕ → ℤ) : Option IntHeap :=
  if capacity < 0 then none
  else some ⟨capacity.toInt, 0, newInts capacity.toInt prior, heapType⟩

/-- An index, or `-1` where there is no value. -/
def child (s : IntHeap) (i : ℤ) : Except HeapFault ℤ := do
  let i ← toInt i
  if i ≥ s.count then return -1
  return i

/-- `leftChild(i)`. -/
def leftChild (s : IntHeap) (i : ℤ) : Except HeapFault ℤ := s.child (i * 2 + 1)

/-- `rightChild(i)`. -/
def rightChild (s : IntHeap) (i : ℤ) : Except HeapFault ℤ := s.child (i * 2 + 2)

/-- `child != -1 && ar[child] > ar[max] ? child : max`. -/
def greater (s : IntHeap) (child max : ℤ) : Except HeapFault ℤ :=
  if child ≠ -1 then do
    if (← loadAt s.ar child) > (← loadAt s.ar max) then return child
    return max
  else return max

/-- `percolateDown(i)`. -/
def percolateDown : ℕ → IntHeap → ℤ → Except HeapFault (ℤ × IntHeap)
  | 0, _, _ => .error .endless
  | fuel + 1, s, i =>
    if i < 0 ∨ i ≥ s.count then return (-1, s)
    else do
      let l ← s.leftChild i
      let r ← s.rightChild i
      let max ← s.greater l i
      let max ← s.greater r max
      if max ≠ i then
        let temp ← loadAt s.ar max
        let ar ← storeAt s.ar max (← loadAt s.ar i)
        let ar ← storeAt ar i temp
        percolateDown fuel { s with ar } max
      else return (-1, s)

/-- `resize()`, with what the new array holds. -/
def resize (s : IntHeap) (prior : ℕ → ℤ) : Except HeapFault (ℤ × IntHeap) := do
  let capacity ← toInt (s.capacity * 2)
  let ar ← (List.range' 0 s.count.toNat).foldlM
    (fun ar (i : ℕ) => do storeAt ar i (← loadAt s.ar i)) (newInts capacity prior)
  return (0, { s with capacity, ar })

/-- The loop of `insert`, on `ar` and `i`. -/
def insert.loop (data : ℤ) : ℕ → Heap ℕ ℤ → ℤ → Except HeapFault (Heap ℕ ℤ × ℤ)
  | 0, _, _ => .error .endless
  | fuel + 1, ar, i =>
    if i > 0 then do
      if data > (← loadAt ar ((i - 1).tdiv 2)) then
        let ar ← storeAt ar i (← loadAt ar ((i - 1).tdiv 2))
        insert.loop data fuel ar ((i - 1).tdiv 2)
      else return (ar, i)
    else return (ar, i)

/-- `insert(data)`, with what the array holds that `resize` makes. -/
def insert (s : IntHeap) (data : ℤ) (prior : ℕ → ℤ) : Except HeapFault (ℤ × IntHeap) := do
  let (_, s) ← (if s.count ≥ s.capacity then s.resize prior else pure (0, s))
  let count ← toInt (s.count + 1)
  let (ar, i) ← insert.loop data count.toNat s.ar (count - 1)
  let ar ← storeAt ar i data
  return (0, { s with count, ar })

/-- `deleteMax()`. -/
def deleteMax (s : IntHeap) : Except HeapFault (ℤ × IntHeap) :=
  if s.count ≤ 0 then return (-1, s)
  else do
    let data ← loadAt s.ar 0
    let ar ← storeAt s.ar 0 (← loadAt s.ar (s.count - 1))
    let ar ← storeAt ar (s.count - 1) 0
    let s := { s with count := s.count - 1, ar }
    let (_, s) ← percolateDown (s.count.toNat + 1) s 0
    return (data, s)

/-- `buildHeap`, from an array or from a list. -/
def buildHeap (s : IntHeap) : List (ℤ × (ℕ → ℤ)) → Except HeapFault IntHeap
  | [] => return s
  | (data, prior) :: items => do
    let (_, s) ← s.insert data prior
    s.buildHeap items

end IntHeap

/-! ### Accesses -/

namespace HeapFault

variable {α β : Type}

@[simp] theorem ok_bind (a : α) (f : α → Except HeapFault β) : (Except.ok a >>= f) = f a := rfl

@[simp] theorem error_bind (fault : HeapFault) (f : α → Except HeapFault β) :
    (Except.error fault >>= f) = .error fault := rfl

@[simp] theorem pure_eq (a : α) : (pure a : Except HeapFault α) = .ok a := rfl

theorem toInt_of_lt {i : ℤ} (hi : 0 ≤ i) (hlt : i < 2 ^ 31) : toInt i = .ok i :=
  if_pos ⟨by omega, hlt⟩

theorem toInt_of_le {i : ℤ} (hle : 2 ^ 31 ≤ i) : toInt i = .error .overflow :=
  if_neg (by omega)

end HeapFault

theorem loadAt_of_mem {ar : Heap ℕ ℤ} {k : ℕ} (hk : k ∈ ar.live) :
    loadAt ar k = .ok (ar.cell k) := congrArg orOutside (Heap.load_of_mem hk)

theorem storeAt_of_mem (ar : Heap ℕ ℤ) {k : ℕ} (hk : k ∈ ar.live) (v : ℤ) :
    storeAt ar k v = .ok ⟨Function.update ar.cell k v, ar.live⟩ :=
  congrArg orOutside (Heap.store_of_mem hk v)

/-- Half of an index, as an `int`. -/
theorem tdiv_two {k : ℕ} (hk : 0 < k) : ((k : ℤ) - 1).tdiv 2 = ((k - 1) / 2 : ℕ) := by
  rw [Int.tdiv_eq_ediv_of_nonneg (by omega)]
  omega

namespace IntHeap

variable {s t : IntHeap} {n k m c fuel : ℕ} {data : ℤ} {prior : ℕ → ℤ}

/-- There are `n` values, all of them inside the array. -/
structure Shaped (s : IntHeap) (n : ℕ) : Prop where
  count : s.count = n
  le : (n : ℤ) ≤ s.capacity
  lt : s.capacity < 2 ^ 31
  live : s.ar.live = Finset.range s.capacity.toNat

/-- They are in heap order. -/
structure Ordered (s : IntHeap) (n : ℕ) : Prop extends Shaped s n where
  ordered : HeapOrdered s.ar.cell n

/-- The values. -/
def contents (s : IntHeap) : List ℤ := segment s.ar.cell 0 s.count.toNat

namespace Shaped

theorem mem (h : s.Shaped n) (hk : k < n) : k ∈ s.ar.live := by
  rw [h.live, Finset.mem_range]
  have := h.le
  omega

theorem loadAt_eq (h : s.Shaped n) (hk : k < n) : loadAt s.ar k = .ok (s.ar.cell k) :=
  loadAt_of_mem (h.mem hk)

theorem contents_eq (h : s.Shaped n) : s.contents = segment s.ar.cell 0 n := by
  rw [contents, h.count, Int.toNat_natCast]

theorem length_contents (h : s.Shaped n) : s.contents.length = n := by
  rw [h.contents_eq, length_segment, Nat.sub_zero]

/-- Other values in the same places. -/
theorem withCells (h : s.Shaped n) (f : ℕ → ℤ) : Shaped { s with ar := ⟨f, s.ar.live⟩ } n :=
  ⟨h.count, h.le, h.lt, h.live⟩

end Shaped

/-! ### Down -/

/-- A child, or `-1`. -/
theorem child_eq (h : s.Shaped n) (hlt : c < 2 ^ 31) :
    s.child c = .ok (if c < n then (c : ℤ) else -1) := by
  have hcount := h.count
  rw [child, toInt_of_lt (by omega) (by omega), ok_bind, hcount]
  split_ifs with hge hc hc
  · omega
  · rfl
  · rfl
  · omega

theorem leftChild_eq (h : s.Shaped n) (hlt : 2 * k + 1 < 2 ^ 31) :
    s.leftChild k = .ok (if 2 * k + 1 < n then ((2 * k + 1 : ℕ) : ℤ) else -1) := by
  rw [← child_eq h hlt, leftChild]
  congr 1
  omega

theorem rightChild_eq (h : s.Shaped n) (hlt : 2 * k + 2 < 2 ^ 31) :
    s.rightChild k = .ok (if 2 * k + 2 < n then ((2 * k + 2 : ℕ) : ℤ) else -1) := by
  rw [← child_eq h hlt, rightChild]
  congr 1
  omega

/-- An index that is too large. -/
theorem child_overflow {i : ℤ} (hle : 2 ^ 31 ≤ i) : s.child i = .error .overflow := by
  rw [child, toInt_of_le hle]
  rfl

/-- The greater one of a child, if it is there, and another value. -/
theorem greater_spec (h : s.Shaped n) (hm : m < n) :
    ∃ m' < n, s.greater (if c < n then (c : ℤ) else -1) m = .ok (m' : ℤ) ∧
      s.ar.cell m ≤ s.ar.cell m' ∧ (c < n → s.ar.cell c ≤ s.ar.cell m') ∧
      (m' = m ∨ m' = c ∧ s.ar.cell m < s.ar.cell c) := by
  by_cases hc : c < n
  · have hne : (c : ℤ) ≠ -1 := by omega
    rw [if_pos hc, greater, if_pos hne, h.loadAt_eq hc, h.loadAt_eq hm]
    by_cases hgt : s.ar.cell c > s.ar.cell m
    · exact ⟨c, hc, if_pos hgt, hgt.le, fun _ => le_rfl, Or.inr ⟨rfl, hgt⟩⟩
    · exact ⟨m, hm, if_neg hgt, le_rfl, fun _ => not_lt.mp hgt, Or.inl rfl⟩
  · rw [if_neg hc]
    exact ⟨m, hm, rfl, le_rfl, fun hc' => absurd hc' hc, Or.inl rfl⟩

/-- Where an index is too large for its children to have one. -/
theorem children_overflow (h : s.Shaped n) (hle : 2 ^ 31 ≤ 2 * k + 2) {β : Type}
    (f : ℤ → ℤ → Except HeapFault β) :
    (do let l ← s.leftChild k; let r ← s.rightChild k; f l r) = .error .overflow := by
  have hright : s.rightChild k = .error .overflow := child_overflow (by omega)
  by_cases hleft : 2 * k + 1 < 2 ^ 31
  · rw [leftChild_eq h hleft, ok_bind, hright]
    rfl
  · have hleft : s.leftChild k = .error .overflow := child_overflow (by omega)
    rw [hleft]
    rfl

/-- One value is exchanged with another. -/
theorem exchange_eq (h : s.Shaped n) (hk : k < n) (hm : m < n) {β : Type}
    (f : Heap ℕ ℤ → Except HeapFault β) :
    (do
      let temp ← loadAt s.ar m
      let ar ← storeAt s.ar m (← loadAt s.ar k)
      let ar ← storeAt ar k temp
      f ar) = f ⟨s.ar.cell ∘ Equiv.swap k m, s.ar.live⟩ := by
  have hstore := storeAt_of_mem ⟨Function.update s.ar.cell m (s.ar.cell k), s.ar.live⟩
    (h.mem hk) (s.ar.cell m)
  rw [h.loadAt_eq hm, ok_bind, h.loadAt_eq hk, ok_bind, storeAt_of_mem _ (h.mem hm), ok_bind,
    hstore, ok_bind, Equiv.comp_swap_eq_update]

/-- **Down.** A value on its way down gets where it belongs, unless its index gets too large. -/
theorem percolateDown_spec (h : s.Shaped n) (hsink : SinkingAt s.ar.cell n k) (hk : k ≤ n)
    (hfuel : n < k + fuel) :
    (percolateDown fuel s k = .error .overflow ∧ 2 ^ 30 ≤ n) ∨
      ∃ f, percolateDown fuel s k = .ok (-1, { s with ar := ⟨f, s.ar.live⟩ }) ∧
        HeapOrdered f n ∧ Rearranges 0 n s.ar.cell f := by
  have hcount := h.count
  induction fuel generalizing s k with
  | zero => omega
  | succ fuel ih =>
    rcases hk.eq_or_lt with rfl | hk
    · refine Or.inr ⟨s.ar.cell, ?_, hsink.stop ?_, .refl ..⟩
      · rw [percolateDown, if_pos (Or.inr (by omega))]
        rfl
      · intro i _ hi hparent
        omega
    · rw [percolateDown, if_neg (by omega)]
      by_cases hint : 2 * k + 2 < 2 ^ 31
      · obtain ⟨m', hm', hl, hle, hleft, hcases⟩ := greater_spec (c := 2 * k + 1) h hk
        obtain ⟨m, hm, hr, hle', hright, hcases'⟩ := greater_spec (c := 2 * k + 2) h hm'
        have hmax : ∀ i, 0 < i → i < n → (i - 1) / 2 = k → s.ar.cell i ≤ s.ar.cell m := by
          intro i hpos hi hparent
          obtain rfl | rfl : i = 2 * k + 1 ∨ i = 2 * k + 2 := by omega
          · exact (hleft hi).trans hle'
          · exact hright hi
        rw [leftChild_eq h (by omega), rightChild_eq h hint, ok_bind, ok_bind, hl, ok_bind, hr,
          ok_bind]
        by_cases hmk : m = k
        · rw [if_neg (by omega)]
          exact Or.inr ⟨s.ar.cell, rfl, hsink.stop (hmk ▸ hmax), .refl ..⟩
        · -- the greater child takes the place of its parent
          have hchild : (m - 1) / 2 = k ∧ 0 < m ∧ s.ar.cell k < s.ar.cell m := by
            rcases hcases' with rfl | ⟨rfl, hlt⟩
            · rcases hcases with rfl | ⟨rfl, hlt⟩
              · exact absurd rfl hmk
              · exact ⟨by omega, by omega, hlt⟩
            · exact ⟨by omega, by omega, hle.trans_lt hlt⟩
          obtain ⟨hparent, hpos, hlt⟩ := hchild
          rw [if_pos (by omega), exchange_eq h hk hm]
          have hsink' := hsink.exchange hpos hm hparent hlt hmax
          have hswap := Rearranges.swap s.ar.cell ⟨k.zero_le, hk⟩ ⟨m.zero_le, hm⟩
          rcases ih (h.withCells _) hsink' hm.le (by omega) hcount with
            hover | ⟨f, hdown, hf, hperm⟩
          · exact Or.inl hover
          · exact Or.inr ⟨f, hdown, hf, hswap.trans hperm⟩
      · exact Or.inl ⟨children_overflow h (by omega) _, by omega⟩

/-! ### Up -/

/-- A value that is moved down leaves the hole one step higher. -/
theorem update_hole (f : ℕ → ℤ) (data : ℤ) (hpos : 0 < k) :
    Function.update (Function.update f k (f ((k - 1) / 2))) ((k - 1) / 2) data =
      Function.update f k data ∘ Equiv.swap k ((k - 1) / 2) := by
  have hne : (k - 1) / 2 ≠ k := by omega
  rw [Equiv.comp_swap_eq_update, Function.update_self, Function.update_of_ne hne,
    Function.update_comm hne, Function.update_idem]

/-- **Up.** The hole gets where the value belongs. -/
theorem insert.loop_spec (ar : Heap ℕ ℤ) (hlive : ∀ i < n, i ∈ ar.live) (hk : k < n)
    (hrise : RisingAt (Function.update ar.cell k data) n k) (hfuel : k < fuel) :
    ∃ f, ∃ j < n, insert.loop data fuel ar k = .ok (⟨f, ar.live⟩, (j : ℤ)) ∧
      HeapOrdered (Function.update f j data) n ∧
      Rearranges 0 n (Function.update ar.cell k data) (Function.update f j data) := by
  induction fuel generalizing ar k with
  | zero => omega
  | succ fuel ih =>
    rw [insert.loop]
    rcases Nat.eq_zero_or_pos k with rfl | hpos
    · exact ⟨ar.cell, 0, hk, rfl, hrise.stop fun h => absurd h (Nat.lt_irrefl 0), .refl ..⟩
    · have hne : (k - 1) / 2 ≠ k := by omega
      have hself : Function.update ar.cell k data k = data := Function.update_self ..
      have hparent : Function.update ar.cell k data ((k - 1) / 2) = ar.cell ((k - 1) / 2) :=
        Function.update_of_ne hne ..
      have hp : (k - 1) / 2 < n := by omega
      rw [if_pos (by omega), tdiv_two hpos, loadAt_of_mem (hlive _ hp), ok_bind]
      by_cases hgt : data > ar.cell ((k - 1) / 2)
      · rw [if_pos hgt, ok_bind, storeAt_of_mem _ (hlive k hk), ok_bind]
        have hrise' := hrise.exchange hpos hk (by rwa [hself, hparent])
        have hswap := Rearranges.swap (Function.update ar.cell k data) ⟨k.zero_le, hk⟩
          ⟨((k - 1) / 2).zero_le, hp⟩
        rw [← update_hole ar.cell data hpos] at hrise' hswap
        obtain ⟨f, j, hj, hloop, hf, hperm⟩ := ih
          ⟨Function.update ar.cell k (ar.cell ((k - 1) / 2)), ar.live⟩ hlive hp hrise' (by omega)
        exact ⟨f, j, hj, hloop, hf, hswap.trans hperm⟩
      · rw [if_neg hgt]
        refine ⟨ar.cell, k, hk, rfl, hrise.stop ?_, .refl ..⟩
        intro _
        rw [hself, hparent]
        exact not_lt.mp hgt

/-- **More room.** The values are where they were, in an array of twice the size. -/
theorem resize_spec (h : s.Shaped n) (prior : ℕ → ℤ) :
    (s.resize prior = .error .overflow ∧ 2 ^ 30 ≤ s.capacity) ∨
      ∃ t, s.resize prior = .ok (0, t) ∧ t.Shaped n ∧ t.capacity = s.capacity * 2 ∧
        ∀ i < n, t.ar.cell i = s.ar.cell i := by
  have hle := h.le
  by_cases hlt : s.capacity * 2 < 2 ^ 31
  · refine Or.inr ?_
    have hcopy : ∃ ar, (List.range' 0 n).foldlM
        (fun (ar : Heap ℕ ℤ) (i : ℕ) => do storeAt ar i (← loadAt s.ar i))
        (newInts (s.capacity * 2) prior) = pure ar ∧
          ar.live = Finset.range (s.capacity * 2).toNat ∧
            ∀ i < 0 + n, ar.cell i = s.ar.cell i := by
      refine foldlM_range'_of_invariant (P := fun i (ar : Heap ℕ ℤ) =>
        ar.live = Finset.range (s.capacity * 2).toNat ∧ ∀ j < i, ar.cell j = s.ar.cell j)
        ⟨rfl, nofun⟩ ?_
      rintro i hi ar ⟨hlive, hcells⟩
      have hmem : i ∈ ar.live := by
        rw [hlive, Finset.mem_range]
        omega
      refine ⟨⟨Function.update ar.cell i (s.ar.cell i), ar.live⟩, ?_, hlive, ?_⟩
      · rw [h.loadAt_eq (by omega), ok_bind, storeAt_of_mem _ hmem]
        rfl
      · intro j hj
        rcases Nat.lt_succ_iff_lt_or_eq.mp hj with hj | rfl
        · exact (Function.update_of_ne hj.ne ..).trans (hcells j hj)
        · exact Function.update_self ..
    obtain ⟨ar, hcopy, hlive, hcells⟩ := hcopy
    refine ⟨⟨s.capacity * 2, s.count, ar, s.heapType⟩, ?_, ⟨h.count, by simp; omega, hlt, hlive⟩,
      rfl, fun i hi => hcells i (by omega)⟩
    rw [resize, toInt_of_lt (by omega) hlt, ok_bind, h.count, Int.toNat_natCast, hcopy]
    rfl
  · refine Or.inl ⟨?_, by omega⟩
    rw [resize, toInt_of_le (by omega)]
    rfl

/-- There is room for one more value, unless there was room for none. -/
theorem room_spec (h : s.Shaped n) (hcap : 0 < s.capacity) (prior : ℕ → ℤ) :
    ((if s.count ≥ s.capacity then s.resize prior else pure (0, s)) = .error .overflow ∧
        2 ^ 30 ≤ s.capacity) ∨
      ∃ t, (if s.count ≥ s.capacity then s.resize prior else pure (0, s)) = .ok (0, t) ∧
        t.Shaped n ∧ (n : ℤ) < t.capacity ∧ ∀ i < n, t.ar.cell i = s.ar.cell i := by
  have hcount := h.count
  have hle := h.le
  by_cases hfull : s.count ≥ s.capacity
  · rw [if_pos hfull]
    rcases resize_spec h prior with hover | ⟨t, ht, hshape, hdouble, hcells⟩
    · exact Or.inl hover
    · exact Or.inr ⟨t, ht, hshape, by omega, hcells⟩
  · rw [if_neg hfull]
    exact Or.inr ⟨s, rfl, h, by omega, fun _ _ => rfl⟩

/-- **`insert`.** The value is put to the others. -/
theorem insert_spec (h : s.Ordered n) (hcap : 0 < s.capacity) (data : ℤ) (prior : ℕ → ℤ) :
    (s.insert data prior = .error .overflow ∧ 2 ^ 30 ≤ s.capacity) ∨
      ∃ t, s.insert data prior = .ok (0, t) ∧ t.Ordered (n + 1) ∧
        t.contents.Perm (data :: s.contents) := by
  rw [insert]
  rcases room_spec h.toShaped hcap prior with ⟨hover, hlarge⟩ | ⟨t, hroom, hshape, hlt, hcells⟩
  · rw [hover]
    exact Or.inl ⟨rfl, hlarge⟩
  · refine Or.inr ?_
    have hint := hshape.lt
    have hlive : ∀ i < n + 1, i ∈ t.ar.live := fun i hi => by
      rw [hshape.live, Finset.mem_range]
      omega
    have hrise := (h.ordered.congr hcells).rising data
    obtain ⟨f, j, hj, hloop, hordered, hperm⟩ :=
      insert.loop_spec t.ar hlive (Nat.lt_succ_self n) hrise (Nat.lt_succ_self n)
    have hcount : t.count + 1 = ((n + 1 : ℕ) : ℤ) := by
      rw [hshape.count]
      rfl
    have hlast : ((n + 1 : ℕ) : ℤ) - 1 = (n : ℤ) := by omega
    have hstore := storeAt_of_mem ⟨f, t.ar.live⟩ (hlive j hj) data
    have hnew : Shaped ⟨t.capacity, (n + 1 : ℕ), ⟨Function.update f j data, t.ar.live⟩,
        t.heapType⟩ (n + 1) := ⟨rfl, by simp; omega, hint, hshape.live⟩
    refine ⟨_, ?_, ⟨hnew, hordered⟩, ?_⟩
    · have hcount' : toInt ((n + 1 : ℕ) : ℤ) = .ok ((n + 1 : ℕ) : ℤ) :=
        toInt_of_lt (by omega) (by omega)
      rw [hroom]
      simp only [ok_bind, hcount, hcount', Int.toNat_natCast, hlast, hloop, hstore, pure_eq]
    · rw [hnew.contents_eq, h.contents_eq]
      refine hperm.perm.trans ?_
      rw [segment_succ _ n.zero_le, Function.update_self]
      refine (List.perm_append_singleton ..).trans (.of_eq (congrArg (data :: ·) ?_))
      refine segment_congr ?_
      intro i _ hi
      rw [Function.update_of_ne hi.ne, hcells i hi]

/-! ### One call -/

theorem deleteMax_zero (h : s.Shaped 0) : s.deleteMax = .ok (-1, s) := by
  rw [deleteMax, if_pos (show s.count ≤ 0 from h.count.le)]
  rfl

/-- **`deleteMax`.** A greatest value is taken from the others. -/
theorem deleteMax_spec (h : s.Ordered (n + 1)) :
    (s.deleteMax = .error .overflow ∧ 2 ^ 30 ≤ n) ∨
      ∃ v t, s.deleteMax = .ok (v, t) ∧ t.Ordered n ∧ t.capacity = s.capacity ∧
        (∀ x ∈ s.contents, x ≤ v) ∧ s.contents.Perm (v :: t.contents) := by
  have hcount := h.count
  have hle := h.le
  have hlast : s.count - 1 = (n : ℤ) := by omega
  have hfirst : loadAt s.ar 0 = .ok (s.ar.cell 0) := h.loadAt_eq (Nat.succ_pos n)
  have hstore : ∀ v, storeAt s.ar 0 v = .ok ⟨Function.update s.ar.cell 0 v, s.ar.live⟩ :=
    storeAt_of_mem _ (h.mem (Nat.succ_pos n))
  have hclear := storeAt_of_mem ⟨Function.update s.ar.cell 0 (s.ar.cell n), s.ar.live⟩
    (h.mem (Nat.lt_succ_self n)) 0
  rw [deleteMax, if_neg (by omega), hlast, hfirst, ok_bind, h.loadAt_eq (Nat.lt_succ_self n),
    ok_bind, hstore, ok_bind, hclear, ok_bind]
  -- what is left, with its last value in front
  have hcells : ∀ i < n, Function.update (Function.update s.ar.cell 0 (s.ar.cell n)) n 0 i =
      Function.update s.ar.cell 0 (s.ar.cell n) i := fun i hi => Function.update_of_ne hi.ne ..
  have hsink := ((h.ordered.mono n.le_succ).sinking (s.ar.cell n)).congr hcells
  have hshape : Shaped ⟨s.capacity, n,
      ⟨Function.update (Function.update s.ar.cell 0 (s.ar.cell n)) n 0, s.ar.live⟩, s.heapType⟩ n :=
    ⟨rfl, by simp; omega, h.lt, h.live⟩
  rcases percolateDown_spec hshape hsink n.zero_le (show n < 0 + (n + 1) by omega) with
    ⟨hover, hlarge⟩ | ⟨f, hdown, hordered, hperm⟩
  · refine Or.inl ⟨?_, hlarge⟩
    rw [Int.natCast_zero] at hover
    simp only [Int.toNat_natCast, hover, error_bind]
  · rw [Int.natCast_zero] at hdown
    have hnew := hshape.withCells f
    refine Or.inr ⟨s.ar.cell 0, _, ?_, ⟨hnew, hordered⟩, rfl, ?_, ?_⟩
    · simp only [Int.toNat_natCast, hdown, ok_bind, pure_eq]
    · intro x hx
      rw [h.contents_eq] at hx
      obtain ⟨i, ⟨-, hi⟩, rfl⟩ := mem_segment.mp hx
      exact h.ordered.le_front hi
    · rw [h.contents_eq, hnew.contents_eq]
      refine (perm_segment_update s.ar.cell n.zero_le).trans (.cons _ ?_)
      rw [← segment_congr fun i _ hi => hcells i hi]
      exact hperm.perm.symm

/-- What comes of a call that answers. -/
theorem deleteMax_ok {v : ℤ} (h : s.Ordered (n + 1)) (hdelete : s.deleteMax = .ok (v, t)) :
    t.Ordered n ∧ (∀ x ∈ s.contents, x ≤ v) ∧ s.contents.Perm (v :: t.contents) := by
  rcases deleteMax_spec h with ⟨hover, -⟩ | ⟨v', t', hdelete', ht, -, hmax, hperm⟩
  · rw [hover] at hdelete
    cases hdelete
  · obtain ⟨rfl, rfl⟩ := Prod.mk.inj (Except.ok.inj (hdelete'.symm.trans hdelete))
    exact ⟨ht, hmax, hperm⟩

/-- **`buildHeap`.** All the values are put to the others, unless the capacity has become too
large. -/
theorem buildHeap_spec (h : s.Ordered n) (hcap : 0 < s.capacity) (items : List (ℤ × (ℕ → ℤ))) :
    (s.buildHeap items = .error .overflow ∧ ∃ items' t, items' <+: items ∧
        s.buildHeap items' = .ok t ∧ 2 ^ 30 ≤ t.capacity) ∨
      ∃ t n', s.buildHeap items = .ok t ∧ t.Ordered n' ∧ 0 < t.capacity ∧
        t.contents.Perm (items.map Prod.fst ++ s.contents) := by
  induction items generalizing s n with
  | nil => exact Or.inr ⟨s, n, rfl, h, hcap, .refl _⟩
  | cons item items ih =>
    obtain ⟨data, prior⟩ := item
    rcases insert_spec h hcap data prior with ⟨hover, hlarge⟩ | ⟨t, hinsert, ht, hperm⟩
    · refine Or.inl ⟨?_, [], s, List.nil_prefix, rfl, hlarge⟩
      rw [buildHeap, hover]
      rfl
    · have hrest : ∀ items, s.buildHeap ((data, prior) :: items) = t.buildHeap items := by
        intro items
        rw [buildHeap, hinsert]
        rfl
      have htcap : 0 < t.capacity := by
        have := ht.le
        omega
      rw [hrest]
      rcases ih ht htcap with
        ⟨hover, items', u, hpfx, hbuild, hlarge⟩ | ⟨u, n', hbuild, hu, hucap, hperm'⟩
      · refine Or.inl ⟨hover, (data, prior) :: items', u, ?_, (hrest items').trans hbuild, hlarge⟩
        exact List.cons_prefix_cons.mpr ⟨rfl, hpfx⟩
      · refine Or.inr ⟨u, n', hbuild, hu, hucap, hperm'.trans ?_⟩
        exact (hperm.append_left _).trans List.perm_middle

end IntHeap

end Exec02
