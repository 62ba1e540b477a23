import Exec02.Lib.Owners
import Exec02.MyTestMain01HeapListing

/-!
# Several priority queues

`struct Heap` of `MyTestMain01.cpp` looks after its array: two constructors and two assignments copy
it, `free` and the destructor `delete` it. Copying to an object that has an array already does not,
and moving is copying: the constructor that moves empties its source, the assignment that moves does
not.

## Reading the model

An object is known by its address, `this`, and has a pointer to its array or `nullptr`. Every
operation comes with where `new` finds room, which is in use by nothing at that moment, and with
what is there. A `memcpy` of no bytes asks nothing of its pointers. The objects as they are meant
are values: `HeapOp.onValues` says what the operations do to these. An operation in which an `int`
overflows does not come; with a capacity below `2 ^ 30` there is none.

## Main results

* `HeapOp.run_spec` — what an operation does to the objects, it does to their values
* `heap_objects_values` — so it is in every run, and no array is freed twice or used afterwards
* `heap_objects_leak` — the arrays that nobody frees
-/

namespace Exec02

open HeapFault

/-! ### The source -/

/-- A heap whose pointer may be null. -/
abbrev HeapRef := HeapOf (Option Addr)

/-- The array behind a null pointer: there is nothing to access. -/
def noInts : Heap ℕ ℤ := newInts 0 fun _ => 0

namespace HeapRef

/-- What a pointer points to. -/
def array (mem : IntArrays) : Option Addr → Option (Heap ℕ ℤ)
  | none => some noInts
  | some a => mem.load a

/-- `copyAr(src, n)`, where `new` answers `dst`. -/
def copyAr (mem : IntArrays) (src : Option Addr) (n : ℤ) (dst : Addr) :
    Except HeapFault IntArrays := do
  let mem := mem.alloc dst
  let ar ← orOutside (array mem src)
  if (newInts n ar.cell).live ⊆ ar.live then orOutside (mem.store dst (newInts n ar.cell))
  else .error .outside

/-- The fields of another heap, and a copy of its array. -/
def copy (src : HeapRef) (mem : IntArrays) (dst : Addr) :
    Except HeapFault (HeapRef × IntArrays) := do
  let mem ← copyAr mem src.ar src.capacity dst
  return (src.withAr (some dst), mem)

/-- `delete[] ar`. -/
def deleteAr (mem : IntArrays) : Option Addr → Except HeapFault IntArrays
  | none => return mem
  | some a => orOutside (mem.free a)

/-- `free()`. -/
def free (heap : HeapRef) (mem : IntArrays) : Except HeapFault (HeapRef × IntArrays) :=
  if heap.ar = none then return (heap, mem)
  else do
    let mem ← deleteAr mem heap.ar
    return (⟨0, 0, none, heap.heapType⟩, mem)

/-- `insert(data)`, where `resize` puts the array at `a`, and finds `prior` there. -/
def insert (heap : HeapRef) (mem : IntArrays) (data : ℤ) (prior : ℕ → ℤ) (a : Addr) :
    Except HeapFault (HeapRef × IntArrays) := do
  let ar ← orOutside (array mem heap.ar)
  let (_, s) ← IntHeap.insert (heap.withAr ar) data prior
  if heap.count ≥ heap.capacity then
    let mem ← orOutside ((mem.alloc a).store a s.ar)
    let mem ← deleteAr mem heap.ar
    return (s.withAr (some a), mem)
  else
    let mem ← orOutside do mem.store (← heap.ar) s.ar
    return (s.withAr heap.ar, mem)

/-- `deleteMax()`. -/
def deleteMax (heap : HeapRef) (mem : IntArrays) :
    Except HeapFault (ℤ × HeapRef × IntArrays) :=
  if heap.count ≤ 0 then return (-1, heap, mem)
  else do
    let ar ← orOutside do mem.load (← heap.ar)
    let (data, s) ← IntHeap.deleteMax (heap.withAr ar)
    let mem ← orOutside do mem.store (← heap.ar) s.ar
    return (data, s.withAr heap.ar, mem)

end HeapRef

/-- What is done with the objects. -/
inductive HeapOp
  | construct (p : ℕ) (capacity : Int32) (heapType : HeapType) (prior : ℕ → ℤ) (a : Addr)
  | copyConstruct (p src : ℕ) (a : Addr)
  | moveConstruct (p src : ℕ) (a : Addr)
  | copyAssign (p src : ℕ) (a : Addr)
  | moveAssign (p src : ℕ) (a : Addr)
  | free (p : ℕ)
  | destruct (p : ℕ)
  | insert (p : ℕ) (data : ℤ) (prior : ℕ → ℤ) (a : Addr)
  | deleteMax (p : ℕ)

/-- What an observer sees: a value that is removed, and a pointer that is overwritten. -/
inductive HeapObjectEvent
  | removed (p : ℕ) (data : ℤ)
  | overwritten (p : ℕ) (a : Addr)
  deriving DecidableEq

/-- The objects there are, and the arrays. -/
structure HeapObjects where
  heaps : ℕ → Option HeapRef
  mem : IntArrays

namespace HeapObjects

/-- Before there is any. -/
def empty (cell : Addr → Heap ℕ ℤ) : HeapObjects := ⟨fun _ => none, cell, ∅⟩

/-- The array of an object. -/
def arrayOf (s : HeapObjects) (p : ℕ) : Option Addr := (s.heaps p).bind HeapOf.ar

/-- An object is made or changed, or goes, and so do the arrays. -/
def put (s : HeapObjects) (p : ℕ) (heap : Option HeapRef) (mem : IntArrays) : HeapObjects :=
  ⟨Function.update s.heaps p heap, mem⟩

end HeapObjects

namespace HeapOp

/-- One operation. A constructor that throws leaves no object, and an assignment to itself does
nothing. -/
def run (s : HeapObjects) : HeapOp → Except HeapFault (HeapObjects × List HeapObjectEvent)
  | construct p capacity heapType prior a =>
    match IntHeap.new capacity heapType prior with
    | none => return (s, [])
    | some t => do
      let mem ← orOutside ((s.mem.alloc a).store a t.ar)
      return (s.put p (some (t.withAr (some a))) mem, [])
  | copyConstruct p src a => do
    let heap ← orOutside (s.heaps src)
    let (cp, mem) ← heap.copy s.mem a
    return (s.put p (some cp) mem, [])
  | moveConstruct p src a => do
    let heap ← orOutside (s.heaps src)
    let (cp, mem) ← heap.copy s.mem a
    let (heap, mem) ← heap.free mem
    return ((s.put p (some cp) mem).put src (some heap) mem, [])
  | copyAssign p src a =>
    if p = src then return (s, [])
    else do
      let this ← orOutside (s.heaps p)
      let heap ← orOutside (s.heaps src)
      let (cp, mem) ← heap.copy s.mem a
      return (s.put p (some cp) mem, this.ar.toList.map (.overwritten p))
  | moveAssign p src a =>
    if p = src then return (s, [])
    else do
      let this ← orOutside (s.heaps p)
      let (_, mem) ← this.free s.mem
      let heap ← orOutside (s.heaps src)
      let (cp, mem) ← heap.copy mem a
      return (s.put p (some cp) mem, [])
  | free p => do
    let this ← orOutside (s.heaps p)
    let (heap, mem) ← this.free s.mem
    return (s.put p (some heap) mem, [])
  | destruct p => do
    let this ← orOutside (s.heaps p)
    let (_, mem) ← this.free s.mem
    return (s.put p none mem, [])
  | insert p data prior a => do
    let this ← orOutside (s.heaps p)
    let (heap, mem) ← this.insert s.mem data prior a
    return (s.put p (some heap) mem, [])
  | deleteMax p => do
    let this ← orOutside (s.heaps p)
    let (data, heap, mem) ← this.deleteMax s.mem
    return (s.put p (some heap) mem, if 0 < this.count then [.removed p data] else [])

/-- The object that an operation makes. -/
def made : HeapOp → Option ℕ
  | construct p .. | copyConstruct p .. | moveConstruct p .. => some p
  | _ => none

/-- The objects that it uses. -/
def used : HeapOp → List ℕ
  | construct .. => []
  | copyConstruct _ src _ | moveConstruct _ src _ => [src]
  | copyAssign p src _ | moveAssign p src _ => [p, src]
  | free p | destruct p | insert p .. | deleteMax p => [p]

/-- An object that is made is not there before, and one that is used is. -/
def Ready {β : Type} (there : ℕ → Option β) (op : HeapOp) : Prop :=
  (∀ p ∈ op.made, (there p).isNone) ∧ ∀ p ∈ op.used, (there p).isSome

/-- Where `new` finds room, which assigning by a move has made itself. -/
def Fresh (s : HeapObjects) : HeapOp → Prop
  | construct _ _ _ _ a | copyConstruct _ _ a | moveConstruct _ _ a | copyAssign _ _ a
  | insert _ _ _ a => a ∉ s.mem.live
  | moveAssign p _ a => a ∈ s.mem.live → s.arrayOf p = some a
  | free _ | destruct _ | deleteMax _ => True

instance {β : Type} (there : ℕ → Option β) (op : HeapOp) : Decidable (op.Ready there) :=
  inferInstanceAs (Decidable (_ ∧ _))

instance (s : HeapObjects) : (op : HeapOp) → Decidable (op.Fresh s)
  | construct _ _ _ _ a | copyConstruct _ _ a | moveConstruct _ _ a | copyAssign _ _ a
  | insert _ _ _ a => inferInstanceAs (Decidable (a ∉ s.mem.live))
  | moveAssign p _ a => inferInstanceAs (Decidable (a ∈ s.mem.live → s.arrayOf p = some a))
  | free _ | destruct _ | deleteMax _ => inferInstanceAs (Decidable True)

end HeapOp

/-- The objects as a machine, in an environment where no `int` gets too large. -/
def heapObjectsMachine : Machine HeapObjects HeapOp HeapObjectEvent where
  allowed s op := op.Ready s.heaps ∧ op.Fresh s ∧ isOverflow (op.run s) = false
  step s op := (op.run s).toOption

instance (s : HeapObjects) (op : HeapOp) : Decidable (heapObjectsMachine.allowed s op) :=
  inferInstanceAs (Decidable (_ ∧ _ ∧ _))

/-! ### The values -/

/-- The value of an object after `free`. -/
def IntHeap.freed (t : IntHeap) : IntHeap := ⟨0, 0, noInts, t.heapType⟩

/-- What an operation is meant to do. -/
def HeapOp.onValues (v : ℕ → Option IntHeap) :
    HeapOp → Except HeapFault ((ℕ → Option IntHeap) × List (ℕ × ℤ))
  | construct p capacity heapType prior _ =>
    return (Function.update v p (IntHeap.new capacity heapType prior), [])
  | copyConstruct p src _ | copyAssign p src _ | moveAssign p src _ =>
    return (Function.update v p (v src), [])
  | moveConstruct p src _ =>
    return (Function.update (Function.update v p (v src)) src ((v src).map IntHeap.freed), [])
  | free p => return (Function.update v p ((v p).map IntHeap.freed), [])
  | destruct p => return (Function.update v p none, [])
  | insert p data prior _ => do
    let t ← orOutside (v p)
    let (_, t) ← t.insert data prior
    return (Function.update v p (some t), [])
  | deleteMax p => do
    let t ← orOutside (v p)
    let (data, u) ← t.deleteMax
    return (Function.update v p (some u), if 0 < t.count then [(p, data)] else [])

/-- The values as a machine. -/
def heapValuesMachine : Machine (ℕ → Option IntHeap) HeapOp (ℕ × ℤ) where
  allowed v op := op.Ready v ∧ isOverflow (op.onValues v) = false
  step v op := (op.onValues v).toOption

/-- The values removed, and the object they are removed from. -/
def removals : List HeapObjectEvent → List (ℕ × ℤ) :=
  List.filterMap fun
    | .removed p data => some (p, data)
    | .overwritten _ _ => none

/-- The arrays whose pointers are overwritten. -/
def overwrites : List HeapObjectEvent → List Addr :=
  List.filterMap fun
    | .removed _ _ => none
    | .overwritten _ a => some a

/-! ### One object -/

/-- The arrays with one at `a`. -/
def withArray (mem : IntArrays) (a : Addr) (ar : Heap ℕ ℤ) : IntArrays :=
  ⟨Function.update mem.cell a ar, insert a mem.live⟩

/-- The arrays without the one that is pointed to. -/
def withoutArray (mem : IntArrays) : Option Addr → IntArrays
  | none => mem
  | some a => ⟨mem.cell, mem.live.erase a⟩

namespace HeapRef

variable {heap : HeapRef} {mem mem' : IntArrays} {t u : IntHeap} {n : ℕ} {a : Addr}

/-- An object has a value. -/
structure Stands (mem : IntArrays) (heap : HeapRef) (t : IntHeap) : Prop where
  fields : heap = t.withAr heap.ar
  array : array mem heap.ar = some t.ar
  null : heap.ar = none → t.capacity = 0
  ordered : ∃ n, t.Ordered n

theorem Stands.frame (h : heap.Stands mem t)
    (hmem : HeapRef.array mem' heap.ar = HeapRef.array mem heap.ar) : heap.Stands mem' t :=
  ⟨h.fields, hmem.trans h.array, h.null, h.ordered⟩

/-- An object whose array has been written. -/
theorem stands_write (ht : t.Ordered n) (hload : mem.load a = some t.ar) :
    Stands mem (t.withAr (some a)) t where
  fields := rfl
  array := hload
  null := nofun
  ordered := ⟨n, ht⟩

theorem ordered_freed (t : IntHeap) : t.freed.Ordered 0 where
  count := rfl
  le := le_rfl
  lt := show (0 : ℤ) < 2 ^ 31 by decide
  live := rfl
  ordered i _ hi := absurd hi (Nat.not_lt_zero i)

/-- An object that has been freed. -/
theorem stands_freed (mem : IntArrays) (t : IntHeap) :
    Stands mem (t.freed.withAr none) t.freed where
  fields := rfl
  array := rfl
  null := fun _ => rfl
  ordered := ⟨0, ordered_freed t⟩

/-- **A copy.** It has the same value, in an array of its own. -/
theorem copy_spec (h : heap.Stands mem t) (ha : a ∉ mem.live) :
    heap.copy mem a = .ok (t.withAr (some a), withArray mem a t.ar) := by
  obtain ⟨n, ht⟩ := h.ordered
  have hsrc : array (mem.alloc a) heap.ar = some t.ar := by
    rw [← h.array]
    cases har : heap.ar with
    | none => rfl
    | some b =>
      have hload := h.array
      rw [har] at hload
      refine Heap.load_alloc_of_ne ?_
      rintro rfl
      exact ha (mem.mem_of_load hload)
  have hsame : newInts t.capacity t.ar.cell = t.ar := by
    rw [newInts, ← ht.live]
  have hcapacity : heap.capacity = t.capacity := congrArg HeapOf.capacity h.fields
  have hstore : (mem.alloc a).store a t.ar = some (withArray mem a t.ar) :=
    Heap.store_of_mem (Finset.mem_insert_self a mem.live) t.ar
  have hcopy : copyAr mem heap.ar heap.capacity a = .ok (withArray mem a t.ar) := by
    rw [copyAr, hsrc, hcapacity]
    simp only [orOutside, ok_bind, hsame, hstore, if_pos (Finset.Subset.refl t.ar.live)]
  have hfields : heap.withAr (some a) = (t.withAr (some a) : HeapRef) := by
    rw [h.fields]
    rfl
  rw [copy, hcopy, ok_bind, hfields]
  rfl

theorem deleteAr_eq (h : heap.Stands mem t) :
    deleteAr mem heap.ar = .ok (withoutArray mem heap.ar) := by
  have hload := h.array
  cases har : heap.ar with
  | none => rfl
  | some b =>
    rw [har] at hload
    exact congrArg orOutside (Heap.free_of_mem (mem.mem_of_load hload))

/-- **Freeing.** The array is deleted, if there is one. -/
theorem free_spec (h : heap.Stands mem t) :
    heap.free mem = .ok (t.freed.withAr none, withoutArray mem heap.ar) := by
  have htype : heap.heapType = t.heapType := congrArg HeapOf.heapType h.fields
  rw [free]
  split_ifs with hnull
  · obtain ⟨n, ht⟩ := h.ordered
    have hcapacity := h.null hnull
    have hcount : t.count = 0 := by
      have hcount := ht.count
      have hle := ht.le
      omega
    have harray := h.array
    rw [hnull] at harray
    have hfreed : t = t.freed := by
      obtain ⟨capacity, count, ar, heapType⟩ := t
      obtain rfl : capacity = 0 := hcapacity
      obtain rfl : count = 0 := hcount
      obtain rfl : noInts = ar := Option.some.inj harray
      rfl
    rw [hnull, ← hfreed, ← hnull, ← h.fields, hnull]
    rfl
  · rw [deleteAr_eq h, ok_bind, htype]
    rfl

/-- An array that is there is written. -/
theorem store_eq {b : Addr} (hb : b ∈ mem.live) (ar : Heap ℕ ℤ) :
    mem.store b ar = some (withArray mem b ar) := by
  rw [withArray, Finset.insert_eq_of_mem hb]
  exact Heap.store_of_mem hb ar

/-- An object with some capacity has an array. -/
theorem Stands.exists_array (h : heap.Stands mem t) (hcap : t.capacity ≠ 0) :
    ∃ b, heap.ar = some b ∧ mem.load b = some t.ar := by
  have harray := h.array
  cases har : heap.ar with
  | none => exact absurd (h.null har) hcap
  | some b =>
    rw [har] at harray
    exact ⟨b, rfl, harray⟩

theorem Stands.withAr_eq (h : heap.Stands mem t) : heap.withAr t.ar = t := by
  rw [h.fields]
  rfl

/-- **`insert`.** The value is inserted, if that goes well, and the array is replaced if it was
full. -/
theorem insert_spec (h : heap.Stands mem t) (data : ℤ) (prior : ℕ → ℤ) (a : Addr) :
    (∃ fault, t.insert data prior = .error fault ∧
      heap.insert mem data prior a = .error fault) ∨
    ∃ b r u n, heap.ar = some b ∧ t.insert data prior = .ok (r, u) ∧ u.Ordered n ∧
      heap.insert mem data prior a =
        .ok (if t.count ≥ t.capacity
          then (u.withAr (some a), withoutArray (withArray mem a u.ar) (some b))
          else (u.withAr (some b), withArray mem b u.ar)) := by
  obtain ⟨n, ht⟩ := h.ordered
  have hinsert : heap.insert mem data prior a = (do
      let (_, u) ← t.insert data prior
      if t.count ≥ t.capacity then
        let mem ← orOutside ((mem.alloc a).store a u.ar)
        let mem ← deleteAr mem heap.ar
        return (u.withAr (some a), mem)
      else
        let mem ← orOutside do mem.store (← heap.ar) u.ar
        return (u.withAr heap.ar, mem)) := by
    have hcount : heap.count = t.count := congrArg HeapOf.count h.fields
    have hcapacity : heap.capacity = t.capacity := congrArg HeapOf.capacity h.fields
    rw [insert, h.array, hcount, hcapacity, orOutside, ok_bind, h.withAr_eq]
  rw [hinsert]
  have hle := ht.le
  rcases (show 0 ≤ t.capacity by omega).eq_or_lt with hzero | hcap
  · obtain rfl : n = 0 := by omega
    have hfault := insert_outside ht hzero.symm data prior
    exact .inl ⟨.outside, hfault, by rw [hfault, error_bind]⟩
  · rcases IntHeap.insert_spec ht hcap data prior with ⟨hfault, -⟩ | ⟨u, hu, hordered, -⟩
    · exact .inl ⟨.overflow, hfault, by rw [hfault, error_bind]⟩
    · obtain ⟨b, har, hload⟩ := h.exists_array hcap.ne'
      have hb := mem.mem_of_load hload
      refine .inr ⟨b, 0, u, n + 1, har, hu, hordered, ?_⟩
      rw [hu, ok_bind, har]
      dsimp only
      split_ifs with hfull
      · have hnew : (mem.alloc a).store a u.ar = some (withArray mem a u.ar) :=
          Heap.store_of_mem (Finset.mem_insert_self a mem.live) u.ar
        have hold : deleteAr (withArray mem a u.ar) (some b) =
            .ok (withoutArray (withArray mem a u.ar) (some b)) :=
          congrArg orOutside (Heap.free_of_mem (Finset.mem_insert_of_mem hb))
        rw [hnew, orOutside, ok_bind, hold]
        rfl
      · have hstore : (do mem.store (← some b) u.ar) = some (withArray mem b u.ar) :=
          store_eq hb u.ar
        rw [hstore]
        rfl

/-- **`deleteMax`.** A value is removed, if there is one and that goes well. -/
theorem deleteMax_spec (h : heap.Stands mem t) :
    (∃ fault, t.deleteMax = .error fault ∧ heap.deleteMax mem = .error fault) ∨
    (heap.count = t.count ∧ t.deleteMax = .ok (-1, t) ∧ heap.deleteMax mem = .ok (-1, heap, mem)) ∨
    ∃ b data u n, heap.ar = some b ∧ heap.count = t.count ∧ t.deleteMax = .ok (data, u) ∧
      u.Ordered n ∧
      heap.deleteMax mem = .ok (data, u.withAr (some b), withArray mem b u.ar) := by
  obtain ⟨n, ht⟩ := h.ordered
  have hcount : heap.count = t.count := congrArg HeapOf.count h.fields
  have hn := ht.count
  have hle := ht.le
  rw [deleteMax, hcount]
  cases n with
  | zero =>
    refine .inr (.inl ⟨rfl, IntHeap.deleteMax_zero ht.toShaped, ?_⟩)
    rw [if_pos (by omega)]
    rfl
  | succ n =>
    obtain ⟨b, har, hload⟩ := h.exists_array (by omega)
    have hb := mem.mem_of_load hload
    have hsrc : (do mem.load (← some b)) = some t.ar := hload
    rw [if_neg (by omega), har, hsrc, orOutside, ok_bind, h.withAr_eq]
    rcases IntHeap.deleteMax_spec ht with ⟨hfault, -⟩ | ⟨data, u, hu, hordered, -⟩
    · exact .inl ⟨.overflow, hfault, by rw [hfault, error_bind]⟩
    · refine .inr (.inr ⟨b, data, u, n, rfl, rfl, hu, hordered, ?_⟩)
      have hstore : (do mem.store (← some b) u.ar) = some (withArray mem b u.ar) :=
        store_eq hb u.ar
      rw [hu, ok_bind]
      dsimp only
      rw [hstore]
      rfl

end HeapRef

/-! ### All of them -/

namespace HeapObjects

variable {s : HeapObjects} {v : ℕ → Option IntHeap} {lost lost' : List Addr} {mem : IntArrays}
  {y : Option HeapRef} {x : Option IntHeap} {t : IntHeap} {n p : ℕ} {a b : Addr}

/-- The objects have these values, and these arrays have been lost. -/
structure Holds (s : HeapObjects) (v : ℕ → Option IntHeap) (lost : List Addr) : Prop where
  owners : Owners s.arrayOf lost s.mem.live
  stands : ∀ p, Option.Rel (HeapRef.Stands s.mem) (s.heaps p) (v p)

theorem arrayOf_put (s : HeapObjects) (p : ℕ) (heap : Option HeapRef) (mem : IntArrays) :
    (s.put p heap mem).arrayOf = Function.update s.arrayOf p (heap.bind HeapOf.ar) := by
  funext q
  simp only [arrayOf, put, Function.update_apply]
  split_ifs <;> rfl

@[simp] theorem put_put (s : HeapObjects) (p : ℕ) (heap heap' : Option HeapRef)
    (mem mem' : IntArrays) : (s.put p heap mem).put p heap' mem' = s.put p heap' mem' := by
  simp [put]

/-- One object gets another value, and the arrays of the others are left as they are. -/
theorem Holds.put (h : s.Holds v lost)
    (howners : Owners (Function.update s.arrayOf p (y.bind HeapOf.ar)) lost' mem.live)
    (hstands : Option.Rel (HeapRef.Stands mem) y x)
    (hframe : ∀ q, q ≠ p → HeapRef.array mem (s.arrayOf q) = HeapRef.array s.mem (s.arrayOf q)) :
    (s.put p y mem).Holds (Function.update v p x) lost' where
  owners := by
    rw [arrayOf_put]
    exact howners
  stands q := by
    by_cases hq : q = p
    · subst hq
      simpa [HeapObjects.put] using hstands
    · have hold := h.stands q
      have hframe := hframe q hq
      rw [arrayOf] at hframe
      simp only [HeapObjects.put, Function.update_of_ne hq]
      generalize s.heaps q = y' at hold hframe
      generalize v q = t at hold
      cases hold with
      | none => exact .none
      | some hold => exact .some (hold.frame hframe)

theorem array_withArray (mem : IntArrays) (ar : Heap ℕ ℤ) {q : Option Addr} (hq : q ≠ some a) :
    HeapRef.array (withArray mem a ar) q = HeapRef.array mem q := by
  cases q with
  | none => rfl
  | some b => exact Heap.load_write_of_ne fun hab => hq (congrArg some hab)

theorem array_withoutArray (mem : IntArrays) {q r : Option Addr} (hqr : q = r → q = none) :
    HeapRef.array (withoutArray mem r) q = HeapRef.array mem q := by
  cases r with
  | none => rfl
  | some b =>
    cases q with
    | none => rfl
    | some c =>
      have hne : c ≠ b := fun hcb => Option.some_ne_none c (hqr (congrArg some hcb))
      simp [HeapRef.array, withoutArray, Heap.load, hne]

/-- An object without an array is given one. -/
theorem Holds.acquire (h : s.Holds v lost) (hp : s.arrayOf p = none) (ha : a ∉ s.mem.live)
    (ht : t.Ordered n) : (s.put p (some (t.withAr (some a))) (withArray s.mem a t.ar)).Holds
      (Function.update v p (some t)) lost := by
  refine h.put (h.owners.acquire hp ha) (.some (HeapRef.stands_write ht ?_)) ?_
  · exact Heap.load_write_self s.mem a t.ar
  · intro q _
    refine array_withArray s.mem t.ar ?_
    intro hq
    exact ha (h.owners.mem_live hq)

/-- The array of an object is written. -/
theorem Holds.write (h : s.Holds v lost) (hp : s.arrayOf p = some b) (ht : t.Ordered n) :
    (s.put p (some (t.withAr (some b))) (withArray s.mem b t.ar)).Holds
      (Function.update v p (some t)) lost := by
  have hb := h.owners.mem_live hp
  refine h.put ?_ (.some (HeapRef.stands_write ht (Heap.load_write_self s.mem b t.ar))) ?_
  · have hsame : Function.update s.arrayOf p (some b) = s.arrayOf := by
      rw [← hp, Function.update_eq_self]
    rw [withArray, Finset.insert_eq_of_mem hb]
    exact hsame.symm ▸ h.owners
  · intro q hq
    exact array_withArray s.mem t.ar (h.owners.ne_of_ne hp hq)

/-- The array of an object is deleted. -/
theorem Holds.release (h : s.Holds v lost) (hnull : y.bind HeapOf.ar = none)
    (hstands : ∀ mem, Option.Rel (HeapRef.Stands mem) y x) :
    (s.put p y (withoutArray s.mem (s.arrayOf p))).Holds (Function.update v p x) lost := by
  refine h.put ?_ (hstands _) ?_
  · rw [hnull]
    cases hp : s.arrayOf p with
    | none =>
      rw [← hp, Function.update_eq_self, hp]
      exact h.owners
    | some b => exact h.owners.release hp
  · intro q hq
    refine array_withoutArray s.mem ?_
    intro hqp
    cases hp : s.arrayOf p with
    | none => rw [hqp, hp]
    | some b => exact absurd (hqp.trans hp) (h.owners.ne_of_ne hp hq)

/-- The pointer of an object is overwritten. -/
theorem Holds.lose (h : s.Holds v lost) (p : ℕ) :
    (s.put p none s.mem).Holds (Function.update v p none) (lost ++ (s.arrayOf p).toList) := by
  refine h.put ?_ .none fun q _ => rfl
  cases hp : s.arrayOf p with
  | none =>
    rw [Option.bind_none, ← hp, Function.update_eq_self, hp, Option.toList_none, List.append_nil]
    exact h.owners
  | some b => exact h.owners.lose hp

/-- An object that is there has a value. -/
theorem Holds.of_isSome (h : s.Holds v lost) (hp : (s.heaps p).isSome) :
    ∃ heap t, s.heaps p = some heap ∧ v p = some t ∧ heap.Stands s.mem t := by
  have hold := h.stands p
  generalize s.heaps p = heap at hold hp
  generalize v p = x at hold
  cases hold with
  | none => cases hp
  | some hold => exact ⟨_, _, rfl, rfl, hold⟩

theorem arrayOf_eq {heap : HeapRef} (hp : s.heaps p = some heap) : s.arrayOf p = heap.ar := by
  rw [arrayOf, hp, Option.bind_some]

end HeapObjects

/-! ### One operation -/

namespace HeapOp

variable {s : HeapObjects} {v : ℕ → Option IntHeap} {lost : List Addr} {op : HeapOp} {p src : ℕ}
  {a : Addr}

/-- An operation goes wrong on the objects and on their values, or on neither, and then the objects
have the values that it leaves. -/
def Matches (s : HeapObjects) (v : ℕ → Option IntHeap) (lost : List Addr) (op : HeapOp) : Prop :=
  (∃ fault, op.run s = .error fault ∧ op.onValues v = .error fault) ∨
    ∃ t outs u, op.run s = .ok (t, outs) ∧ op.onValues v = .ok (u, removals outs) ∧
      t.Holds u (lost ++ overwrites outs)

theorem matches_of_silent {t : HeapObjects} {u : ℕ → Option IntHeap} (hrun : op.run s = .ok (t, []))
    (hvalues : op.onValues v = .ok (u, [])) (h : t.Holds u lost) : op.Matches s v lost :=
  .inr ⟨t, [], u, hrun, hvalues, (List.append_nil lost).symm ▸ h⟩

theorem construct_matches (h : s.Holds v lost) (hp : s.heaps p = none) (ha : a ∉ s.mem.live)
    (capacity : Int32) (heapType : HeapType) (prior : ℕ → ℤ) :
    (construct p capacity heapType prior a).Matches s v lost := by
  have hvp : v p = none := by
    have hold := h.stands p
    rw [hp] at hold
    generalize v p = x at hold
    cases hold
    rfl
  cases hnew : IntHeap.new capacity heapType prior with
  | none =>
    refine matches_of_silent (u := v) ?_ ?_ h
    · rw [run, hnew]
      rfl
    · rw [onValues, hnew, ← hvp, Function.update_eq_self]
      rfl
  | some t =>
    have hstore : (s.mem.alloc a).store a t.ar = some (withArray s.mem a t.ar) :=
      Heap.store_of_mem (Finset.mem_insert_self a s.mem.live) t.ar
    refine matches_of_silent ?_ ?_ (h.acquire (p := p) ?_ ha (ordered_of_new hnew).1)
    · rw [run, hnew]
      dsimp only
      rw [hstore]
      rfl
    · rw [onValues, hnew]
      rfl
    · rw [HeapObjects.arrayOf, hp]
      rfl

theorem copyConstruct_matches (h : s.Holds v lost) (hp : s.heaps p = none)
    (hsrc : (s.heaps src).isSome) (ha : a ∉ s.mem.live) :
    (copyConstruct p src a).Matches s v lost := by
  obtain ⟨heap, t, hheap, hvalue, hstands⟩ := h.of_isSome hsrc
  obtain ⟨n, ht⟩ := hstands.ordered
  have harray : s.arrayOf p = none := by
    rw [HeapObjects.arrayOf, hp]
    rfl
  refine matches_of_silent ?_ ?_ (h.acquire harray ha ht)
  · rw [run, hheap, orOutside, ok_bind, HeapRef.copy_spec hstands ha]
    rfl
  · rw [onValues, hvalue]
    rfl

theorem moveConstruct_matches (h : s.Holds v lost) (hp : s.heaps p = none)
    (hsrc : (s.heaps src).isSome) (ha : a ∉ s.mem.live) :
    (moveConstruct p src a).Matches s v lost := by
  obtain ⟨heap, t, hheap, hvalue, hstands⟩ := h.of_isSome hsrc
  obtain ⟨n, ht⟩ := hstands.ordered
  have harray : s.arrayOf p = none := by
    rw [HeapObjects.arrayOf, hp]
    rfl
  have hne : src ≠ p := by
    rintro rfl
    rw [hheap] at hp
    cases hp
  -- The source is the object that it was when the copy is there.
  have hcopied := h.acquire harray ha ht
  have hmoved : (s.put p (some (t.withAr (some a))) (withArray s.mem a t.ar)).arrayOf src =
      heap.ar := by
    rw [HeapObjects.arrayOf_put, Function.update_of_ne hne, HeapObjects.arrayOf_eq hheap]
  have hstands' : heap.Stands (withArray s.mem a t.ar) t := by
    refine hstands.frame (HeapObjects.array_withArray s.mem t.ar ?_)
    rw [← HeapObjects.arrayOf_eq hheap]
    exact fun har => ha (h.owners.mem_live har)
  have hfinal := hcopied.release (p := src) (y := some (t.freed.withAr none)) rfl
    fun mem => .some (HeapRef.stands_freed mem t)
  rw [hmoved] at hfinal
  refine matches_of_silent ?_ ?_ hfinal
  · rw [run, hheap, orOutside, ok_bind, HeapRef.copy_spec hstands ha, ok_bind]
    dsimp only
    rw [HeapRef.free_spec hstands']
    rfl
  · rw [onValues, hvalue]
    rfl

theorem copyAssign_matches (h : s.Holds v lost) (hp : (s.heaps p).isSome)
    (hsrc : (s.heaps src).isSome) (ha : a ∉ s.mem.live) :
    (copyAssign p src a).Matches s v lost := by
  obtain ⟨this, t', hthis, -⟩ := h.of_isSome hp
  obtain ⟨heap, t, hheap, hvalue, hstands⟩ := h.of_isSome hsrc
  obtain ⟨n, ht⟩ := hstands.ordered
  by_cases hself : p = src
  · refine matches_of_silent (u := v) ?_ ?_ h
    · rw [run, if_pos hself]
      rfl
    · rw [onValues, ← hself, Function.update_eq_self]
      rfl
  · have hlost := h.lose p
    rw [HeapObjects.arrayOf_eq hthis] at hlost
    have harray : (s.put p none s.mem).arrayOf p = none := by
      rw [HeapObjects.arrayOf_put, Function.update_self]
      rfl
    have hfinal := hlost.acquire harray ha ht
    rw [HeapObjects.put_put, Function.update_idem] at hfinal
    have hremovals : removals (this.ar.toList.map (.overwritten p)) = [] := by
      simp [removals, List.filterMap_map]
    have hoverwrites : overwrites (this.ar.toList.map (.overwritten p)) = this.ar.toList := by
      simp [overwrites, List.filterMap_map]
    refine .inr ⟨_, _, _, ?_, ?_, hoverwrites.symm ▸ hfinal⟩
    · rw [run, if_neg hself, hthis, orOutside, ok_bind, hheap, orOutside, ok_bind,
        HeapRef.copy_spec hstands ha]
      rfl
    · rw [onValues, hvalue, hremovals]
      rfl

theorem moveAssign_matches (h : s.Holds v lost) (hp : (s.heaps p).isSome)
    (hsrc : (s.heaps src).isSome) (ha : a ∈ s.mem.live → s.arrayOf p = some a) :
    (moveAssign p src a).Matches s v lost := by
  obtain ⟨this, t', hthis, -, hthisStands⟩ := h.of_isSome hp
  obtain ⟨heap, t, hheap, hvalue, hstands⟩ := h.of_isSome hsrc
  obtain ⟨n, ht⟩ := hstands.ordered
  by_cases hself : p = src
  · refine matches_of_silent (u := v) ?_ ?_ h
    · rw [run, if_pos hself]
      rfl
    · rw [onValues, ← hself, Function.update_eq_self]
      rfl
  · have hfreed := h.release (p := p) (y := none) (x := none) rfl fun _ => .none
    have harray : (s.put p none (withoutArray s.mem (s.arrayOf p))).arrayOf p = none := by
      rw [HeapObjects.arrayOf_put, Function.update_self]
      rfl
    have hfresh : a ∉ (withoutArray s.mem (s.arrayOf p)).live := by
      intro hmem
      cases har : s.arrayOf p with
      | none =>
        rw [har] at hmem
        exact absurd (har.symm.trans (ha hmem)) (Option.some_ne_none a).symm
      | some b =>
        rw [har] at hmem
        obtain ⟨hne, hmem⟩ := Finset.mem_erase.mp hmem
        exact hne (Option.some.inj ((ha hmem).symm.trans har))
    -- The source has not been touched.
    have hstands' : heap.Stands (withoutArray s.mem (s.arrayOf p)) t := by
      refine hstands.frame (HeapObjects.array_withoutArray s.mem ?_)
      rw [← HeapObjects.arrayOf_eq hheap]
      intro heq
      cases har : s.arrayOf p with
      | none => rw [heq, har]
      | some b => exact absurd (heq.trans har) (h.owners.ne_of_ne har (Ne.symm hself))
    have hfinal := hfreed.acquire harray hfresh ht
    rw [HeapObjects.put_put, Function.update_idem, HeapObjects.arrayOf_eq hthis] at hfinal
    rw [HeapObjects.arrayOf_eq hthis] at hfresh hstands'
    refine matches_of_silent ?_ ?_ hfinal
    · rw [run, if_neg hself, hthis, orOutside, ok_bind, HeapRef.free_spec hthisStands, ok_bind]
      dsimp only
      rw [hheap, orOutside, ok_bind, HeapRef.copy_spec hstands' hfresh]
      rfl
    · rw [onValues, hvalue]
      rfl

theorem free_matches (h : s.Holds v lost) (hp : (s.heaps p).isSome) :
    (free p).Matches s v lost := by
  obtain ⟨this, t, hthis, hvalue, hstands⟩ := h.of_isSome hp
  have hfinal := h.release (p := p) (y := some (t.freed.withAr none)) rfl
    fun mem => .some (HeapRef.stands_freed mem t)
  rw [HeapObjects.arrayOf_eq hthis] at hfinal
  refine matches_of_silent ?_ ?_ hfinal
  · rw [run, hthis, orOutside, ok_bind, HeapRef.free_spec hstands]
    rfl
  · rw [onValues, hvalue]
    rfl

theorem destruct_matches (h : s.Holds v lost) (hp : (s.heaps p).isSome) :
    (destruct p).Matches s v lost := by
  obtain ⟨this, t, hthis, hvalue, hstands⟩ := h.of_isSome hp
  have hfinal := h.release (p := p) (y := none) (x := none) rfl fun _ => .none
  rw [HeapObjects.arrayOf_eq hthis] at hfinal
  refine matches_of_silent ?_ rfl hfinal
  rw [run, hthis, orOutside, ok_bind, HeapRef.free_spec hstands]
  rfl

theorem insert_matches (h : s.Holds v lost) (hp : (s.heaps p).isSome) (ha : a ∉ s.mem.live)
    (data : ℤ) (prior : ℕ → ℤ) : (insert p data prior a).Matches s v lost := by
  obtain ⟨this, t, hthis, hvalue, hstands⟩ := h.of_isSome hp
  rcases HeapRef.insert_spec hstands data prior a with ⟨fault, hfault, hfault'⟩ | hok
  · refine .inl ⟨fault, ?_, ?_⟩
    · rw [run, hthis, orOutside, ok_bind, hfault', error_bind]
    · rw [onValues, hvalue, orOutside, ok_bind, hfault, error_bind]
  · obtain ⟨b, r, u, n, har, hu, hordered, hinsert⟩ := hok
    have harray : s.arrayOf p = some b := (HeapObjects.arrayOf_eq hthis).trans har
    have hvalues : (insert p data prior a).onValues v =
        .ok (Function.update v p (some u), []) := by
      rw [onValues, hvalue, orOutside, ok_bind, hu]
      rfl
    have hb := h.owners.mem_live harray
    split_ifs at hinsert with hfull
    · have hfreed := h.release (p := p) (y := none) (x := none) rfl fun _ => .none
      rw [harray] at hfreed
      have hnone : (s.put p none (withoutArray s.mem (some b))).arrayOf p = none := by
        rw [HeapObjects.arrayOf_put, Function.update_self]
        rfl
      have hne : a ≠ b := fun hab => ha (hab ▸ hb)
      have hfinal := hfreed.acquire hnone (fun hmem => ha (Finset.mem_of_mem_erase hmem)) hordered
      have hcomm : withArray (withoutArray s.mem (some b)) a u.ar =
          withoutArray (withArray s.mem a u.ar) (some b) := by
        simp only [withArray, withoutArray, Finset.erase_insert_of_ne hne]
      rw [HeapObjects.put_put, Function.update_idem] at hfinal
      refine matches_of_silent ?_ hvalues hfinal
      rw [run, hthis, orOutside, ok_bind, hinsert, ok_bind]
      exact congrArg (fun mem => Except.ok (s.put p (some (u.withAr (some a))) mem, [])) hcomm.symm
    · refine matches_of_silent ?_ hvalues (h.write harray hordered)
      rw [run, hthis, orOutside, ok_bind, hinsert]
      rfl

theorem deleteMax_matches (h : s.Holds v lost) (hp : (s.heaps p).isSome) :
    (deleteMax p).Matches s v lost := by
  obtain ⟨this, t, hthis, hvalue, hstands⟩ := h.of_isSome hp
  have hremovals (count data : ℤ) :
      removals (if 0 < count then [.removed p data] else []) =
        if 0 < count then [(p, data)] else [] := by
    split_ifs <;> rfl
  have hoverwrites (count data : ℤ) :
      overwrites (if 0 < count then [.removed p data] else []) = [] := by
    split_ifs <;> rfl
  rcases HeapRef.deleteMax_spec hstands with ⟨fault, hfault, hfault'⟩ | hempty | hok
  · refine .inl ⟨fault, ?_, ?_⟩
    · rw [run, hthis, orOutside, ok_bind, hfault', error_bind]
    · rw [onValues, hvalue, orOutside, ok_bind, hfault, error_bind]
  · obtain ⟨hcount, hdelete, hdelete'⟩ := hempty
    refine .inr ⟨s, _, v, ?_, ?_, (hoverwrites t.count (-1)).symm ▸ (List.append_nil lost).symm ▸ h⟩
    · have hsame : s.put p (some this) s.mem = s := by
        rw [HeapObjects.put, ← hthis, Function.update_eq_self]
      rw [run, hthis, orOutside, ok_bind, hdelete', ok_bind]
      dsimp only
      rw [hsame, hcount]
      rfl
    · rw [onValues, hvalue, orOutside, ok_bind, hdelete, ok_bind, hremovals]
      dsimp only
      rw [← hvalue, Function.update_eq_self]
      rfl
  · obtain ⟨b, data, u, n, har, hcount, hu, hordered, hdelete⟩ := hok
    have harray : s.arrayOf p = some b := (HeapObjects.arrayOf_eq hthis).trans har
    have hfinal := h.write harray hordered
    refine .inr ⟨_, _, _, ?_, ?_, (hoverwrites t.count data).symm ▸
      (List.append_nil lost).symm ▸ hfinal⟩
    · rw [run, hthis, orOutside, ok_bind, hdelete, ok_bind]
      dsimp only
      rw [hcount]
      rfl
    · rw [onValues, hvalue, orOutside, ok_bind, hu, ok_bind, hremovals]
      rfl

/-- **One operation.** Where nothing is used that is not there and `new` finds room, what an
operation does to the objects it does to their values. -/
theorem run_spec (h : s.Holds v lost) (hready : op.Ready s.heaps) (hfresh : op.Fresh s) :
    op.Matches s v lost := by
  obtain ⟨hmade, hused⟩ := hready
  cases op with
  | construct p capacity heapType prior a =>
    exact construct_matches h (Option.isNone_iff_eq_none.mp (hmade p rfl)) hfresh ..
  | copyConstruct p src a =>
    exact copyConstruct_matches h (Option.isNone_iff_eq_none.mp (hmade p rfl))
      (hused src (by simp [used])) hfresh
  | moveConstruct p src a =>
    exact moveConstruct_matches h (Option.isNone_iff_eq_none.mp (hmade p rfl))
      (hused src (by simp [used])) hfresh
  | copyAssign p src a =>
    exact copyAssign_matches h (hused p (by simp [used])) (hused src (by simp [used])) hfresh
  | moveAssign p src a =>
    exact moveAssign_matches h (hused p (by simp [used])) (hused src (by simp [used])) hfresh
  | free p => exact free_matches h (hused p (by simp [used]))
  | destruct p => exact destruct_matches h (hused p (by simp [used]))
  | insert p data prior a => exact insert_matches h (hused p (by simp [used])) hfresh ..
  | deleteMax p => exact deleteMax_matches h (hused p (by simp [used]))

/-- What goes wrong with a value, but for an `int` that gets too large. -/
theorem onValues_fault {fault : HeapFault} (hv : ∀ p t, v p = some t → ∃ n, t.Ordered n)
    (hready : op.Ready v) (hfault : op.onValues v = .error fault) : fault = .overflow ∨
      ∃ p data prior a t, op = .insert p data prior a ∧ v p = some t ∧ t.capacity = 0 := by
  cases op with
  | insert p data prior a =>
    obtain ⟨t, hp⟩ := Option.isSome_iff_exists.mp (hready.2 p (by simp [used]))
    obtain ⟨n, ht⟩ := hv p t hp
    have hle := ht.le
    rcases (show 0 ≤ t.capacity by omega).eq_or_lt with hzero | hcap
    · exact .inr ⟨p, data, prior, a, t, rfl, hp, hzero.symm⟩
    · rw [onValues, hp, orOutside, ok_bind] at hfault
      rcases IntHeap.insert_spec ht hcap data prior with ⟨hover, -⟩ | ⟨u, hu, -⟩
      · rw [hover, error_bind] at hfault
        exact .inl (Except.error.inj hfault).symm
      · rw [hu] at hfault
        cases hfault
  | deleteMax p =>
    obtain ⟨t, hp⟩ := Option.isSome_iff_exists.mp (hready.2 p (by simp [used]))
    obtain ⟨n, ht⟩ := hv p t hp
    rw [onValues, hp, orOutside, ok_bind] at hfault
    cases n with
    | zero =>
      rw [IntHeap.deleteMax_zero ht.toShaped] at hfault
      cases hfault
    | succ n =>
      rcases IntHeap.deleteMax_spec ht with ⟨hover, -⟩ | ⟨data, u, hu, -⟩
      · rw [hover, error_bind] at hfault
        exact .inl (Except.error.inj hfault).symm
      · rw [hu] at hfault
        cases hfault
  | _ => cases hfault

end HeapOp

/-! ### Runs -/

variable {s t : HeapObjects} {v : ℕ → Option IntHeap} {lost : List Addr} {ops : List HeapOp}
  {op : HeapOp} {outs o : List HeapObjectEvent} {cell : Addr → Heap ℕ ℤ}

theorem removals_append (outs outs' : List HeapObjectEvent) :
    removals (outs ++ outs') = removals outs ++ removals outs' := List.filterMap_append

theorem overwrites_append (outs outs' : List HeapObjectEvent) :
    overwrites (outs ++ outs') = overwrites outs ++ overwrites outs' := List.filterMap_append

namespace HeapObjects

theorem holds_empty (cell : Addr → Heap ℕ ℤ) : (empty cell).Holds (fun _ => none) [] :=
  ⟨.empty, fun _ => .none⟩

/-- The values are there for the objects that are there. -/
theorem Holds.ready (h : s.Holds v lost) (hready : op.Ready s.heaps) : op.Ready v := by
  have hsome (p : ℕ) : (s.heaps p).isSome = (v p).isSome := by
    have hold := h.stands p
    generalize s.heaps p = y at hold
    generalize v p = x at hold
    cases hold <;> rfl
  refine ⟨fun p hp => ?_, fun p hp => hsome p ▸ hready.2 p hp⟩
  have hnone := hready.1 p hp
  rw [← Option.not_isSome] at hnone ⊢
  rwa [← hsome p]

theorem Holds.ordered (h : s.Holds v lost) (p : ℕ) (t : IntHeap) (hp : v p = some t) :
    ∃ n, t.Ordered n := by
  have hold := h.stands p
  rw [hp] at hold
  generalize s.heaps p = y at hold
  cases hold with
  | some hold => exact hold.ordered

/-- **One step.** It is one of the values. -/
theorem Holds.step (h : s.Holds v lost) (ha : heapObjectsMachine.allowed s op)
    (hs : heapObjectsMachine.step s op = some (t, o)) :
    ∃ u, heapValuesMachine.allowed v op ∧ heapValuesMachine.step v op = some (u, removals o) ∧
      t.Holds u (lost ++ overwrites o) := by
  obtain ⟨hready, hfresh, -⟩ := ha
  have hrun : (op.run s).toOption = some (t, o) := hs
  rcases HeapOp.run_spec h hready hfresh with ⟨fault, hfault, -⟩ | ⟨t', o', u, hok, hvalues, ht⟩
  · rw [hfault] at hrun
    cases hrun
  · rw [hok] at hrun
    obtain ⟨rfl, rfl⟩ := Prod.mk.inj (Option.some.inj hrun)
    refine ⟨u, ⟨h.ready hready, ?_⟩, ?_, ht⟩
    · rw [hvalues]
      rfl
    · show (op.onValues v).toOption = _
      rw [hvalues]
      rfl

/-- **Every run.** It is one of the values. -/
theorem exists_values_of_run (h : heapObjectsMachine.Run (.empty cell) ops s outs) :
    ∃ v, heapValuesMachine.Run (fun _ => none) ops v (removals outs) ∧
      s.Holds v (overwrites outs) := by
  refine h.invariant (P := fun ops s outs => ∃ v,
    heapValuesMachine.Run (fun _ => none) ops v (removals outs) ∧ s.Holds v (overwrites outs))
    ⟨_, .nil, holds_empty cell⟩ ?_
  rintro ops s outs op t o - ⟨v, hrun, hv⟩ ha hs
  obtain ⟨u, hallowed, hstep, hu⟩ := hv.step ha hs
  rw [removals_append, overwrites_append]
  exact ⟨u, hrun.snoc hallowed hstep, hu⟩

/-- What can go wrong: there is no room, and there never will be. -/
theorem Holds.step_eq_none_iff (h : s.Holds v lost) (ha : heapObjectsMachine.allowed s op) :
    heapObjectsMachine.step s op = none ↔ ∃ p data prior a, op = .insert p data prior a ∧
      ∃ heap ∈ s.heaps p, heap.capacity = 0 := by
  obtain ⟨hready, hfresh, hover⟩ := ha
  show (op.run s).toOption = none ↔ _
  rcases HeapOp.run_spec h hready hfresh with ⟨fault, hfault, hvalues⟩ | ⟨t, o, u, hok, hvalues, -⟩
  · refine iff_of_true (by rw [hfault]; rfl) ?_
    rcases HeapOp.onValues_fault h.ordered (h.ready hready) hvalues with rfl | hfull
    · rw [hfault] at hover
      cases hover
    · obtain ⟨p, data, prior, a, x, rfl, hp, hcap⟩ := hfull
      obtain ⟨heap, x', hheap, hx, hstands⟩ := h.of_isSome (hready.2 p (by simp [HeapOp.used]))
      obtain rfl := Option.some.inj (hp.symm.trans hx)
      exact ⟨p, data, prior, a, rfl, heap, hheap,
        (congrArg HeapOf.capacity hstands.fields).trans hcap⟩
  · refine iff_of_false (by rw [hok]; exact Option.some_ne_none _) ?_
    rintro ⟨p, data, prior, a, rfl, heap, hheap, hcap⟩
    obtain ⟨heap', x, hheap', hx, hstands⟩ := h.of_isSome (hready.2 p (by simp [HeapOp.used]))
    obtain rfl := Option.some.inj (hheap.symm.trans hheap')
    obtain ⟨n, hordered⟩ := hstands.ordered
    have hzero : x.capacity = 0 := (congrArg HeapOf.capacity hstands.fields).symm.trans hcap
    obtain rfl : n = 0 := by
      have hle := hordered.le
      omega
    rw [HeapOp.onValues, hx, orOutside, ok_bind, insert_outside hordered hzero, error_bind]
      at hvalues
    cases hvalues

end HeapObjects

/-- **Values of their own.** In every run, with any number of objects, what is done to an object is
done to its value and to no other: copying copies the value, moving copies it too, and only the
constructor that moves leaves its source empty. No two objects have the same array, no array is
accessed that is not there, and of the operations in which no `int` overflows nothing can go wrong
but an `insert` into an object whose capacity is zero. -/
theorem heap_objects_values (h : heapObjectsMachine.Run (.empty cell) ops s outs) :
    (∃ v, heapValuesMachine.Run (fun _ => none) ops v (removals outs) ∧
      ∀ p, Option.Rel (HeapRef.Stands s.mem) (s.heaps p) (v p)) ∧
    (∀ p q a, s.arrayOf p = some a → s.arrayOf q = some a → p = q) ∧
    ∀ op, heapObjectsMachine.allowed s op → (heapObjectsMachine.step s op = none ↔
      ∃ p data prior a, op = .insert p data prior a ∧
        ∃ heap ∈ s.heaps p, heap.capacity = 0) := by
  obtain ⟨v, hrun, hv⟩ := HeapObjects.exists_values_of_run h
  exact ⟨⟨v, hrun, hv.stands⟩, fun _ _ _ => hv.owners.unique, fun _ => hv.step_eq_none_iff⟩

/-- An object is made and filled, and two others from it; the second takes everything away. -/
def HeapOp.moves : List HeapOp :=
  [.construct 0 1 .max (fun _ => 7) 0, .insert 0 5 (fun _ => 0) 1, .insert 0 6 (fun _ => 0) 1,
    .copyConstruct 1 0 0, .deleteMax 1, .moveConstruct 2 0 2, .deleteMax 2]

/-- Nothing can be inserted where everything has been taken away. -/
theorem heap_objects_values_moves : ∃ s outs,
    heapObjectsMachine.Run (.empty fun _ => noInts) HeapOp.moves s outs ∧
      removals outs = [(1, 6), (2, 6)] ∧
      heapObjectsMachine.step s (.insert 0 5 (fun _ => 0) 1) = none := by
  have hrun : heapObjectsMachine.Run (.empty fun _ => noInts) HeapOp.moves _ _ :=
    Machine.run_of_exec rfl
  obtain ⟨-, -, hstep⟩ := heap_objects_values hrun
  refine ⟨_, _, hrun, rfl, (hstep _ ?_).mpr ⟨0, 5, _, 1, rfl, _, rfl, rfl⟩⟩
  exact ⟨by decide, by decide, rfl⟩

/-- **Leaks.** In every run the arrays that are there are those of the objects, one each, and those
whose pointers a copy assignment has overwritten, which nobody has a pointer to; when the objects
are gone these are what is left. -/
theorem heap_objects_leak (h : heapObjectsMachine.Run (.empty cell) ops s outs) :
    (∀ owners : Finset ℕ, (∀ p, p ∈ owners ↔ ∃ a, s.arrayOf p = some a) →
      s.mem.live.card = owners.card + (overwrites outs).length) ∧
    (∀ a ∈ overwrites outs, a ∈ s.mem.live ∧ ∀ p, s.arrayOf p ≠ some a) ∧
    ((∀ p, s.heaps p = none) → s.mem.live = (overwrites outs).toFinset) := by
  obtain ⟨v, -, hv⟩ := HeapObjects.exists_values_of_run h
  refine ⟨hv.owners.card_live, ?_, ?_⟩
  · intro a ha
    exact ⟨hv.owners.live_iff.mpr (.inr ha), fun p hp => hv.owners.notMem hp ha⟩
  · intro hnone
    refine hv.owners.live_eq fun p => ?_
    rw [HeapObjects.arrayOf, hnone p]
    rfl

/-- Two objects of which the first is copied to the second. -/
def HeapOp.assigns : List HeapOp :=
  [.construct 0 1 .max (fun _ => 7) 0, .construct 1 1 .max (fun _ => 7) 1, .copyAssign 1 0 2,
    .destruct 0, .destruct 1]

/-- The array that the second had is left. -/
theorem heap_objects_leak_assigns : ∃ s outs,
    heapObjectsMachine.Run (.empty fun _ => noInts) HeapOp.assigns s outs ∧ s.mem.live = {1} := by
  have hrun : heapObjectsMachine.Run (.empty fun _ => noInts) HeapOp.assigns _ _ :=
    Machine.run_of_exec rfl
  refine ⟨_, _, hrun, (heap_objects_leak hrun).2.2 fun p => ?_⟩
  cases p with
  | zero => rfl
  | succ p =>
    cases p with
    | zero => rfl
    | succ p => rfl

end Exec02
