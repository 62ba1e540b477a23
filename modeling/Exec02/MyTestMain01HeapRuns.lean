import Exec02.MyTestMain01Heap

/-!
# Runs of the priority queue

What comes of any sequence of calls of `insert`, `deleteMax` and `buildHeap` on a `Heap` of
`MyTestMain01.cpp`. The capacity that its constructor is given may be zero, which twice is zero
again: `resize` then makes no room, and the first value is stored behind the array.

## Reading the model

A call comes with what the arrays hold that `resize` makes. What is observed is the values that are
removed. No `int` gets too large: neither the capacity, when it is doubled, nor the index of a child
in a heap of more than `2 ^ 30` values.

## Main results

* `heapMachine_call` — one call, on a heap with some room
* `heap_is_max_queue` — what that means for every run
* `heap_inside_iff` — the runs that stay inside the array
-/

namespace Exec02

open HeapFault

/-! ### Runs -/

/-- A call, with what `resize` finds in each array that it makes. -/
inductive HeapCall
  | insert (data : ℤ) (prior : ℕ → ℤ)
  | deleteMax
  | buildHeap (items : List (ℤ × (ℕ → ℤ)))

/-- The values that are inserted. -/
def HeapCall.data : HeapCall → List ℤ
  | .insert data _ => [data]
  | .deleteMax => []
  | .buildHeap items => items.map Prod.fst

/-- A call, with the values that it removes. -/
def IntHeap.call (s : IntHeap) : HeapCall → Except HeapFault (IntHeap × List ℤ)
  | .insert data prior => do
    let (_, t) ← s.insert data prior
    return (t, [])
  | .deleteMax => do
    let (data, t) ← s.deleteMax
    return (t, if 0 < s.count then [data] else [])
  | .buildHeap items => do
    let t ← s.buildHeap items
    return (t, [])

/-- The capacity is below `2 ^ 30`, whenever something is inserted or removed. -/
def HeapCall.Small (s : IntHeap) : HeapCall → Prop
  | .insert _ _ | .deleteMax => s.capacity < 2 ^ 30
  | .buildHeap items =>
    ∀ items' t, items' <+: items → s.buildHeap items' = .ok t → t.capacity < 2 ^ 30

/-- The heap as a machine, observed at the values that are removed, in an environment where no `int`
gets too large. -/
def heapMachine : Machine IntHeap HeapCall ℤ where
  allowed s c := isOverflow (s.call c) = false
  step s c := (s.call c).toOption

instance (s : IntHeap) (c : HeapCall) : Decidable (heapMachine.allowed s c) :=
  inferInstanceAs (Decidable (isOverflow (s.call c) = false))

variable {s s₀ t u : IntHeap} {n : ℕ} {c : HeapCall} {calls : List HeapCall} {o outs : List ℤ}
  {capacity : Int32} {heapType : HeapType} {prior : ℕ → ℤ}

theorem step_iff_call : heapMachine.step s c = some (t, o) ↔ s.call c = .ok (t, o) := by
  show (s.call c).toOption = _ ↔ _
  cases s.call c with
  | error fault => exact iff_of_false nofun nofun
  | ok r => exact ⟨fun h => congrArg _ (Option.some.inj h), fun h => congrArg _ (Except.ok.inj h)⟩

/-- A call that answers is a step. -/
theorem exists_step_of_call (h : s.call c = .ok (t, o)) :
    heapMachine.allowed s c ∧ ∃ t o, heapMachine.step s c = some (t, o) := by
  refine ⟨?_, t, o, step_iff_call.mpr h⟩
  show isOverflow (s.call c) = false
  rw [h]
  rfl

/-- **One call.** It keeps the heap, and its values are accounted for, unless an `int` gets too
large. -/
theorem heapMachine_call (h : s.Ordered n) (hcap : 0 < s.capacity) (c : HeapCall) :
    (s.call c = .error .overflow ∧ ¬ c.Small s) ∨
      ∃ t o n', s.call c = .ok (t, o) ∧ t.Ordered n' ∧ 0 < t.capacity ∧
        (t.contents ++ o).Perm (c.data ++ s.contents) := by
  cases c with
  | insert data prior =>
    rcases IntHeap.insert_spec h hcap data prior with ⟨hover, hlarge⟩ | ⟨t, hinsert, ht, hperm⟩
    · refine Or.inl ⟨?_, not_lt.mpr hlarge⟩
      rw [IntHeap.call, hover]
      rfl
    · have htcap : 0 < t.capacity := by
        have := ht.le
        omega
      refine Or.inr ⟨t, [], n + 1, ?_, ht, htcap, ?_⟩
      · rw [IntHeap.call, hinsert]
        rfl
      · rwa [List.append_nil]
  | deleteMax =>
    cases n with
    | zero =>
      refine Or.inr ⟨s, [], 0, ?_, h, hcap, .of_eq (List.append_nil _)⟩
      have hempty : ¬ 0 < s.count := by
        have := h.count
        omega
      simp [IntHeap.call, IntHeap.deleteMax_zero h.toShaped, hempty]
    | succ n =>
      have hcount := h.count
      have hle := h.le
      rcases IntHeap.deleteMax_spec h with
        ⟨hover, hlarge⟩ | ⟨v, t, hdelete, ht, htcap, -, hperm⟩
      · refine Or.inl ⟨?_, ?_⟩
        · rw [IntHeap.call, hover]
          rfl
        · intro hsmall
          have hsmall : s.capacity < 2 ^ 30 := hsmall
          omega
      · refine Or.inr ⟨t, [v], n, ?_, ht, htcap ▸ hcap, ?_⟩
        · have hpos : 0 < s.count := by omega
          simp [IntHeap.call, hdelete, hpos]
        · exact (List.perm_append_singleton ..).trans hperm.symm
  | buildHeap items =>
    rcases IntHeap.buildHeap_spec h hcap items with
      ⟨hover, items', t, hpfx, hbuild, hlarge⟩ | ⟨t, n', hbuild, ht, htcap, hperm⟩
    · refine Or.inl ⟨?_, ?_⟩
      · rw [IntHeap.call, hover]
        rfl
      · intro hsmall
        exact absurd (hsmall items' t hpfx hbuild) (not_lt.mpr hlarge)
    · refine Or.inr ⟨t, [], n', ?_, ht, htcap, ?_⟩
      · rw [IntHeap.call, hbuild]
        rfl
      · rwa [List.append_nil]

/-- The new heap is empty. -/
theorem ordered_of_new (h : IntHeap.new capacity heapType prior = some s) :
    s.Ordered 0 ∧ s.capacity = capacity.toInt ∧ 0 ≤ capacity.toInt := by
  rw [IntHeap.new] at h
  split_ifs at h with hneg
  obtain rfl := Option.some.inj h
  have hpos : 0 ≤ capacity.toInt := Int32.le_iff_toInt_le.mp (Int32.not_lt.mp hneg)
  exact ⟨⟨⟨rfl, hpos, capacity.toInt_lt, rfl⟩, nofun⟩, rfl, hpos⟩

/-- What a run leaves is a heap, of what was inserted and not removed. -/
theorem ordered_of_run (h₀ : s₀.Ordered 0) (hcap : 0 < s₀.capacity)
    (h : heapMachine.Run s₀ calls t outs) : 0 < t.capacity ∧ (∃ n, t.Ordered n) ∧
      (t.contents ++ outs).Perm (calls.flatMap HeapCall.data) := by
  refine h.invariant (P := fun calls t outs => 0 < t.capacity ∧ (∃ n, t.Ordered n) ∧
    (t.contents ++ outs).Perm (calls.flatMap HeapCall.data)) ⟨hcap, ⟨0, h₀⟩, ?_⟩ ?_
  · rw [h₀.contents_eq, segment_self]
    exact .refl _
  · rintro calls t outs c u o - ⟨hcap, ⟨n, ht⟩, hperm⟩ ha hstep
    have hcall := step_iff_call.mp hstep
    rcases heapMachine_call ht hcap c with ⟨hover, -⟩ | ⟨u', o', n', hcall', hu, hucap, hperm'⟩
    · rw [hover] at hcall
      cases hcall
    · obtain ⟨rfl, rfl⟩ := Prod.mk.inj (Except.ok.inj (hcall'.symm.trans hcall))
      refine ⟨hucap, ⟨n', hu⟩, ?_⟩
      rw [List.flatMap_append, List.flatMap_singleton]
      calc (u'.contents ++ (outs ++ o')).Perm (u'.contents ++ (o' ++ outs)) :=
            List.perm_append_comm.append_left _
        _ = u'.contents ++ o' ++ outs := (List.append_assoc ..).symm
        (u'.contents ++ o' ++ outs).Perm (c.data ++ t.contents ++ outs) := hperm'.append_right _
        _ = c.data ++ (t.contents ++ outs) := List.append_assoc ..
        (c.data ++ (t.contents ++ outs)).Perm (c.data ++ calls.flatMap HeapCall.data) :=
            hperm.append_left _
        (c.data ++ calls.flatMap HeapCall.data).Perm _ := List.perm_append_comm

/-- **A queue.** After every run of a heap that was made with some capacity, it is in heap order and
holds what was inserted and not removed, in an array of its capacity; the next call goes through and
accesses nothing else, if the capacity is below `2 ^ 30`, and `deleteMax` removes a greatest
value. -/
theorem heap_is_max_queue (hnew : IntHeap.new capacity heapType prior = some s₀)
    (hcap : 1 ≤ capacity) (h : heapMachine.Run s₀ calls t outs) :
    (∀ i : ℕ, 0 < i → i < t.count → t.ar.cell ((i - 1) / 2) ≥ t.ar.cell i) ∧
    (t.contents ++ outs).Perm (calls.flatMap HeapCall.data) ∧
    (t.count ≤ t.capacity ∧ t.ar.live = Finset.range t.capacity.toNat) ∧
    (∀ c : HeapCall, c.Small t →
      heapMachine.allowed t c ∧ ∃ u o, heapMachine.step t c = some (u, o)) ∧
    (0 < t.count → ∀ v u, t.deleteMax = .ok (v, u) →
      (∀ x ∈ t.contents, x ≤ v) ∧ t.contents.Perm (v :: u.contents)) := by
  obtain ⟨h₀, hcapacity, -⟩ := ordered_of_new hnew
  have hpos : 0 < s₀.capacity := hcapacity ▸ Int32.le_iff_toInt_le.mp hcap
  obtain ⟨htcap, ⟨n, ht⟩, hperm⟩ := ordered_of_run h₀ hpos h
  have hcount := ht.count
  refine ⟨?_, hperm, ⟨hcount ▸ ht.le, ht.live⟩, ?_, ?_⟩
  · intro i hi hin
    exact ht.ordered i hi (by omega)
  · intro c hsmall
    rcases heapMachine_call ht htcap c with ⟨-, hlarge⟩ | ⟨u, o, -, hcall, -⟩
    · exact absurd hsmall hlarge
    · exact exists_step_of_call hcall
  · intro hne v u hdelete
    obtain ⟨n, rfl⟩ := Nat.exists_eq_succ_of_ne_zero (show n ≠ 0 by omega)
    exact (IntHeap.deleteMax_ok ht hdelete).2

/-- A heap for one value that is given three, and one of them is taken. -/
def HeapCall.sample : List HeapCall :=
  [.insert 2 fun _ => 0, .buildHeap [(5, fun _ => 0), (-1, fun _ => 0)], .deleteMax]

theorem heap_is_max_queue_sample : ∃ s₀ t outs, IntHeap.new 1 .max (fun _ => 7) = some s₀ ∧
    heapMachine.Run s₀ HeapCall.sample t outs ∧
      (t.contents ++ outs).Perm [2, 5, -1] ∧ t.ar.cell 0 ≥ t.ar.cell 1 := by
  have hrun : heapMachine.Run ⟨1, 0, newInts 1 fun _ => 7, .max⟩ HeapCall.sample _ _ :=
    Machine.run_of_exec rfl
  have hnew : IntHeap.new 1 .max (fun _ => 7) = some ⟨1, 0, newInts 1 fun _ => 7, .max⟩ := rfl
  obtain ⟨hordered, hperm, -⟩ := heap_is_max_queue hnew (by decide) hrun
  exact ⟨_, _, _, hnew, hrun, hperm, hordered 1 Nat.one_pos (by decide)⟩

/-! ### Staying inside the array -/

/-- At every moment of the calls there are no more values than there is room for, and the next call
accesses nothing outside the array. -/
def StaysInside (s : IntHeap) (calls : List HeapCall) : Prop :=
  ∀ calls' t outs, calls' <+: calls → heapMachine.Run s calls' t outs →
    t.count ≤ t.capacity ∧ ∀ c, calls' ++ [c] <+: calls → t.call c ≠ .error .outside

/-- Where nothing is inserted an empty heap stays as it is. -/
theorem call_of_data_nil (h : s.Ordered 0) (hc : c.data = []) : s.call c = .ok (s, []) := by
  have hempty : ¬ 0 < s.count := by
    have := h.count
    omega
  cases c with
  | insert data prior => exact absurd hc (List.cons_ne_nil _ _)
  | deleteMax => simp [IntHeap.call, IntHeap.deleteMax_zero h.toShaped, hempty]
  | buildHeap items =>
    obtain rfl := List.map_eq_nil_iff.mp hc
    rfl

/-- Twice no room is no room. -/
theorem insert_outside (h : s.Ordered 0) (hcap : s.capacity = 0) (data : ℤ) (prior : ℕ → ℤ) :
    s.insert data prior = .error .outside := by
  obtain ⟨capacity, count, ar, heapType⟩ := s
  obtain rfl : capacity = 0 := hcap
  obtain rfl : count = 0 := h.count
  rfl

theorem call_outside (h : s.Ordered 0) (hcap : s.capacity = 0) (hc : c.data ≠ []) :
    s.call c = .error .outside := by
  cases c with
  | insert data prior =>
    rw [IntHeap.call, insert_outside h hcap]
    rfl
  | deleteMax => exact absurd rfl hc
  | buildHeap items =>
    cases items with
    | nil => exact absurd rfl hc
    | cons item items =>
      rw [IntHeap.call, IntHeap.buildHeap, insert_outside h hcap]
      rfl

/-- In a heap without room nothing is ever inserted. -/
theorem run_of_no_room (h₀ : s₀.Ordered 0) (hcap : s₀.capacity = 0)
    (h : heapMachine.Run s₀ calls t outs) : t = s₀ ∧ ∀ c ∈ calls, c.data = [] := by
  refine h.invariant (P := fun calls t _ => t = s₀ ∧ ∀ c ∈ calls, c.data = [])
    ⟨rfl, fun c hc => absurd hc List.not_mem_nil⟩ ?_
  rintro calls t outs c u o - ⟨rfl, hcalls⟩ - hstep
  have hcall := step_iff_call.mp hstep
  by_cases hc : c.data = []
  · rw [call_of_data_nil h₀ hc] at hcall
    refine ⟨(Prod.mk.inj (Except.ok.inj hcall)).1.symm, ?_⟩
    exact List.forall_mem_append.mpr ⟨hcalls, List.forall_mem_singleton.mpr hc⟩
  · rw [call_outside h₀ hcap hc] at hcall
    cases hcall

/-- What a run leaves is a heap, whatever its capacity. -/
theorem exists_ordered_of_run (hnew : IntHeap.new capacity heapType prior = some s₀)
    (h : heapMachine.Run s₀ calls t outs) : ∃ n, t.Ordered n := by
  obtain ⟨h₀, hcapacity, hnonneg⟩ := ordered_of_new hnew
  rcases hnonneg.eq_or_lt with hzero | hpos
  · obtain ⟨rfl, -⟩ := run_of_no_room h₀ (by omega) h
    exact ⟨0, h₀⟩
  · exact (ordered_of_run h₀ (by omega) h).2.1

/-- The first call that inserts something into a heap without room. -/
theorem not_staysInside (h₀ : s₀.Ordered 0) (hcap : s₀.capacity = 0) (hc : c ∈ calls)
    (hdata : c.data ≠ []) : ¬ StaysInside s₀ calls := by
  have hfind : (calls.find? fun c => c.data ≠ []).isSome :=
    List.find?_isSome.mpr ⟨c, hc, decide_eq_true hdata⟩
  obtain ⟨c, hfind⟩ := Option.isSome_iff_exists.mp hfind
  obtain ⟨hdata, before, after, rfl, hbefore⟩ := List.find?_eq_some_iff_append.mp hfind
  have hbefore : ∀ c ∈ before, c.data = [] := by simpa using hbefore
  have hrun : ∃ t outs, heapMachine.Run s₀ before t outs := by
    refine Machine.exists_run ?_
    intro calls' c t outs hpfx hrun
    obtain ⟨rfl, -⟩ := run_of_no_room h₀ hcap hrun
    have hmem : c ∈ before := hpfx.subset (List.mem_append_right _ (List.mem_singleton_self c))
    exact exists_step_of_call (call_of_data_nil h₀ (hbefore c hmem))
  obtain ⟨t, outs, hrun⟩ := hrun
  obtain ⟨rfl, -⟩ := run_of_no_room h₀ hcap hrun
  intro hinside
  refine (hinside before t outs (List.prefix_append _ _) hrun).2 c ?_
    (call_outside h₀ hcap (of_decide_eq_true hdata))
  exact ⟨after, by rw [List.append_assoc]; rfl⟩

/-- **Inside the array.** The calls stay inside the array exactly if it was made with room for a
value, or nothing is inserted. -/
theorem heap_inside_iff (hnew : IntHeap.new capacity heapType prior = some s₀)
    (calls : List HeapCall) :
    StaysInside s₀ calls ↔ 0 < capacity ∨ ∀ c ∈ calls, c.data = [] := by
  obtain ⟨h₀, hcapacity, hnonneg⟩ := ordered_of_new hnew
  have hpos : 0 < capacity ↔ 0 < s₀.capacity := by
    rw [hcapacity]
    exact Int32.lt_iff_toInt_lt
  rw [hpos]
  constructor
  · intro hinside
    by_contra! hnone
    obtain ⟨hcap, c, hc, hdata⟩ := hnone
    exact not_staysInside h₀ (by omega) hc hdata hinside
  · intro hcond calls' t outs hpfx hrun
    by_cases hcap : 0 < s₀.capacity
    · obtain ⟨htcap, ⟨n, ht⟩, -⟩ := ordered_of_run h₀ hcap hrun
      refine ⟨ht.count ▸ ht.le, ?_⟩
      intro c _
      rcases heapMachine_call ht htcap c with ⟨hover, -⟩ | ⟨u, o, -, hcall, -⟩
      · rw [hover]
        nofun
      · rw [hcall]
        nofun
    · obtain ⟨rfl, -⟩ := run_of_no_room h₀ (by omega) hrun
      refine ⟨h₀.count ▸ h₀.le, ?_⟩
      intro c hc
      have hmem : c ∈ calls := hc.subset (List.mem_append_right _ (List.mem_singleton_self c))
      rw [call_of_data_nil h₀ (hcond.resolve_left hcap c hmem)]
      nofun

theorem heap_inside_sample : ∃ s₀, IntHeap.new 1 .max (fun _ => 7) = some s₀ ∧
    StaysInside s₀ HeapCall.sample := by
  have hnew : IntHeap.new 1 .max (fun _ => 7) = some ⟨1, 0, newInts 1 fun _ => 7, .max⟩ := rfl
  exact ⟨_, hnew, (heap_inside_iff hnew HeapCall.sample).mpr (Or.inl (by decide))⟩

/-- With room for no value, there is no place for the first one. -/
theorem not_heap_inside : ∃ s₀, IntHeap.new 0 .max (fun _ => 7) = some s₀ ∧
    s₀.insert 5 (fun _ => 0) = .error .outside ∧
    ¬ StaysInside s₀ [.insert 5 fun _ => 0] := by
  refine ⟨_, rfl, rfl, ?_⟩
  intro hinside
  exact (hinside [] _ [] List.nil_prefix .nil).2 _ List.prefix_rfl rfl

end Exec02
