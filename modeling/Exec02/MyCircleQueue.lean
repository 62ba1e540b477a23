import Exec02.Lib.Deque
import Exec02.Lib.Heap
import Exec02.Lib.Machine
import Exec02.Lib.Ring
import Mathlib.Data.Int.ConditionallyCompleteOrder
import Mathlib.Data.Int.Interval
import Mathlib.Tactic.Ring

/-!
# The circular queue

`MyCircleQueue.c`. A queue of at most `capacity` integers in an array of as many cells: `front` is
the oldest element, `rear` the cell behind the youngest, and `count` says how many there are. The
three are kept separately, so the contents are only meaningful where `rear` and `front + count`
agree modulo `capacity`; that is `WellFormed`, and it is what the two operations maintain.

The array is a heap addressed by index, whose live cells are the indices of the allocated block:
an access outside `[0, capacity)` is undefined behaviour, as is a remainder by zero. All the `int`
arithmetic on a well-formed queue stays within `[0, capacity]`, where it cannot overflow.

`initCirQue` allocates the array and sets nothing else, so that a queue is what its storage happened
to hold; and the loop of `printCirQue` counts down without going on to the next cell.

## Main results

* `insertCirQue_spec`, `removeCirQue_spec` — the operations on a well-formed queue
* `cirQueMachine_refines` — it is a queue bounded by `capacity`
* `cirQue_run` — for every run from a well-formed state
* `initCirQue_usable_iff` — the storage for which `initCirQue` leaves an empty queue
* `printCirQue_eq_removeAll_iff` — the queues that are printed as they are
-/

namespace Exec02

/-- `struct CirQue_`, without the function pointers its users keep in it. -/
structure CirQue where
  data : Heap ℤ ℤ
  front : ℤ
  rear : ℤ
  count : ℤ
  capacity : ℤ

/-- C's `%`: the remainder of truncating division, undefined for a zero divisor. -/
def cRem (a b : ℤ) : Option ℤ := if b = 0 then none else some (a.tmod b)

/-- `insertCirQue`. -/
def insertCirQue (que : CirQue) (newData : ℤ) : Option (ℤ × CirQue) :=
  if que.count = que.capacity then some (-1, que)
  else do
    let data ← que.data.store que.rear newData
    let rear ← cRem (que.rear + 1) que.capacity
    return (0, { que with data := data, rear := rear, count := que.count + 1 })

/-- `removeCirQue`; `data` is what `*data` held before the call. -/
def removeCirQue (que : CirQue) (data : ℤ) : Option (ℤ × CirQue × ℤ) :=
  if que.count = 0 then some (-1, que, data)
  else do
    let data ← que.data.load que.front
    let front ← cRem (que.front + 1) que.capacity
    return (0, { que with front := front, count := que.count - 1 }, data)

/-- `initCirQue`; `malloc` is what the array held, or `none` for `NULL`. -/
def initCirQue (que : CirQue) (capacity : ℤ) (malloc : Option (ℤ → ℤ)) : ℤ × CirQue :=
  match malloc with
  | none => (-1, { que with data := ⟨que.data.cell, ∅⟩ })
  | some cell =>
    (0, { que with data := ⟨cell, (Finset.range capacity.toNat).image fun i : ℕ => (i : ℤ)⟩ })

/-- The loop of `printCirQue`, whose `i` stays where it is. -/
def printCirQue.loop (que : CirQue) (i : ℤ) : ℕ → Option (List ℤ)
  | 0 => some []
  | j + 1 => do
    let d ← que.data.load i
    let rest ← printCirQue.loop que i j
    return d :: rest

/-- `printCirQue`: its answer, the queue behind it, and the numbers that are printed. -/
def printCirQue (que : CirQue) : Option (ℤ × CirQue × List ℤ) :=
  if que.count < 1 then some (-1, que, [])
  else do
    let printed ← printCirQue.loop que que.front que.count.toNat
    return (0, que, printed)

/-- Call `removeCirQue` until it fails: the elements it returns, and the queue behind it. -/
def removeAll : ℕ → CirQue → Option (List ℤ × CirQue)
  | 0, _ => none
  | fuel + 1, que => do
    let (ret, que, d) ← removeCirQue que 0
    if ret ≠ 0 then return ([], que)
    let (ds, que) ← removeAll fuel que
    return (d :: ds, que)

/-! ### Well-formed queues -/

namespace CirQue

/-- The state a circular queue is in between calls, in an array of `capacity` cells. -/
structure WellFormed (q : CirQue) : Prop where
  capacity_pos : 0 < q.capacity
  front_nonneg : 0 ≤ q.front
  front_lt : q.front < q.capacity
  count_nonneg : 0 ≤ q.count
  count_le : q.count ≤ q.capacity
  rear_eq : q.rear = (q.front + q.count) % q.capacity
  live_eq : q.data.live = Finset.Ico 0 q.capacity

/-- The elements held, oldest first. -/
def contents (q : CirQue) : List ℤ := window q.data.cell q.capacity q.front q.count.toNat

namespace WellFormed

variable {q : CirQue}

theorem length_contents (h : q.WellFormed) : (q.contents.length : ℤ) = q.count := by
  have := h.count_nonneg
  rw [contents, length_window]
  omega

/-- Every index the operations compute is inside the array. -/
theorem emod_mem_live (h : q.WellFormed) (i : ℤ) : i % q.capacity ∈ q.data.live := by
  rw [h.live_eq, Finset.mem_Ico]
  exact ⟨Int.emod_nonneg i h.capacity_pos.ne', Int.emod_lt_of_pos i h.capacity_pos⟩

theorem rear_mem_live (h : q.WellFormed) : q.rear ∈ q.data.live :=
  h.rear_eq ▸ h.emod_mem_live _

theorem front_mem_live (h : q.WellFormed) : q.front ∈ q.data.live := by
  rw [h.live_eq, Finset.mem_Ico]
  exact ⟨h.front_nonneg, h.front_lt⟩

/-- On indices of the array, C's remainder is the modulus. -/
theorem cRem_eq (h : q.WellFormed) {i : ℤ} (hi : 0 ≤ i) :
    cRem i q.capacity = some (i % q.capacity) := by
  rw [cRem, if_neg h.capacity_pos.ne', Int.tmod_eq_emod_of_nonneg hi]

end WellFormed

end CirQue

variable {q : CirQue}

/-- `insertCirQue` answers `-1` and changes nothing when the queue is full, and appends
otherwise. -/
theorem insertCirQue_spec (h : q.WellFormed) (v : ℤ) :
    ∃ ret q', insertCirQue q v = some (ret, q') ∧
      (ret = -1 ∧ (q.contents.length : ℤ) = q.capacity ∧ q' = q ∨
        ret = 0 ∧ (q.contents.length : ℤ) < q.capacity ∧ q'.WellFormed ∧
          q'.capacity = q.capacity ∧ q'.contents = q.contents ++ [v]) := by
  have hpos := h.capacity_pos
  have hcount := h.count_nonneg
  by_cases hfull : q.count = q.capacity
  · exact ⟨-1, q, if_pos hfull, Or.inl ⟨rfl, h.length_contents.trans hfull, rfl⟩⟩
  · have hlt : q.count < q.capacity := by have := h.count_le; omega
    have hrear : 0 ≤ q.rear := by
      rw [h.rear_eq]
      exact Int.emod_nonneg _ hpos.ne'
    refine ⟨0, { q with
      data := ⟨Function.update q.data.cell q.rear v, q.data.live⟩
      rear := (q.rear + 1) % q.capacity
      count := q.count + 1 }, ?_, Or.inr ⟨rfl, ?_, ?_, rfl, ?_⟩⟩
    · simp [insertCirQue, if_neg hfull, Heap.store_of_mem h.rear_mem_live,
        h.cRem_eq (by omega : 0 ≤ q.rear + 1)]
    · rwa [h.length_contents]
    · have hcount : 0 ≤ q.count + 1 := by omega
      refine ⟨hpos, h.front_nonneg, h.front_lt, hcount, hlt, ?_, h.live_eq⟩
      change (q.rear + 1) % q.capacity = (q.front + (q.count + 1)) % q.capacity
      rw [h.rear_eq, Int.emod_add_emod, add_assoc]
    · have hn : ((q.count.toNat : ℕ) : ℤ) = q.count := by omega
      have hroom : ((q.count.toNat : ℕ) : ℤ) < q.capacity := by omega
      have hsnoc := window_snoc q.data.cell q.front hroom v
      rw [hn, ← h.rear_eq] at hsnoc
      change window _ q.capacity q.front (q.count + 1).toNat = _
      rwa [show (q.count + 1).toNat = q.count.toNat + 1 by omega]

/-- `removeCirQue` answers `-1` and touches neither the queue nor `*data` when the queue is empty,
and otherwise returns its oldest element. -/
theorem removeCirQue_spec (h : q.WellFormed) (out : ℤ) :
    ∃ ret q' d, removeCirQue q out = some (ret, q', d) ∧
      (ret = -1 ∧ q.contents = [] ∧ q' = q ∧ d = out ∨
        ret = 0 ∧ q'.WellFormed ∧ q'.capacity = q.capacity ∧ q.contents = d :: q'.contents) := by
  have hpos := h.capacity_pos
  have hcount := h.count_nonneg
  by_cases hempty : q.count = 0
  · refine ⟨-1, q, out, if_pos hempty, Or.inl ⟨rfl, ?_, rfl, rfl⟩⟩
    rw [← List.length_eq_zero_iff]
    have := h.length_contents
    omega
  · have hfront : 0 ≤ q.front + 1 := by have := h.front_nonneg; omega
    refine ⟨0, { q with front := (q.front + 1) % q.capacity, count := q.count - 1 },
      q.data.cell q.front, ?_, Or.inr ⟨rfl, ?_, rfl, ?_⟩⟩
    · simp [removeCirQue, if_neg hempty, Heap.load_of_mem h.front_mem_live, h.cRem_eq hfront]
    · refine ⟨hpos, Int.emod_nonneg _ hpos.ne', Int.emod_lt_of_pos _ hpos,
        by change 0 ≤ q.count - 1; omega, ?_, ?_, h.live_eq⟩
      · change q.count - 1 ≤ q.capacity
        have := h.count_le
        omega
      · change q.rear = ((q.front + 1) % q.capacity + (q.count - 1)) % q.capacity
        rw [h.rear_eq, Int.emod_add_emod]
        congr 1
        ring
    · change window q.data.cell q.capacity q.front q.count.toNat =
        _ :: window q.data.cell q.capacity ((q.front + 1) % q.capacity) (q.count - 1).toNat
      rw [show q.count.toNat = (q.count - 1).toNat + 1 by omega, window_cons,
        Int.emod_eq_of_lt h.front_nonneg h.front_lt]

/-! ### Runs -/

/-- A call on a circular queue. -/
inductive CirQueCall
  | insert (newData : ℤ)
  | remove (data : ℤ)

/-- The circular queue as a machine; every call is allowed. -/
def cirQueMachine : Machine CirQue CirQueCall (DequeEvent ℤ) where
  allowed _ _ := True
  step q
    | .insert newData => do
      let (ret, q') ← insertCirQue q newData
      return (q', [.ofPut .pushBack newData ret])
    | .remove data => do
      let (ret, q', data') ← removeCirQue q data
      return (q', [.ofTake ret data'])

instance (q : CirQue) (c : CirQueCall) : Decidable (cirQueMachine.allowed q c) :=
  inferInstanceAs (Decidable True)

/-- **A circular queue is a queue bounded by its capacity.** -/
theorem cirQueMachine_refines (cap : ℕ) : cirQueMachine.Refines (DequeStep cap)
    fun q xs => q.WellFormed ∧ q.capacity = cap ∧ xs = q.contents where
  step := by
    rintro q _ c ⟨h, hcap, rfl⟩ -
    cases c with
    | insert v =>
      obtain ⟨ret, q', hret, hcase⟩ := insertCirQue_spec h v
      refine ⟨q', _, q'.contents, by simp only [cirQueMachine, hret]; rfl, .single ?_, ?_⟩
      · rcases hcase with ⟨rfl, hlen, rfl⟩ | ⟨rfl, hlen, -, -, hcontents⟩
        · exact .full (by rw [hcap] at hlen; exact_mod_cast hlen)
        · rw [hcontents]
          exact .pushBack (by rw [hcap] at hlen; exact_mod_cast hlen)
      · rcases hcase with ⟨-, -, rfl⟩ | ⟨-, -, h', hcap', -⟩
        · exact ⟨h, hcap, rfl⟩
        · exact ⟨h', hcap'.trans hcap, rfl⟩
    | remove out =>
      obtain ⟨ret, q', d, hret, hcase⟩ := removeCirQue_spec h out
      refine ⟨q', _, q'.contents, by simp only [cirQueMachine, hret]; rfl, .single ?_, ?_⟩
      · rcases hcase with ⟨rfl, hnil, rfl, rfl⟩ | ⟨rfl, -, -, hcontents⟩
        · rw [hnil]
          exact .empty
        · rw [hcontents]
          exact .take
      · rcases hcase with ⟨-, -, rfl, -⟩ | ⟨-, h', hcap', -⟩
        · exact ⟨h, hcap, rfl⟩
        · exact ⟨h', hcap'.trans hcap, rfl⟩

/-- Nothing is ever inserted at the front. -/
theorem cirQueMachine_isQueue {q₀ q : CirQue} {calls : List CirQueCall}
    {evs : List (DequeEvent ℤ)} (h : cirQueMachine.Run q₀ calls q evs) :
    ∀ e ∈ evs, e.IsQueue := by
  refine h.invariant (P := fun _ _ evs => ∀ e ∈ evs, e.IsQueue) (by simp) ?_
  intro _ t _ c u o _ ih _ hstep
  refine List.forall_mem_append.mpr ⟨ih, ?_⟩
  cases c with
  | insert v =>
    obtain ⟨⟨ret, q'⟩, -, hr⟩ := Option.bind_eq_some_iff.mp hstep
    obtain ⟨-, rfl⟩ : q' = u ∧ [DequeEvent.ofPut .pushBack v ret] = o := by simpa using hr
    exact List.forall_mem_singleton.mpr (DequeEvent.isQueue_ofPut v ret)
  | remove out =>
    obtain ⟨⟨ret, q', d⟩, -, hr⟩ := Option.bind_eq_some_iff.mp hstep
    obtain ⟨-, rfl⟩ : q' = u ∧ [DequeEvent.ofTake ret d] = o := by simpa using hr
    exact List.forall_mem_singleton.mpr (DequeEvent.isQueue_ofTake d ret)

/-- **Every run of a circular queue.** From a well-formed state no call ever reaches outside the
array, the state stays well formed, and what is observed is a first-in first-out queue bounded by
the capacity. A refused call changes neither the queue nor the caller's variable. -/
theorem cirQue_run {q₀ q : CirQue} {calls : List CirQueCall} {evs : List (DequeEvent ℤ)}
    (h₀ : q₀.WellFormed) (h : cirQueMachine.Run q₀ calls q evs) :
    q.WellFormed ∧ q.capacity = q₀.capacity ∧
      Trace (DequeStep (q₀.capacity.toNat : ℕ)) q₀.contents evs q.contents ∧
      q₀.contents ++ accepted evs = taken evs ++ q.contents ∧
      (∀ v, ∃ ret q', insertCirQue q v = some (ret, q') ∧
        (ret = -1 ∧ (q.contents.length : ℤ) = q.capacity ∧ q' = q ∨
          ret = 0 ∧ (q.contents.length : ℤ) < q.capacity ∧ q'.contents = q.contents ++ [v])) ∧
      ∀ out, ∃ ret q' d, removeCirQue q out = some (ret, q', d) ∧
        (ret = -1 ∧ q.contents = [] ∧ q' = q ∧ d = out ∨
          ret = 0 ∧ q.contents = d :: q'.contents) := by
  have hcap : q₀.capacity = q₀.capacity.toNat := by have := h₀.capacity_pos; omega
  obtain ⟨xs, htrace, hq, hqcap, rfl⟩ :=
    (cirQueMachine_refines q₀.capacity.toNat).run ⟨h₀, hcap, rfl⟩ h
  refine ⟨hq, hqcap.trans hcap.symm, htrace, htrace.fifo (cirQueMachine_isQueue h), ?_, ?_⟩
  · intro v
    obtain ⟨ret, q', hret, hcase⟩ := insertCirQue_spec hq v
    exact ⟨ret, q', hret, hcase.imp_right fun ⟨h0, hlt, _, _, hc⟩ => ⟨h0, hlt, hc⟩⟩
  · intro out
    obtain ⟨ret, q', d, hret, hcase⟩ := removeCirQue_spec hq out
    exact ⟨ret, q', d, hret, hcase.imp_right fun ⟨h0, _, _, hc⟩ => ⟨h0, hc⟩⟩

/-- A queue of capacity 2 whose window wraps, filled, overfilled, emptied and asked once more. -/
theorem cirQue_run_sample : ∃ q evs,
    cirQueMachine.Run ⟨⟨fun _ => 0, Finset.Ico 0 2⟩, 1, 1, 0, 2⟩
        [.insert 5, .insert 6, .insert 7, .remove 0, .insert 8, .remove 0, .remove 0, .remove 9]
        q evs ∧
      taken evs = [5, 6, 8] ∧ accepted evs = taken evs ++ q.contents := by
  have h₀ : CirQue.WellFormed ⟨⟨fun _ => 0, Finset.Ico 0 2⟩, 1, 1, 0, 2⟩ := by
    constructor <;> decide
  have hrun : cirQueMachine.Run ⟨⟨fun _ => 0, Finset.Ico 0 2⟩, 1, 1, 0, 2⟩
      [.insert 5, .insert 6, .insert 7, .remove 0, .insert 8, .remove 0, .remove 0, .remove 9]
      _ _ :=
    Machine.run_of_exec rfl
  exact ⟨_, _, hrun, rfl, (cirQue_run h₀ hrun).2.2.2.1⟩

/-! ### A queue behind `initCirQue` -/

theorem image_range_toNat (n : ℤ) :
    ((Finset.range n.toNat).image fun i : ℕ => (i : ℤ)) = Finset.Ico 0 n := by
  ext i
  simp only [Finset.mem_image, Finset.mem_range, Finset.mem_Ico]
  constructor
  · rintro ⟨k, hk, rfl⟩
    omega
  · rintro ⟨hi, hin⟩
    exact ⟨i.toNat, by omega, by omega⟩

/-- An insertion that is taken, read off the machine. -/
theorem insertCirQue_of_step {q' : CirQue} {v : ℤ} {o : List (DequeEvent ℤ)}
    (h : cirQueMachine.step q (.insert v) = some (q', o)) :
    (q.count = q.capacity ∧ o = [.full v]) ∨
      (q.count ≠ q.capacity ∧ q.rear ∈ q.data.live ∧ q'.count = q.count + 1 ∧
        q'.capacity = q.capacity ∧ q'.front = q.front ∧
        q'.data = ⟨Function.update q.data.cell q.rear v, q.data.live⟩ ∧ o = [.pushBack v]) := by
  obtain ⟨⟨ret, q₁⟩, hret, hr⟩ := Option.bind_eq_some_iff.mp h
  obtain ⟨rfl, rfl⟩ : q₁ = q' ∧ [DequeEvent.ofPut .pushBack v ret] = o := by simpa using hr
  rw [insertCirQue] at hret
  split at hret
  · next hfull =>
    obtain ⟨rfl, rfl⟩ := Prod.mk.inj (Option.some.inj hret)
    exact Or.inl ⟨hfull, rfl⟩
  · next hfull =>
    obtain ⟨data, hdata, hret⟩ := Option.bind_eq_some_iff.mp hret
    obtain ⟨rear, hrear, hret⟩ := Option.bind_eq_some_iff.mp hret
    obtain ⟨rfl, rfl⟩ := Prod.mk.inj (Option.some.inj hret)
    obtain ⟨hlive, hdata⟩ := Option.ite_none_right_eq_some.mp hdata
    exact Or.inr ⟨hfull, hlive, rfl, rfl, rfl, (Option.some.inj hdata).symm, rfl⟩

/-- A removal, read off the machine. -/
theorem removeCirQue_of_step {q' : CirQue} {out : ℤ} {o : List (DequeEvent ℤ)}
    (h : cirQueMachine.step q (.remove out) = some (q', o)) :
    (q.count = 0 ∧ o = [.empty]) ∨
      (q.count ≠ 0 ∧ q.front ∈ q.data.live ∧ o = [.take (q.data.cell q.front)]) := by
  obtain ⟨⟨ret, q₁, d⟩, hret, hr⟩ := Option.bind_eq_some_iff.mp h
  obtain ⟨rfl, rfl⟩ : q₁ = q' ∧ [DequeEvent.ofTake ret d] = o := by simpa using hr
  rw [removeCirQue] at hret
  split at hret
  · next hempty =>
    obtain ⟨rfl, -⟩ := Prod.mk.inj (Option.some.inj hret)
    exact Or.inl ⟨hempty, rfl⟩
  · next hempty =>
    obtain ⟨data, hdata, hret⟩ := Option.bind_eq_some_iff.mp hret
    obtain ⟨front, hfront, hret⟩ := Option.bind_eq_some_iff.mp hret
    obtain ⟨rfl, hpair⟩ := Prod.mk.inj (Option.some.inj hret)
    obtain ⟨-, rfl⟩ := Prod.mk.inj hpair
    obtain ⟨hlive, hdata⟩ := Option.ite_none_right_eq_some.mp hdata
    exact Or.inr ⟨hempty, hlive, by rw [Option.some.inj hdata]; rfl⟩

/-- Every sequence of calls is a run of an empty queue bounded by `cap`. -/
def CirQue.Usable (q : CirQue) (cap : ℕ) : Prop :=
  ∀ calls, ∃ t evs xs, cirQueMachine.Run q calls t evs ∧ Trace (DequeStep cap) [] evs xs

theorem CirQue.usable_of_wellFormed {cap : ℕ} (h : q.WellFormed) (hcap : q.capacity = cap)
    (hempty : q.contents = []) : q.Usable cap := by
  intro calls
  obtain ⟨t, evs, xs, hrun, htrace, -⟩ :=
    (cirQueMachine_refines cap).exists_run (fun _ _ => trivial) ⟨h, hcap, hempty.symm⟩ calls
  exact ⟨t, evs, xs, hrun, htrace⟩

namespace CirQue.Usable

variable {cap : ℕ}

/-- The calls before the last one, and what the last one shows. -/
theorem snoc (h : q.Usable cap) (calls : List CirQueCall) (c : CirQueCall) :
    ∃ t u evs o xs ys, cirQueMachine.Run q calls t evs ∧ Trace (DequeStep cap) [] evs xs ∧
      cirQueMachine.step t c = some (u, o) ∧ Trace (DequeStep cap) xs o ys ∧
      cirQueMachine.Run q (calls ++ [c]) u (evs ++ o) := by
  obtain ⟨u, evs, ys, hrun, htrace⟩ := h (calls ++ [c])
  obtain ⟨t, evs, o, hbefore, -, hstep, rfl⟩ := hrun.of_snoc
  obtain ⟨xs, hxs, hys⟩ := htrace.split
  exact ⟨t, u, evs, o, xs, ys, hbefore, hxs, hstep, hys, hrun⟩

/-- The first removal fails. -/
theorem count_eq (h : q.Usable cap) : q.count = 0 := by
  obtain ⟨t, u, evs, o, xs, ys, hrun, hxs, hstep, hys, -⟩ := h.snoc [] (.remove 0)
  obtain ⟨rfl, rfl⟩ := Machine.Run.nil.unique hrun
  cases hxs
  rcases removeCirQue_of_step hstep with ⟨hempty, -⟩ | ⟨-, -, rfl⟩
  · exact hempty
  · cases hys with | cons step _ => cases step

/-- As long as there is room, every insertion succeeds and is counted. -/
theorem inserts (h : q.Usable cap) {n : ℕ} (hn : n ≤ cap) {t : CirQue}
    {evs : List (DequeEvent ℤ)} {xs : List ℤ}
    (hrun : cirQueMachine.Run q (List.replicate n (.insert 0)) t evs)
    (htrace : Trace (DequeStep cap) [] evs xs) :
    xs.length = n ∧ t.count = n ∧ t.capacity = q.capacity := by
  induction n generalizing t evs xs with
  | zero =>
    obtain ⟨rfl, rfl⟩ := Machine.Run.nil.unique hrun
    cases htrace
    exact ⟨rfl, h.count_eq, rfl⟩
  | succ n ih =>
    rw [List.replicate_succ'] at hrun
    obtain ⟨u, evs, o, hbefore, -, hstep, rfl⟩ := hrun.of_snoc
    obtain ⟨ys, hys, hxs⟩ := htrace.split
    obtain ⟨hlen, hcount, hcap⟩ := ih (by omega) hbefore hys
    rcases insertCirQue_of_step hstep with ⟨-, rfl⟩ | ⟨-, -, hcount', hcap', -, -, rfl⟩
    · cases hxs with
      | cons step _ =>
        cases step with
        | full hfull =>
          have : ys.length = cap := by exact_mod_cast hfull
          omega
    · cases hxs with
      | cons step rest =>
        cases step with
        | pushBack =>
          cases rest
          refine ⟨by simp [hlen], by rw [hcount', hcount]; rfl, hcap'.trans hcap⟩

/-- The insertion behind the last one that there is room for fails. -/
theorem capacity_eq (h : q.Usable cap) : q.capacity = cap := by
  obtain ⟨t, u, evs, o, xs, ys, hrun, hxs, hstep, hys, -⟩ :=
    h.snoc (List.replicate cap (.insert 0)) (.insert 0)
  obtain ⟨hlen, hcount, hcap⟩ := h.inserts le_rfl hrun hxs
  rcases insertCirQue_of_step hstep with ⟨hfull, -⟩ | ⟨-, -, -, -, -, -, rfl⟩
  · rw [← hcap, ← hfull, hcount]
  · cases hys with
    | cons step _ =>
      cases step with
      | pushBack hlt =>
        have : xs.length < cap := by exact_mod_cast hlt
        omega

/-- What is inserted first comes out first, so that it goes where the next removal looks. -/
theorem front_eq (h : q.Usable cap) (hcap : 0 < cap) :
    q.front = q.rear ∧ q.front ∈ q.data.live := by
  -- a value that is not there yet
  obtain ⟨t, u, evs, o, xs, ys, hrun, hxs, hstep, hys, -⟩ :=
    h.snoc ([] ++ [.insert (q.data.cell q.front + 1)]) (.remove 0)
  obtain ⟨q', evs', o', hnil, -, hstep', rfl⟩ := hrun.of_snoc
  obtain ⟨rfl, rfl⟩ := Machine.Run.nil.unique hnil
  rcases insertCirQue_of_step hstep' with ⟨hfull, -⟩ | ⟨-, hlive, hcount, -, hfront, hdata, rfl⟩
  · rw [h.count_eq, h.capacity_eq] at hfull
    omega
  · cases hxs with
    | cons step rest =>
      cases step
      cases rest
      rcases removeCirQue_of_step hstep with ⟨hempty, -⟩ | ⟨-, -, rfl⟩
      · rw [hcount, h.count_eq] at hempty
        omega
      · generalize hd : t.data.cell t.front = d at hys
        cases hys with
        | cons step _ =>
          cases step
          have heq : q.front = q.rear := by
            by_contra hne
            rw [hdata, hfront] at hd
            have := (Function.update_of_ne hne _ _).symm.trans hd
            omega
          exact ⟨heq, heq ▸ hlive⟩

end CirQue.Usable

/-- **The storage that `initCirQue` needs.** It leaves an empty queue exactly where `count` was
zero, `capacity` was the capacity already, and `front` and `rear` were one index of the array. -/
theorem initCirQue_usable_iff {que : CirQue} {capacity : ℕ} (hcap : 0 < capacity)
    {malloc : Option (ℤ → ℤ)} (h : initCirQue que capacity malloc = (0, q)) :
    q.Usable capacity ↔ que.count = 0 ∧ que.capacity = capacity ∧ que.front = que.rear ∧
      0 ≤ que.front ∧ que.front < capacity := by
  cases malloc with
  | none => cases h
  | some cell =>
    obtain ⟨-, rfl⟩ := Prod.mk.inj h
    constructor
    · intro husable
      obtain ⟨heq, hlive⟩ := husable.front_eq hcap
      rw [image_range_toNat, Finset.mem_Ico] at hlive
      exact ⟨husable.count_eq, husable.capacity_eq, heq, hlive⟩
    · rintro ⟨hcount, hcapacity, heq, hfront, hlt⟩
      rw [← hcapacity] at hlt
      have hpos : 0 < que.capacity := by omega
      refine CirQue.usable_of_wellFormed ⟨hpos, hfront, hlt, hcount.ge, ?_, ?_, ?_⟩ hcapacity ?_
      · change que.count ≤ que.capacity
        omega
      · change que.rear = (que.front + que.count) % que.capacity
        rw [hcount, add_zero, Int.emod_eq_of_lt hfront hlt, heq]
      · change _ = Finset.Ico 0 que.capacity
        rw [hcapacity, image_range_toNat]
      · change window cell que.capacity que.front que.count.toNat = []
        rw [hcount]
        rfl

/-- With memory that was zeroed but for `capacity`. -/
theorem initCirQue_usable_iff_zeroed :
    CirQue.Usable ⟨⟨fun _ => 7, (Finset.range 2).image fun i : ℕ => (i : ℤ)⟩, 0, 0, 0, 2⟩ 2 ↔
      (0 : ℤ) = 0 ∧ (2 : ℤ) = (2 : ℕ) ∧ (0 : ℤ) = 0 ∧ (0 : ℤ) ≤ 0 ∧ (0 : ℤ) < (2 : ℕ) :=
  initCirQue_usable_iff (by decide)
    (show initCirQue ⟨⟨fun _ => 0, ∅⟩, 0, 0, 0, 2⟩ (2 : ℕ) (some fun _ => 7) = (0, _) from rfl)

/-- In storage that was zeroed, the capacity is zero: the first insertion fails. -/
theorem not_initCirQue_usable :
    ∃ que q, initCirQue que 100 (some fun _ => 7) = (0, q) ∧ ¬ q.Usable 100 :=
  ⟨⟨⟨fun _ => 0, ∅⟩, 0, 0, 0, 0⟩, _, rfl, fun h => absurd h.capacity_eq (by decide)⟩

/-! ### Printing -/

/-- Every turn prints the same cell. -/
theorem printCirQue.loop_eq {i : ℤ} (hi : i ∈ q.data.live) (j : ℕ) :
    printCirQue.loop q i j = some (List.replicate j (q.data.cell i)) := by
  induction j with
  | zero => rfl
  | succ j ih =>
    rw [printCirQue.loop, Heap.load_of_mem hi, ih]
    rfl

/-- What is printed is the oldest element, as often as there are elements. -/
theorem printCirQue_spec (h : q.WellFormed) :
    ∃ ret, printCirQue q = some (ret, q, List.replicate q.count.toNat (q.data.cell q.front)) := by
  by_cases hempty : q.count < 1
  · refine ⟨-1, ?_⟩
    rw [printCirQue, if_pos hempty, show q.count.toNat = 0 by omega]
    rfl
  · refine ⟨0, ?_⟩
    rw [printCirQue, if_neg hempty, printCirQue.loop_eq h.front_mem_live]
    rfl

/-- Removing until it fails returns the contents, oldest first. -/
theorem removeAll_spec {fuel : ℕ} (h : q.WellFormed) (hfuel : q.contents.length < fuel) :
    ∃ q', removeAll fuel q = some (q.contents, q') ∧ q'.contents = [] := by
  induction fuel generalizing q with
  | zero => omega
  | succ fuel ih =>
    obtain ⟨ret, q', d, hret, hcase⟩ := removeCirQue_spec h 0
    rw [removeAll, hret]
    rcases hcase with ⟨rfl, hnil, rfl, rfl⟩ | ⟨rfl, h', -, hcons⟩
    · rw [hnil]
      exact ⟨q', rfl, hnil⟩
    · rw [hcons, List.length_cons] at hfuel
      obtain ⟨q'', hall, hnil⟩ := ih h' (Nat.lt_of_succ_lt_succ hfuel)
      refine ⟨q'', ?_, hnil⟩
      rw [hcons]
      simp [hall]

/-- The cell at `front` holds the oldest element. -/
theorem CirQue.WellFormed.front_mem_contents {v : ℤ} (h : q.WellFormed) (hv : v ∈ q.contents) :
    q.data.cell q.front ∈ q.contents := by
  rw [CirQue.contents] at hv ⊢
  cases hn : q.count.toNat with
  | zero =>
    rw [hn] at hv
    cases hv
  | succ n =>
    rw [window_cons, Int.emod_eq_of_lt h.front_nonneg h.front_lt]
    exact List.mem_cons_self ..

/-- **What is printed.** It is what removing would return, where all elements are the same. -/
theorem printCirQue_eq_removeAll_iff {fuel : ℕ} (h : q.WellFormed)
    (hfuel : q.contents.length < fuel) :
    (∃ ret values q', printCirQue q = some (ret, q, values) ∧
        removeAll fuel q = some (values, q')) ↔
      ∀ v ∈ q.contents, ∀ w ∈ q.contents, v = w := by
  obtain ⟨ret, hprint⟩ := printCirQue_spec h
  obtain ⟨q', hremove, -⟩ := removeAll_spec h hfuel
  have hlen : q.contents.length = q.count.toNat := length_window ..
  constructor
  · rintro ⟨_, values, _, hprinted, hremoved⟩ v hv w hw
    rw [hprint] at hprinted
    rw [hremove] at hremoved
    obtain ⟨rfl, -⟩ := Prod.mk.inj (Option.some.inj hremoved)
    obtain ⟨-, hprinted⟩ := Prod.mk.inj (Option.some.inj hprinted)
    rw [← (Prod.mk.inj hprinted).2] at hv hw
    rw [List.eq_of_mem_replicate hv, List.eq_of_mem_replicate hw]
  · intro hall
    refine ⟨ret, q.contents, q', ?_, hremove⟩
    rw [hprint, List.eq_replicate_iff.mpr ⟨hlen, fun v hv => hall v hv _ (h.front_mem_contents hv)⟩]

theorem printCirQue_eq_removeAll_iff_wrapped :
    (∃ ret values q', printCirQue ⟨⟨fun _ => 5, Finset.Ico 0 3⟩, 2, 1, 2, 3⟩ =
          some (ret, ⟨⟨fun _ => 5, Finset.Ico 0 3⟩, 2, 1, 2, 3⟩, values) ∧
        removeAll 3 ⟨⟨fun _ => 5, Finset.Ico 0 3⟩, 2, 1, 2, 3⟩ = some (values, q')) ↔
      ∀ v ∈ [(5 : ℤ), 5], ∀ w ∈ [(5 : ℤ), 5], v = w :=
  printCirQue_eq_removeAll_iff (by constructor <;> decide) (by decide)

/-- With `1` and `2` in the queue, `1` is printed twice. -/
theorem not_printCirQue_eq_removeAll :
    ∃ q q', q.WellFormed ∧ printCirQue q = some (0, q, [1, 1]) ∧
      removeAll 3 q = some ([1, 2], q') :=
  ⟨⟨⟨fun i => i + 1, Finset.Ico 0 2⟩, 0, 0, 2, 2⟩, _, by constructor <;> decide, rfl, rfl⟩

end Exec02
