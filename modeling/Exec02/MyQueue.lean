import Exec02.Lib.Deque
import Exec02.MyList

/-!
# Queue and stack

`MyQueue.c`, `MyQueue.h`, `MyStack.c` and `MyStack.h`. `Queue` and `Stack` are both `typedef`s of
`List`, so nothing stops a program from using one list as both, and then the list is a
double-ended sequence: `enqueue` works behind `tail`, everything else at the front.

`queue_enqueue` passes `list_tail(queue)` as the node to insert behind and never looks at the
list itself. It is right only because `tail` is exact whatever happened before — including the
call that emptied the list, and insertions at the front — which is what `Represents` says.

## Main results

* `queueEnqueue_spec`, `stackPush_spec`, `listRemNext_none` — the operations on a represented list
* `queueMachine_refines` — the list refines the double-ended sequence
* `queue_stack_run` — what that means for every run
-/

namespace Exec02

variable {δ : Type}

/-! ### The operations -/

/-- `queue_enqueue`. -/
def queueEnqueue (queue : ListMem δ) (data : Option δ) (malloc : Option Addr) :
    Option (ℤ × ListMem δ) :=
  listInsNext queue queue.list.tail data malloc

/-- `queue_dequeue`. -/
def queueDequeue (queue : ListMem δ) (data : Option δ) : Option (ℤ × ListMem δ × Option δ) :=
  listRemNext queue none data

/-- `stack_push`. -/
def stackPush (stack : ListMem δ) (data : Option δ) (malloc : Option Addr) :
    Option (ℤ × ListMem δ) :=
  listInsNext stack none data malloc

/-- `stack_pop`. -/
def stackPop (stack : ListMem δ) (data : Option δ) : Option (ℤ × ListMem δ × Option δ) :=
  listRemNext stack none data

/-- `queue_peek`, a macro: `NULL` on an empty list. -/
def queuePeek (queue : ListMem δ) : Option (Option δ) :=
  match queue.list.head with
  | none => some none
  | some head => queue.getData head

/-- `stack_peek`, the same macro again. -/
def stackPeek (stack : ListMem δ) : Option (Option δ) :=
  match stack.list.head with
  | none => some none
  | some head => stack.getData head

/-! ### The operations on a represented list -/

section Operations

open ListMem

variable {s : ListMem δ} {x : Addr} {ns : List Addr}

/-- `queue_enqueue` appends: `tail` is the last node, or `NULL` exactly on an empty list, where the
front is the back. -/
theorem queueEnqueue_spec (hs : s.Represents ns) (hx : x ∉ s.live) (d : Option δ) :
    ∃ s', queueEnqueue s d (some x) = some (0, s') ∧ s'.Represents (ns ++ [x]) ∧
      s'.data = Function.update s.data x d ∧ s'.live = insert x s.live := by
  rcases List.eq_nil_or_concat' ns with rfl | ⟨l, e, rfl⟩
  · rw [queueEnqueue, hs.tail]
    exact listInsNext_front hs hx d
  · rw [queueEnqueue, hs.tail, List.getLast?_concat]
    simpa using listInsNext_after hs hx d

/-- `stack_push` prepends. -/
theorem stackPush_spec (hs : s.Represents ns) (hx : x ∉ s.live) (d : Option δ) :
    ∃ s', stackPush s d (some x) = some (0, s') ∧ s'.Represents (x :: ns) ∧
      s'.data = Function.update s.data x d ∧ s'.live = insert x s.live :=
  listInsNext_front hs hx d

/-- Peeking reads the front of the sequence, and `NULL` when there is none. -/
theorem queuePeek_spec (hs : s.Represents ns) :
    queuePeek s = some ((ns.map s.data).head?.join) := by
  rw [queuePeek, hs.head]
  cases ns with
  | nil => rfl
  | cons a ns => simp [getData_of_mem (hs.live a (List.mem_cons_self ..))]

theorem stackPeek_eq (s : ListMem δ) : stackPeek s = queuePeek s := rfl

end Operations

/-! ### Runs -/

/-- A call on a list used as a queue and a stack at once. Allocation succeeds, at `node`. -/
inductive QueueCall (δ : Type)
  | enqueue (data : Option δ) (node : Addr)
  | dequeue (data : Option δ)
  | push (data : Option δ) (node : Addr)
  | pop (data : Option δ)

/-- The allocator hands out memory that is not in use. -/
def QueueCall.Allowed (s : ListMem δ) : QueueCall δ → Prop
  | .enqueue _ node | .push _ node => node ∉ s.live
  | .dequeue _ | .pop _ => True

instance (s : ListMem δ) : (c : QueueCall δ) → Decidable (c.Allowed s)
  | .enqueue _ node => inferInstanceAs (Decidable (node ∉ s.live))
  | .push _ node => inferInstanceAs (Decidable (node ∉ s.live))
  | .dequeue _ | .pop _ => inferInstanceAs (Decidable True)

/-- One list, used as a queue and a stack. -/
def queueMachine (δ : Type) : Machine (ListMem δ) (QueueCall δ) (DequeEvent (Option δ)) where
  allowed s c := c.Allowed s
  step s
    | .enqueue data node => do
      let (ret, s') ← queueEnqueue s data (some node)
      return (s', [.ofPut .pushBack data ret])
    | .dequeue data => do
      let (ret, s', data') ← queueDequeue s data
      return (s', [.ofTake ret data'])
    | .push data node => do
      let (ret, s') ← stackPush s data (some node)
      return (s', [.ofPut .pushFront data ret])
    | .pop data => do
      let (ret, s', data') ← stackPop s data
      return (s', [.ofTake ret data'])

instance (s : ListMem δ) (c : QueueCall δ) : Decidable ((queueMachine δ).allowed s c) :=
  inferInstanceAs (Decidable (c.Allowed s))

/-- Taking the front of a represented list: refused with `-1` when there is none, and otherwise the
first datum. -/
theorem listRemNext_none {s : ListMem δ} {ns : List Addr} (hs : s.Represents ns)
    (out : Option δ) :
    ∃ ret s' d ns', listRemNext s none out = some (ret, s', d) ∧ s'.Represents ns' ∧
      DequeStep ⊤ (ns.map s.data) (.ofTake ret d) (ns'.map s'.data) ∧ (ret = -1 ↔ ns = []) := by
  cases ns with
  | nil => exact ⟨-1, s, out, [], listRemNext_empty hs none out, hs, .empty, by simp⟩
  | cons a ns =>
    obtain ⟨s', hret, hs', hdata, -⟩ := listRemNext_front hs out
    have ha := (List.nodup_cons.mp hs.nodup).1
    refine ⟨0, s', s.data a, ns, hret, hs', ?_, by simp⟩
    rw [List.map_congr_left fun b hb => hdata b (by rintro rfl; exact ha hb)]
    exact .take

/-- **A list used as queue and stack is a double-ended sequence.** -/
theorem queueMachine_refines : (queueMachine δ).Refines (DequeStep ⊤)
    fun s xs => ∃ ns, s.Represents ns ∧ xs = ns.map s.data where
  step := by
    rintro s _ c ⟨ns, hs, rfl⟩ hc
    cases c with
    | enqueue data node =>
      obtain ⟨s', hret, hs', hdata, -⟩ := queueEnqueue_spec hs hc data
      refine ⟨s', _, _, by simp only [queueMachine, hret]; rfl, .single ?_, _, hs', rfl⟩
      rw [List.map_append, hdata, hs.map_update hc, List.map_singleton, Function.update_self]
      exact .pushBack (by simp)
    | push data node =>
      obtain ⟨s', hret, hs', hdata, -⟩ := stackPush_spec hs hc data
      refine ⟨s', _, _, by simp only [queueMachine, hret]; rfl, .single ?_, _, hs', rfl⟩
      rw [List.map_cons, hdata, hs.map_update hc, Function.update_self]
      exact .pushFront (by simp)
    | dequeue data =>
      obtain ⟨ret, s', d, ns', hret, hs', hstep, -⟩ := listRemNext_none hs data
      exact ⟨s', _, _, by simp only [queueMachine, queueDequeue, hret]; rfl, .single hstep, ns',
        hs', rfl⟩
    | pop data =>
      obtain ⟨ret, s', d, ns', hret, hs', hstep, -⟩ := listRemNext_none hs data
      exact ⟨s', _, _, by simp only [queueMachine, stackPop, hret]; rfl, .single hstep, ns',
        hs', rfl⟩

/-- **Every run of a list used as queue and stack.** The results are those of the double-ended
sequence, so nothing is lost or returned twice; a queue is first in first out and a stack last in
first out. The next `dequeue` and `pop` agree: they answer `-1` exactly when every accepted element
has been returned, and otherwise return the element that both peeks show. -/
theorem queue_stack_run {s₀ s : ListMem δ} {destroy : Option Addr} {calls : List (QueueCall δ)}
    {evs : List (DequeEvent (Option δ))}
    (h : (queueMachine δ).Run (listInit s₀ destroy) calls s evs) :
    Trace (DequeStep ⊤) [] evs s.contents ∧
      (accepted evs).Perm (taken evs ++ s.contents) ∧
      ((∀ e ∈ evs, e.IsQueue) → accepted evs = taken evs ++ s.contents) ∧
      ((∀ e ∈ evs, e.IsStack) → ∀ earlier d later, evs = earlier ++ .take d :: later →
        ∃ before inner, earlier = before ++ .pushFront d :: inner ∧ Balanced inner) ∧
      (∀ out, ∃ ret s' d,
        queueDequeue s out = some (ret, s', d) ∧ stackPop s out = some (ret, s', d) ∧
          (ret = -1 ∧ (accepted evs).Perm (taken evs) ∨
            ret = 0 ∧ ¬ (accepted evs).Perm (taken evs) ∧
              queuePeek s = some d ∧ stackPeek s = some d)) ∧
      ∀ c, (queueMachine δ).allowed s c → ∃ r, (queueMachine δ).step s c = some r := by
  obtain ⟨xs, htrace, ns, hs, rfl⟩ :=
    queueMachine_refines.run ⟨[], ListMem.represents_listInit s₀ destroy, rfl⟩ h
  rw [hs.contents_eq]
  refine ⟨htrace, by simpa using htrace.accepted_perm, fun hq => by simpa using htrace.fifo hq,
    ?_, ?_, ?_⟩
  · intro hst earlier d later hevs
    rw [hevs, List.append_cons] at htrace
    obtain ⟨ys, htrace, -⟩ := htrace.split
    exact htrace.lifo fun e he => hst e (by simp [hevs, he])
  · intro out
    have hall : ns = [] ↔ (accepted evs).Perm (taken evs) := by
      rw [← htrace.refused_iff]
      constructor
      · rintro rfl
        exact ⟨[], .empty⟩
      · rintro ⟨zs, hstep⟩
        cases ns with
        | nil => rfl
        | cons a ns => cases hstep
    cases ns with
    | nil => exact ⟨-1, s, out, listRemNext_empty hs none out, listRemNext_empty hs none out,
        Or.inl ⟨rfl, hall.mp rfl⟩⟩
    | cons a ns =>
      obtain ⟨s', hret, -⟩ := listRemNext_front hs out
      have hpeek : queuePeek s = some (s.data a) := queuePeek_spec hs
      exact ⟨0, s', s.data a, hret, hret,
        Or.inr ⟨rfl, fun hp => absurd (hall.mpr hp) (by simp), hpeek, (stackPeek_eq s).trans hpeek⟩⟩
  · intro c hc
    obtain ⟨s', o, -, hstep, -⟩ := queueMachine_refines.step ⟨ns, hs, rfl⟩ hc
    exact ⟨_, hstep⟩

/-- Calls that empty the list twice, mix both ends, and ask once too often. -/
def QueueCall.sample : List (QueueCall ℕ) :=
  [.enqueue (some 1) 10, .pop none, .enqueue (some 2) 10, .push (some 3) 11, .enqueue (some 4) 12,
    .dequeue none, .dequeue none, .pop none, .dequeue none]

theorem queue_stack_run_sample : ∃ s evs,
    (queueMachine ℕ).Run (listInit (.blank ℕ) none) QueueCall.sample s evs ∧
      taken evs = [some 1, some 3, some 2, some 4] ∧
      (accepted evs).Perm (taken evs ++ s.contents) := by
  have hrun : (queueMachine ℕ).Run (listInit (.blank ℕ) none) QueueCall.sample _ _ :=
    Machine.run_of_exec rfl
  exact ⟨_, _, hrun, rfl, (queue_stack_run hrun).2.1⟩

end Exec02
