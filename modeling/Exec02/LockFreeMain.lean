import Exec02.Lib.Machine
import Exec02.Lib.Pool
import Mathlib.Algebra.Group.Action.Defs
import Mathlib.Algebra.Order.Group.Multiset
import Mathlib.Data.Multiset.Range
import Mathlib.Tactic.Ring

/-!
# Producers and consumers

`LockFreeMain.cpp`: threads that push numbers on a lock-free stack, and threads that pop them. Each
producer takes its numbers from one counter, so no number is taken twice. The consumers pop until
the stack is empty, again and again until they are told that the producers are done, and then once
more: that last round is what makes sure that nothing is left.

## Reading the model

`push` and `pop` of the stack take effect at one moment each, `push` may fail, and `pop` fails if
the stack is empty. Raising a counter, a `push`, a look at the flag and a `pop` are one step each,
and a thread that is created does start. The numbers of threads and of rounds are constants of the
program (`LockFreeSizes.source`), which may be any as long as the counters, which are `int`s, do not
overflow.

## Main results

* `lockFreeMachine_tally` — where the numbers are, after every run
* `lock_free_conserves` — every number is consumed once, and at the end all of them are
* `lock_free_finishes` — every run can go on to the end, and how many steps count
-/

namespace Exec02

/-- `iterations`, `producer_thread_count` and `consumer_thread_count`. -/
structure LockFreeSizes where
  iterations : ℕ
  producers : ℕ
  consumers : ℕ
  fits : producers * iterations < 2 ^ 31

/-- Those of the program. -/
def LockFreeSizes.source : LockFreeSizes := ⟨10000000, 1, 1, by decide⟩

/-- A producer: in front of round `i`, or in the middle of it with a number to push. -/
inductive ProducerAt
  | next (i : ℕ)
  | pushing (i value : ℕ)
  deriving DecidableEq

/-- A consumer: in front of its look at the flag, of a `pop`, or of `++consumer_count`. It is late
when it has seen the flag. -/
inductive ConsumerAt
  | testing
  | popping (late : Bool)
  | counting (late : Bool)
  | finished
  deriving DecidableEq

/-- The shared variables, and where the threads are. -/
structure LockFree where
  producerCount : ℕ
  consumerCount : ℕ
  stack : List ℕ
  isAllThreadStarted : Bool
  producers : List ProducerAt
  consumers : List ConsumerAt

/-- What counts of a step. -/
inductive LockFreeEvent
  | made (value : ℕ)
  | pushed (value : ℕ)
  | popped (value : ℕ)
  | counted
  | raised
  | late
  | left
  deriving DecidableEq

/-- What can happen: a thread takes its next step, where a `push` may fail, and the main thread has
joined the producers. -/
inductive LockFreeInput
  | produce (n : ℕ) (ok : Bool)
  | consume (n : ℕ)
  | raise
  deriving DecidableEq

namespace LockFree

/-- The start of `main`, with all the threads created. -/
def start (sizes : LockFreeSizes) : LockFree :=
  ⟨0, 0, [], false, List.replicate sizes.producers (.next 0),
    List.replicate sizes.consumers .testing⟩

/-- A step of `producer`. -/
def produce (s : LockFree) (n : ℕ) (ok : Bool) : LockFree × List LockFreeEvent :=
  match s.producers[n]? with
  | some (.next i) =>
    let value := s.producerCount + 1
    ({ s with producerCount := value, producers := s.producers.set n (.pushing i value) },
      [.made value])
  | some (.pushing i value) =>
    if ok then
      ({ s with stack := value :: s.stack, producers := s.producers.set n (.next (i + 1)) },
        [.pushed value])
    else (s, [])
  | none => (s, [])

/-- A step of `consumer`. -/
def consume (s : LockFree) (n : ℕ) : LockFree × List LockFreeEvent :=
  match s.consumers[n]? with
  | some .testing =>
    if s.isAllThreadStarted then
      ({ s with consumers := s.consumers.set n (.popping true) }, [.late])
    else ({ s with consumers := s.consumers.set n (.popping false) }, [])
  | some (.popping late) =>
    match s.stack with
    | value :: stack =>
      ({ s with stack, consumers := s.consumers.set n (.counting late) }, [.popped value])
    | [] =>
      if late then ({ s with consumers := s.consumers.set n .finished }, [.left])
      else ({ s with consumers := s.consumers.set n .testing }, [])
  | some (.counting late) =>
    ({ s with
      consumerCount := s.consumerCount + 1
      consumers := s.consumers.set n (.popping late) }, [.counted])
  | some .finished => (s, [])
  | none => (s, [])

/-- `main` behind `producer_threads.join_all()`. -/
def raise (s : LockFree) : LockFree × List LockFreeEvent :=
  ({ s with isAllThreadStarted := true }, [.raised])

end LockFree

/-- The program as a machine. -/
def lockFreeMachine (sizes : LockFreeSizes) : Machine LockFree LockFreeInput LockFreeEvent where
  allowed s
    | .produce n _ => ∃ p ∈ s.producers[n]?, p ≠ .next sizes.iterations
    | .consume n => ∃ c ∈ s.consumers[n]?, c ≠ .finished
    | .raise => s.isAllThreadStarted = false ∧ ∀ p ∈ s.producers, p = .next sizes.iterations
  step s
    | .produce n ok => some (s.produce n ok)
    | .consume n => some (s.consume n)
    | .raise => some s.raise

instance (sizes : LockFreeSizes) (s : LockFree) :
    (i : LockFreeInput) → Decidable ((lockFreeMachine sizes).allowed s i)
  | .produce n _ => inferInstanceAs (Decidable (∃ p ∈ s.producers[n]?, p ≠ .next sizes.iterations))
  | .consume n => inferInstanceAs (Decidable (∃ c ∈ s.consumers[n]?, c ≠ .finished))
  | .raise => inferInstanceAs (Decidable (_ ∧ _))

/-! ### Where the numbers are -/

/-- The numbers pushed, in order. -/
def pushedValues : List LockFreeEvent → List ℕ :=
  List.filterMap fun
    | .pushed value => some value
    | _ => none

/-- The numbers popped, in order. -/
def poppedValues : List LockFreeEvent → List ℕ :=
  List.filterMap fun
    | .popped value => some value
    | _ => none

/-- How many numbers a producer has taken. -/
def ProducerAt.taken : ProducerAt → ℕ
  | next i => i
  | pushing i _ => i + 1

/-- The number a producer has taken and not pushed. -/
def ProducerAt.inFlight : ProducerAt → Multiset ℕ
  | next _ => 0
  | pushing _ value => {value}

/-- How many numbers a consumer has popped and not counted. -/
def ConsumerAt.uncounted : ConsumerAt → ℕ
  | counting _ => 1
  | _ => 0

/-- Whether a consumer has seen the flag. -/
def ConsumerAt.isLate : ConsumerAt → Bool
  | popping late => late
  | counting late => late
  | testing => false
  | finished => true

/-- How many steps that count a producer has to go, if a number that is pushed is worth two more. -/
def ProducerAt.toGo (iterations : ℕ) : ProducerAt → ℕ
  | next i => 4 * (iterations - i)
  | pushing i _ => 4 * (iterations - (i + 1)) + 3

/-- How many a consumer has to go. -/
def ConsumerAt.toGo : ConsumerAt → ℕ
  | testing => 2
  | popping late => if late then 1 else 2
  | counting late => if late then 2 else 3
  | finished => 0

/-- How many steps that count there are still to go. -/
def LockFree.toGo (iterations : ℕ) (s : LockFree) : ℕ :=
  total (ProducerAt.toGo iterations) s.producers + 2 * s.stack.length +
    (if s.isAllThreadStarted then 0 else 1) + total ConsumerAt.toGo s.consumers

/-- What holds after a run that has shown `outs`. -/
structure LockFree.Tally (sizes : LockFreeSizes) (s : LockFree) (outs : List LockFreeEvent) :
    Prop where
  producers : s.producers.length = sizes.producers
  consumers : s.consumers.length = sizes.consumers
  /-- The numbers taken so far have been pushed, or are about to be. -/
  values : (Multiset.range s.producerCount).map (· + 1) =
    (pushedValues outs : Multiset ℕ) + total ProducerAt.inFlight s.producers
  /-- Those pushed have been popped, or are on the stack. -/
  stack : (pushedValues outs : Multiset ℕ) = (poppedValues outs : Multiset ℕ) + s.stack
  taken : s.producerCount = total ProducerAt.taken s.producers
  counted : (poppedValues outs).length = s.consumerCount + total ConsumerAt.uncounted s.consumers
  le_iterations : ∀ p ∈ s.producers, p.taken ≤ sizes.iterations
  /-- When the flag is raised the producers are done. -/
  flag : s.isAllThreadStarted → ∀ p ∈ s.producers, p = .next sizes.iterations
  late : ∀ c ∈ s.consumers, c.isLate → s.isAllThreadStarted
  /-- And then the first consumer to finish has found the stack empty. -/
  finished : .finished ∈ s.consumers → s.stack = []
  work : outs.length + s.toGo sizes.iterations =
    4 * (sizes.producers * sizes.iterations) + 1 + 2 * sizes.consumers

namespace LockFree

variable {sizes : LockFreeSizes} {s : LockFree} {outs : List LockFreeEvent}

theorem tally_start (sizes : LockFreeSizes) : (start sizes).Tally sizes [] where
  producers := List.length_replicate
  consumers := List.length_replicate
  values := by simp [start, pushedValues, total_replicate, ProducerAt.inFlight]
  stack := rfl
  taken := by simp [start, total_replicate, ProducerAt.taken]
  counted := by simp [start, poppedValues, total_replicate, ConsumerAt.uncounted]
  le_iterations p hp := by
    rw [List.eq_of_mem_replicate hp]
    exact Nat.zero_le _
  flag := nofun
  late c hc := by
    rw [List.eq_of_mem_replicate hc]
    exact nofun
  finished h := by cases List.eq_of_mem_replicate h
  work := by
    simp [toGo, start, total_replicate, ProducerAt.toGo, ConsumerAt.toGo]
    ring

/-! ### One step -/

variable {n i value : ℕ}

/-- What a step of a producer does to what is to go. -/
theorem toGo_producers {p : ProducerAt} (h : s.producers[n]? = some p) (p' : ProducerAt)
    (iterations count : ℕ) (stack : List ℕ) :
    ({ s with
      producerCount := count
      stack
      producers := s.producers.set n p' } : LockFree).toGo iterations + p.toGo iterations +
        2 * s.stack.length =
      s.toGo iterations + p'.toGo iterations + 2 * stack.length := by
  have htotal := total_set (ProducerAt.toGo iterations) h p'
  simp only [toGo]
  omega

/-- And one of a consumer. -/
theorem toGo_consumers {c : ConsumerAt} (h : s.consumers[n]? = some c) (c' : ConsumerAt)
    (iterations count : ℕ) (stack : List ℕ) :
    ({ s with
      consumerCount := count
      stack
      consumers := s.consumers.set n c' } : LockFree).toGo iterations + c.toGo +
        2 * s.stack.length =
      s.toGo iterations + c'.toGo + 2 * stack.length := by
  have htotal := total_set ConsumerAt.toGo h c'
  simp only [toGo]
  omega

theorem pushedValues_append (outs outs' : List LockFreeEvent) :
    pushedValues (outs ++ outs') = pushedValues outs ++ pushedValues outs' :=
  List.filterMap_append

theorem poppedValues_append (outs outs' : List LockFreeEvent) :
    poppedValues (outs ++ outs') = poppedValues outs ++ poppedValues outs' :=
  List.filterMap_append

/-- A producer takes a number. -/
theorem Tally.make (h : s.Tally sizes outs) (hn : s.producers[n]? = some (.next i))
    (hi : i ≠ sizes.iterations) :
    ({ s with
      producerCount := s.producerCount + 1
      producers := s.producers.set n (.pushing i (s.producerCount + 1)) } : LockFree).Tally sizes
        (outs ++ [.made (s.producerCount + 1)]) := by
  have hmem := List.mem_of_getElem? hn
  have hlt : i < sizes.iterations := lt_of_le_of_ne (h.le_iterations _ hmem) hi
  have hpushed : pushedValues (outs ++ [.made (s.producerCount + 1)]) = pushedValues outs := by
    simp [pushedValues]
  have hpopped : poppedValues (outs ++ [.made (s.producerCount + 1)]) = poppedValues outs := by
    simp [poppedValues]
  exact
    { h with
      producers := List.length_set.trans h.producers
      values := by
        have hflight := total_set ProducerAt.inFlight hn (.pushing i (s.producerCount + 1))
        simp only [ProducerAt.inFlight, add_zero] at hflight
        rw [hpushed, hflight, Multiset.range_succ, Multiset.map_cons, h.values, ← add_assoc,
          ← Multiset.singleton_add, add_comm]
      stack := by rw [hpushed, hpopped]; exact h.stack
      taken := by
        have htaken := total_set ProducerAt.taken hn (.pushing i (s.producerCount + 1))
        have hcount := h.taken
        simp only [ProducerAt.taken] at htaken ⊢
        omega
      counted := by rw [hpopped]; exact h.counted
      le_iterations := by
        intro p hp
        rcases List.mem_or_eq_of_mem_set hp with hp | rfl
        · exact h.le_iterations p hp
        · exact hlt
      flag := by
        intro hflag
        exact absurd (ProducerAt.next.inj (h.flag hflag _ hmem)) hi
      work := by
        have hgo := toGo_producers hn (.pushing i (s.producerCount + 1)) sizes.iterations
          (s.producerCount + 1) s.stack
        have hwork := h.work
        simp only [ProducerAt.toGo] at hgo
        rw [List.length_append, List.length_singleton]
        omega }

/-- A producer pushes its number. -/
theorem Tally.push (h : s.Tally sizes outs) (hn : s.producers[n]? = some (.pushing i value)) :
    ({ s with
      stack := value :: s.stack
      producers := s.producers.set n (.next (i + 1)) } : LockFree).Tally sizes
        (outs ++ [.pushed value]) := by
  have hmem := List.mem_of_getElem? hn
  have hflag : ¬ s.isAllThreadStarted := by
    intro hflag
    cases h.flag hflag _ hmem
  have hpushed : pushedValues (outs ++ [.pushed value]) = pushedValues outs ++ [value] := by
    simp [pushedValues]
  have hpopped : poppedValues (outs ++ [.pushed value]) = poppedValues outs := by
    simp [poppedValues]
  exact
    { h with
      producers := List.length_set.trans h.producers
      values := by
        have hflight := total_set ProducerAt.inFlight hn (.next (i + 1))
        simp only [ProducerAt.inFlight, add_zero] at hflight
        rw [h.values, hpushed, ← hflight, ← Multiset.coe_add, Multiset.coe_singleton, add_assoc,
          add_comm ({value} : Multiset ℕ)]
      stack := by
        rw [hpushed, hpopped, ← Multiset.coe_add, h.stack, Multiset.coe_singleton, add_assoc,
          ← Multiset.cons_coe, ← Multiset.singleton_add, add_comm (s.stack : Multiset ℕ)]
      taken := by
        have htaken := total_set ProducerAt.taken hn (.next (i + 1))
        have hcount := h.taken
        simp only [ProducerAt.taken] at htaken ⊢
        omega
      counted := by rw [hpopped]; exact h.counted
      le_iterations := by
        intro p hp
        rcases List.mem_or_eq_of_mem_set hp with hp | rfl
        · exact h.le_iterations p hp
        · have hle : (ProducerAt.pushing i value).taken ≤ _ := h.le_iterations _ hmem
          exact hle
      flag := fun hflag' => absurd hflag' hflag
      finished := fun hfinished => absurd (h.late _ hfinished rfl) hflag
      work := by
        have hgo := toGo_producers hn (.next (i + 1)) sizes.iterations s.producerCount
          (value :: s.stack)
        have hwork := h.work
        simp only [ProducerAt.toGo, List.length_cons] at hgo
        rw [List.length_append, List.length_singleton]
        omega }

/-- The flag is raised. -/
theorem Tally.raise (h : s.Tally sizes outs)
    (hdone : ∀ p ∈ s.producers, p = .next sizes.iterations) (hflag : s.isAllThreadStarted = false) :
    ({ s with isAllThreadStarted := true } : LockFree).Tally sizes (outs ++ [.raised]) := by
  have hpushed : pushedValues (outs ++ [.raised]) = pushedValues outs := by simp [pushedValues]
  have hpopped : poppedValues (outs ++ [.raised]) = poppedValues outs := by simp [poppedValues]
  exact
    { h with
      values := by rw [hpushed]; exact h.values
      stack := by rw [hpushed, hpopped]; exact h.stack
      counted := by rw [hpopped]; exact h.counted
      flag := fun _ => hdone
      late := fun _ _ _ => rfl
      work := by
        have hwork := h.work
        simp only [toGo, hflag] at hwork ⊢
        simp at hwork ⊢
        omega }

/-- A consumer that goes on is not finished, and late only when the flag is raised. -/
theorem Tally.consume (h : s.Tally sizes outs) {c : ConsumerAt} (hn : s.consumers[n]? = some c)
    (c' : ConsumerAt) (hlate : c'.isLate → s.isAllThreadStarted)
    (hfinished : c' = .finished → s.stack = []) {o : List LockFreeEvent}
    (hpushed : pushedValues o = []) (hpopped : poppedValues o = []) {count : ℕ}
    (hcount : count + c'.uncounted = s.consumerCount + c.uncounted)
    (hgo : o.length + c'.toGo = c.toGo) :
    ({ s with consumerCount := count, consumers := s.consumers.set n c' } : LockFree).Tally sizes
      (outs ++ o) := by
  exact
    { h with
      consumers := List.length_set.trans h.consumers
      values := by rw [pushedValues_append, hpushed, List.append_nil]; exact h.values
      stack := by
        rw [pushedValues_append, hpushed, List.append_nil, poppedValues_append, hpopped,
          List.append_nil]
        exact h.stack
      counted := by
        have htotal := total_set ConsumerAt.uncounted hn c'
        have hcounted := h.counted
        rw [poppedValues_append, hpopped, List.append_nil]
        show (poppedValues outs).length =
          count + total ConsumerAt.uncounted (s.consumers.set n c')
        omega
      late := by
        intro d hd hdlate
        rcases List.mem_or_eq_of_mem_set hd with hd | rfl
        · exact h.late d hd hdlate
        · exact hlate hdlate
      finished := by
        intro hd
        rcases List.mem_or_eq_of_mem_set hd with hd | heq
        · exact h.finished hd
        · exact hfinished heq.symm
      work := by
        have hgo' := toGo_consumers hn c' sizes.iterations count s.stack
        have hwork := h.work
        rw [List.length_append]
        show outs.length + o.length + LockFree.toGo sizes.iterations
          { s with consumerCount := count, consumers := s.consumers.set n c' } = _
        omega }

/-- A consumer pops a number. -/
theorem Tally.pop (h : s.Tally sizes outs) {late : Bool} {stack : List ℕ}
    (hn : s.consumers[n]? = some (.popping late)) (hstack : s.stack = value :: stack) :
    ({ s with stack, consumers := s.consumers.set n (.counting late) } : LockFree).Tally sizes
      (outs ++ [.popped value]) := by
  have hmem := List.mem_of_getElem? hn
  have hpushed : pushedValues (outs ++ [.popped value]) = pushedValues outs := by
    simp [pushedValues]
  have hpopped : poppedValues (outs ++ [.popped value]) = poppedValues outs ++ [value] := by
    simp [poppedValues]
  exact
    { h with
      consumers := List.length_set.trans h.consumers
      values := by rw [hpushed]; exact h.values
      stack := by
        rw [hpushed, hpopped, h.stack, hstack, ← Multiset.coe_add, ← Multiset.cons_coe,
          ← Multiset.singleton_add, Multiset.coe_singleton, add_assoc]
      counted := by
        have htotal := total_set ConsumerAt.uncounted hn (.counting late)
        have hcounted := h.counted
        simp only [ConsumerAt.uncounted] at htotal
        rw [hpopped, List.length_append, List.length_singleton]
        show (poppedValues outs).length + 1 =
          s.consumerCount + total ConsumerAt.uncounted (s.consumers.set n (.counting late))
        omega
      late := by
        intro d hd hdlate
        rcases List.mem_or_eq_of_mem_set hd with hd | rfl
        · exact h.late d hd hdlate
        · exact h.late (.popping late) hmem hdlate
      finished := by
        intro hd
        rcases List.mem_or_eq_of_mem_set hd with hd | heq
        · rw [h.finished hd] at hstack
          cases hstack
        · cases heq
      work := by
        have hgo := toGo_consumers hn (.counting late) sizes.iterations s.consumerCount stack
        have hwork := h.work
        have hlen : s.stack.length = stack.length + 1 := by rw [hstack, List.length_cons]
        rw [List.length_append, List.length_singleton]
        show outs.length + 1 + LockFree.toGo sizes.iterations
          { s with stack, consumers := s.consumers.set n (.counting late) } = _
        simp only [ConsumerAt.toGo] at hgo
        cases late
        · simp only [Bool.false_eq_true, if_false] at hgo
          omega
        · simp only [if_true] at hgo
          omega }

/-- **One step.** -/
theorem Tally.step (h : s.Tally sizes outs) {i : LockFreeInput}
    (ha : (lockFreeMachine sizes).allowed s i) {t : LockFree} {o : List LockFreeEvent}
    (hs : (lockFreeMachine sizes).step s i = some (t, o)) : t.Tally sizes (outs ++ o) := by
  cases i with
  | produce n ok =>
    have hs : s.produce n ok = (t, o) := Option.some.inj hs
    obtain ⟨p, hp, hne⟩ := ha
    cases p with
    | next i =>
      simp only [LockFree.produce, Option.mem_def.mp hp] at hs
      obtain ⟨rfl, rfl⟩ := Prod.mk.inj hs
      exact h.make hp fun hi => hne (congrArg _ hi)
    | pushing i value =>
      simp only [LockFree.produce, Option.mem_def.mp hp] at hs
      cases ok with
      | true =>
        obtain ⟨rfl, rfl⟩ := Prod.mk.inj hs
        exact h.push hp
      | false =>
        obtain ⟨rfl, rfl⟩ := Prod.mk.inj hs
        rw [List.append_nil]
        exact h
  | consume n =>
    have hs : s.consume n = (t, o) := Option.some.inj hs
    obtain ⟨c, hc, hne⟩ := ha
    have hmem := List.mem_of_getElem? hc
    cases c with
    | finished => exact absurd rfl hne
    | testing =>
      simp only [LockFree.consume, Option.mem_def.mp hc] at hs
      split_ifs at hs with hflag
      · obtain ⟨rfl, rfl⟩ := Prod.mk.inj hs
        exact h.consume hc (.popping true) (fun _ => hflag) nofun rfl rfl rfl rfl
      · obtain ⟨rfl, rfl⟩ := Prod.mk.inj hs
        exact h.consume hc (.popping false) nofun nofun rfl rfl rfl rfl
    | counting late =>
      simp only [LockFree.consume, Option.mem_def.mp hc] at hs
      obtain ⟨rfl, rfl⟩ := Prod.mk.inj hs
      refine h.consume hc (.popping late) (h.late (.counting late) hmem) nofun rfl rfl rfl ?_
      cases late <;> rfl
    | popping late =>
      simp only [LockFree.consume, Option.mem_def.mp hc] at hs
      split at hs
      · next value stack hstack =>
        obtain ⟨rfl, rfl⟩ := Prod.mk.inj hs
        exact h.pop hc hstack
      · next hstack =>
        cases late with
        | true =>
          obtain ⟨rfl, rfl⟩ := Prod.mk.inj hs
          exact h.consume hc .finished (fun _ => h.late (.popping true) hmem rfl) (fun _ => hstack)
            rfl rfl rfl rfl
        | false =>
          obtain ⟨rfl, rfl⟩ := Prod.mk.inj hs
          exact h.consume hc .testing nofun nofun rfl rfl rfl rfl
  | raise =>
    obtain ⟨rfl, rfl⟩ := Prod.mk.inj (Option.some.inj hs)
    exact h.raise ha.2 ha.1

end LockFree

variable {sizes : LockFreeSizes} {ins : List LockFreeInput} {s : LockFree}
  {outs : List LockFreeEvent}

theorem lockFreeMachine_tally (h : (lockFreeMachine sizes).Run (.start sizes) ins s outs) :
    s.Tally sizes outs :=
  h.invariant (P := fun _ s outs => s.Tally sizes outs) (LockFree.tally_start sizes)
    fun _ hs ha hstep => hs.step ha hstep

/-! ### The end -/

namespace LockFree

/-- All consumers are done, and so is the program. -/
def Done (s : LockFree) : Prop := ∀ c ∈ s.consumers, c = .finished

theorem Tally.toGo_eq_zero_of (h : s.Tally sizes outs) (hsizes : 0 < sizes.consumers)
    (hdone : s.Done) : s.stack = [] ∧ (∀ p ∈ s.producers, p = .next sizes.iterations) ∧
      s.toGo sizes.iterations = 0 := by
  obtain ⟨c, hc⟩ := List.exists_mem_of_length_pos (h.consumers ▸ hsizes)
  obtain rfl := hdone c hc
  have hflag := h.late _ hc rfl
  have hproducers := h.flag hflag
  refine ⟨h.finished hc, hproducers, ?_⟩
  have hnoProducer : total (ProducerAt.toGo sizes.iterations) s.producers = 0 := by
    refine total_eq_zero_of_forall ?_
    intro p hp
    rw [hproducers p hp, ProducerAt.toGo, Nat.sub_self, Nat.mul_zero]
  have hnoConsumer : total ConsumerAt.toGo s.consumers = 0 := by
    refine total_eq_zero_of_forall ?_
    intro c hc
    rw [hdone c hc, ConsumerAt.toGo]
  rw [toGo, hnoProducer, hnoConsumer, h.finished hc, if_pos hflag]
  rfl

/-- The counters do not overflow. -/
theorem Tally.producerCount_le (h : s.Tally sizes outs) :
    s.producerCount ≤ sizes.producers * sizes.iterations := by
  rw [h.taken, ← h.producers, total, ← List.length_map ProducerAt.taken, ← smul_eq_mul]
  refine List.sum_le_card_nsmul _ _ ?_
  intro k hk
  obtain ⟨p, hp, rfl⟩ := List.mem_map.mp hk
  exact h.le_iterations p hp

end LockFree

/-- **Conservation.** In every run, with any number of threads whose steps come in any order, as long
as the rounds can be counted by an `int`: what has been pushed has been popped or is on the stack,
no number is pushed twice, and the counter stays below the number of rounds there are. And if there
is a consumer, then when the program ends the stack is empty, both counters are that number, and the
numbers popped are `1` up to it, each of them once. -/
theorem lock_free_conserves (h : (lockFreeMachine sizes).Run (.start sizes) ins s outs) :
    (pushedValues outs).Perm (poppedValues outs ++ s.stack) ∧ (pushedValues outs).Nodup ∧
    s.producerCount ≤ sizes.producers * sizes.iterations ∧
    (0 < sizes.consumers → s.Done → s.stack = [] ∧
      s.producerCount = sizes.producers * sizes.iterations ∧
      s.consumerCount = sizes.producers * sizes.iterations ∧
      (poppedValues outs).Perm (List.range' 1 (sizes.producers * sizes.iterations))) := by
  have ht := lockFreeMachine_tally h
  refine ⟨?_, ?_, ht.producerCount_le, ?_⟩
  · rw [← Multiset.coe_eq_coe, ← Multiset.coe_add]
    exact ht.stack
  · rw [← Multiset.coe_nodup]
    refine Multiset.nodup_of_le (Multiset.le_add_right _ (total ProducerAt.inFlight s.producers)) ?_
    rw [← ht.values]
    exact (Multiset.nodup_range _).map (add_left_injective 1)
  · intro hsizes hdone
    obtain ⟨hstack, hproducers, -⟩ := ht.toGo_eq_zero_of hsizes hdone
    have hcount : s.producerCount = sizes.producers * sizes.iterations := by
      rw [ht.taken, total_eq_of_forall hproducers, ht.producers, smul_eq_mul, ProducerAt.taken]
    have hflight : total ProducerAt.inFlight s.producers = 0 := by
      refine total_eq_zero_of_forall ?_
      intro p hp
      rw [hproducers p hp, ProducerAt.inFlight]
    have huncounted : total ConsumerAt.uncounted s.consumers = 0 := by
      refine total_eq_zero_of_forall ?_
      intro c hc
      rw [hdone c hc]
      rfl
    have hpopped : (poppedValues outs).Perm (List.range' 1 s.producerCount) := by
      rw [← Multiset.coe_eq_coe, List.range'_eq_map_range]
      have hvalues := ht.values
      rw [hflight, add_zero, ht.stack, hstack, Multiset.coe_nil, add_zero] at hvalues
      rw [← hvalues, ← Multiset.map_coe, Multiset.range]
      simp only [add_comm]
    refine ⟨hstack, hcount, ?_, hcount ▸ hpopped⟩
    have hlength := hpopped.length_eq
    rw [List.length_range'] at hlength
    have hcounted := ht.counted
    omega

namespace LockFree

/-- What holds along a run from a state that was reached. -/
theorem Tally.run (h : s.Tally sizes outs) {t : LockFree} {ins' : List LockFreeInput}
    {outs' : List LockFreeEvent} (hrun : (lockFreeMachine sizes).Run s ins' t outs') :
    t.Tally sizes (outs ++ outs') := by
  refine hrun.invariant (P := fun _ t outs' => t.Tally sizes (outs ++ outs')) ?_ ?_
  · rw [List.append_nil]
    exact h
  · intro ins' t outs' i u o _ ht ha hs
    rw [← List.append_assoc]
    exact ht.step ha hs

/-- **Progress.** As long as the program has not ended, something that counts can be done: by a
producer, or by the main thread, or by a consumer after one more look at the flag. -/
theorem progress (sizes : LockFreeSizes) (hdone : ¬ s.Done) :
    ∃ ins' t o, (lockFreeMachine sizes).Run s ins' t o ∧ o ≠ [] := by
  by_cases hproducers : ∀ p ∈ s.producers, p = .next sizes.iterations
  · cases hflag : s.isAllThreadStarted with
    | false =>
      have hallowed : (lockFreeMachine sizes).allowed s .raise := ⟨hflag, hproducers⟩
      exact ⟨_, _, _, Machine.Run.single hallowed rfl, List.cons_ne_nil _ _⟩
    | true =>
      simp only [Done, not_forall] at hdone
      obtain ⟨c, hc, hne⟩ := hdone
      obtain ⟨n, hn⟩ := List.getElem?_of_mem hc
      have hallowed : (lockFreeMachine sizes).allowed s (.consume n) := ⟨c, hn, hne⟩
      by_cases hspin : c = .popping false ∧ s.stack = []
      · -- it looks at the flag again, and then it is late
        obtain ⟨rfl, hstack⟩ := hspin
        obtain ⟨t, ht⟩ : ∃ t : LockFree, t = { s with consumers := s.consumers.set n .testing } :=
          ⟨_, rfl⟩
        have hstep : s.consume n = (t, []) := by
          simp only [LockFree.consume, hn, ht]
          split
          · next heq =>
            rw [hstack] at heq
            cases heq
          · rfl
        have htesting : t.consumers[n]? = some .testing := by
          rw [ht]
          exact List.getElem?_set_self (List.getElem?_eq_some_iff.mp hn).1
        have hflag' : t.isAllThreadStarted = true := by rw [ht]; exact hflag
        have hallowed' : (lockFreeMachine sizes).allowed t (.consume n) := ⟨_, htesting, nofun⟩
        have hstep' : t.consume n = ({ t with consumers := t.consumers.set n (.popping true) },
            [.late]) := by
          simp only [LockFree.consume, htesting, hflag', if_true]
        exact ⟨_, _, _, (Machine.Run.single hallowed (congrArg some hstep)).append
          (Machine.Run.single hallowed' (congrArg some hstep')), List.cons_ne_nil _ _⟩
      · refine ⟨_, _, _, Machine.Run.single hallowed rfl, ?_⟩
        cases c with
        | finished => exact absurd rfl hne
        | testing => simp [hn, hflag]
        | counting late => simp [hn]
        | popping late =>
          cases hstack : s.stack with
          | cons value stack => simp [hn]
          | nil =>
            cases late with
            | false => exact absurd ⟨rfl, hstack⟩ hspin
            | true => simp [hn]
  · simp only [not_forall] at hproducers
    obtain ⟨p, hp, hne⟩ := hproducers
    obtain ⟨n, hn⟩ := List.getElem?_of_mem hp
    have hallowed : (lockFreeMachine sizes).allowed s (.produce n true) := ⟨p, hn, hne⟩
    refine ⟨_, _, _, Machine.Run.single hallowed rfl, ?_⟩
    cases p <;> simp [hn]

/-- From wherever it is the program can come to its end. -/
theorem Tally.exists_end (h : s.Tally sizes outs) :
    ∃ ins' t outs', (lockFreeMachine sizes).Run s ins' t outs' ∧ t.Done := by
  induction hgo : s.toGo sizes.iterations using Nat.strong_induction_on generalizing s outs with
  | _ k ih =>
    by_cases hdone : s.Done
    · exact ⟨[], s, [], .nil, hdone⟩
    · obtain ⟨ins₁, t, o, hrun, ho⟩ := progress sizes hdone
      have ht := h.run hrun
      have hless : t.toGo sizes.iterations < k := by
        have hpos := List.length_pos_iff.mpr ho
        have hwork := h.work
        have hwork' := ht.work
        rw [List.length_append] at hwork'
        omega
      obtain ⟨ins₂, u, o', hrun', hu⟩ := ih _ hless ht rfl
      exact ⟨_, u, _, hrun.append hrun', hu⟩

end LockFree

/-- **The end.** A run can go on to the end of the program from wherever it is, and it has then done
four things for every number, two for every consumer, and raised the flag: so much work there is in
every run, whatever the order, and no more can be done. What does not count is a `push` that fails, a
look at the flag before it is raised, and a `pop` that finds the stack empty and sends the consumer
back to the flag. -/
theorem lock_free_finishes (hsizes : 0 < sizes.consumers)
    (h : (lockFreeMachine sizes).Run (.start sizes) ins s outs) :
    (∃ ins' t outs', (lockFreeMachine sizes).Run (.start sizes) (ins ++ ins') t outs' ∧ t.Done) ∧
      outs.length ≤ 4 * (sizes.producers * sizes.iterations) + 1 + 2 * sizes.consumers ∧
      (s.Done →
        outs.length = 4 * (sizes.producers * sizes.iterations) + 1 + 2 * sizes.consumers) := by
  have ht := lockFreeMachine_tally h
  have hwork := ht.work
  refine ⟨?_, by omega, ?_⟩
  · obtain ⟨ins', t, outs', hrun, hdone⟩ := ht.exists_end
    exact ⟨ins', t, _, h.append hrun, hdone⟩
  · intro hdone
    have hgo := (ht.toGo_eq_zero_of hsizes hdone).2.2
    omega

/-- Two producers of one number each, and one consumer that looks twice. -/
def LockFreeInput.sample : List LockFreeInput :=
  [.produce 0 true, .produce 1 true, .produce 1 false, .produce 1 true, .consume 0, .produce 0 true,
    .consume 0, .consume 0, .raise, .consume 0, .consume 0, .consume 0, .consume 0, .consume 0]

theorem lock_free_conserves_sample :
    let sizes : LockFreeSizes := ⟨1, 2, 1, by decide⟩
    ∃ s outs, (lockFreeMachine sizes).Run (.start sizes) LockFreeInput.sample s outs ∧
      (poppedValues outs).Perm [1, 2] := by
  intro sizes
  have hrun : (lockFreeMachine sizes).Run (.start sizes) LockFreeInput.sample _ _ :=
    Machine.run_of_exec rfl
  obtain ⟨-, -, -, hend⟩ := lock_free_conserves hrun
  exact ⟨_, _, hrun, (hend (by decide) fun c hc ↦ List.mem_singleton.mp hc).2.2.2⟩

theorem lock_free_finishes_sample :
    let sizes : LockFreeSizes := ⟨1, 2, 1, by decide⟩
    ∃ s outs, (lockFreeMachine sizes).Run (.start sizes) LockFreeInput.sample s outs ∧
      outs.length = 11 := by
  intro sizes
  have hrun : (lockFreeMachine sizes).Run (.start sizes) LockFreeInput.sample _ _ :=
    Machine.run_of_exec rfl
  exact ⟨_, _, hrun, (lock_free_finishes (by decide) hrun).2.2 fun c hc ↦ List.mem_singleton.mp hc⟩

end Exec02
