import Exec02.Lib.Machine
import Mathlib.Algebra.Order.Ring.Int
import Mathlib.Data.Finset.Card

/-!
# Starting and stopping threads

`MThread02.c`: the keyboard loop `readInput` starts a bouncing thread on `a` and asks for one to
stop on `d`. The request is a number in `threadDeleteNr`, the thread it is meant for is the one
whose id it is, and a thread's id is what it finds through the pointer it was started with. That
pointer is `&threadNr` for all of them, so the id of every thread is the current number of threads,
and a request made for one number is not recognised once the number has changed.

## Reading the model

A round of the keyboard loop, a poll of a thread, and the `threadNr--` on its way out are one step
each. Between its poll and that step a thread that stops is in `stopping`. The poll comes after a
wait for `hRunMutex`; both outcomes of the wait lead to the same test. Threads are told apart by
numbers of ours, and a thread that is started does start.

## Main results

* `Counted` — `threadNr` counts the threads that have not counted themselves down
* `stop_served_iff` — which runs leave every request with a thread that will serve it
-/

namespace Exec02

/-- `MAX_THREADS`. -/
def maxThreads : ℤ := 32

/-- The shared variables, and the threads: those that still poll, and those that have left their
loop but not yet counted themselves down. -/
structure ThreadPool where
  threadNr : ℤ
  threadDeleteNr : ℤ
  running : Finset ℕ
  stopping : Finset ℕ

/-- What an observer sees: a thread started, a request to stop one, a thread that accepts it, and a
thread gone. -/
inductive ThreadEvent
  | started (thread : ℕ)
  | requested
  | accepted (thread : ℕ)
  | gone (thread : ℕ)
  deriving DecidableEq

/-- What can happen: a key is pressed, with the thread that is started should it start one; a thread
polls, after a wait that may have timed out; and a thread counts itself down. -/
inductive ThreadInput
  | key (keyInfo : ℕ) (thread : ℕ)
  | poll (thread : ℕ) (timedOut : Bool)
  | exit (thread : ℕ)

/-- `tolower`. -/
def tolower (c : ℕ) : ℕ := if 65 ≤ c ∧ c ≤ 90 then c + 32 else c

/-- An `int` read through a `char` pointer: its low byte, with a sign. -/
def lowChar (n : ℤ) : ℤ := n.bmod 256

namespace ThreadPool

/-- The start of `main`. -/
def empty : ThreadPool := ⟨0, 0, ∅, ∅⟩

/-- What a thread finds at `myId`. It is `&threadNr` for every thread. -/
def myId (s : ThreadPool) : ℤ := lowChar s.threadNr

/-- The condition under which `readInput` starts a thread. -/
def Starts (s : ThreadPool) (keyInfo : ℕ) : Prop := tolower keyInfo = 97 ∧ s.threadNr < maxThreads

/-- The condition under which `readInput` asks for a thread to stop. -/
def Requests (s : ThreadPool) (keyInfo : ℕ) : Prop :=
  tolower keyInfo = 100 ∧ s.threadDeleteNr = 0 ∧ 0 < s.threadNr

/-- The test in a thread's poll. -/
def Stops (s : ThreadPool) : Prop := 0 < s.threadDeleteNr ∧ s.threadDeleteNr = s.myId

instance (s : ThreadPool) (keyInfo : ℕ) : Decidable (s.Starts keyInfo) :=
  inferInstanceAs (Decidable (_ ∧ _))

instance (s : ThreadPool) (keyInfo : ℕ) : Decidable (s.Requests keyInfo) :=
  inferInstanceAs (Decidable (_ ∧ _ ∧ _))

instance (s : ThreadPool) : Decidable s.Stops := inferInstanceAs (Decidable (_ ∧ _))

/-- A round of `readInput`, for a key other than `q`. -/
def readInput (s : ThreadPool) (keyInfo thread : ℕ) : ThreadPool × List ThreadEvent :=
  let (s, o) :=
    if s.Starts keyInfo then
      ({ s with threadNr := s.threadNr + 1, running := insert thread s.running },
        [ThreadEvent.started thread])
    else (s, [])
  if s.Requests keyInfo then ({ s with threadDeleteNr := s.threadNr }, o ++ [.requested])
  else (s, o)

/-- The end of a round of `bounceProc`: the same test after either outcome of the wait. -/
def poll (s : ThreadPool) (thread : ℕ) (timedOut : Bool) : ThreadPool × List ThreadEvent :=
  if timedOut then
    if s.Stops then
      ({ s with
        threadDeleteNr := 0
        running := s.running.erase thread
        stopping := insert thread s.stopping }, [.accepted thread])
    else (s, [])
  else
    if s.Stops then
      ({ s with
        threadDeleteNr := 0
        running := s.running.erase thread
        stopping := insert thread s.stopping }, [.accepted thread])
    else (s, [])

/-- `threadNr--` behind the loop of `bounceProc`. -/
def exit (s : ThreadPool) (thread : ℕ) : ThreadPool × List ThreadEvent :=
  ({ s with threadNr := s.threadNr - 1, stopping := s.stopping.erase thread }, [.gone thread])

end ThreadPool

/-- The keyboard loop and its threads as a machine, up to the key `q`. -/
def threadMachine : Machine ThreadPool ThreadInput ThreadEvent where
  allowed s
    | .key keyInfo thread => tolower keyInfo ≠ 113 ∧ thread ∉ s.running ∪ s.stopping
    | .poll thread _ => thread ∈ s.running
    | .exit thread => thread ∈ s.stopping
  step s
    | .key keyInfo thread => some (s.readInput keyInfo thread)
    | .poll thread timedOut => some (s.poll thread timedOut)
    | .exit thread => some (s.exit thread)

instance (s : ThreadPool) : (i : ThreadInput) → Decidable (threadMachine.allowed s i)
  | .key _ _ => inferInstanceAs (Decidable (_ ∧ _))
  | .poll _ _ => inferInstanceAs (Decidable (_ ∈ _))
  | .exit _ => inferInstanceAs (Decidable (_ ∈ _))

/-- Every request is one that some thread will serve: if one is pending and no thread is on its way
out, there is a thread whose poll accepts it. -/
def ThreadPool.Served (s : ThreadPool) : Prop :=
  0 < s.threadDeleteNr → s.stopping = ∅ → s.running.Nonempty ∧ s.Stops

/-- A step that does not come in the way of a pending request. A thread is started only when none is
pending, or while some thread is on its way out; and the last one on its way out leaves behind the
number of threads that a pending request is for. -/
def InTime (s : ThreadPool) : ThreadInput → Prop
  | .key keyInfo _ => s.Starts keyInfo → s.threadDeleteNr = 0 ∨ s.stopping ≠ ∅
  | .poll _ _ => True
  | .exit thread => 0 < s.threadDeleteNr → s.stopping = {thread} → s.threadDeleteNr = s.threadNr - 1

instance (s : ThreadPool) : (i : ThreadInput) → Decidable (InTime s i)
  | .key _ _ => inferInstanceAs (Decidable (_ → _ ∨ _))
  | .poll _ _ => inferInstanceAs (Decidable True)
  | .exit _ => inferInstanceAs (Decidable (_ → _ → _))

variable {s t : ThreadPool} {i : ThreadInput} {o : List ThreadEvent}

/-! ### One step -/

/-- What a step does, with everything it changes. -/
theorem threadMachine_cases (hs : threadMachine.step s i = some (t, o)) :
    (∃ keyInfo thread, i = .key keyInfo thread ∧ s.Starts keyInfo ∧ o = [.started thread] ∧
      t = { s with threadNr := s.threadNr + 1, running := insert thread s.running }) ∨
    (∃ keyInfo thread, i = .key keyInfo thread ∧ s.Requests keyInfo ∧ o = [.requested] ∧
      t = { s with threadDeleteNr := s.threadNr }) ∨
    (∃ thread timedOut, i = .poll thread timedOut ∧ s.Stops ∧ o = [.accepted thread] ∧
      t = { s with
        threadDeleteNr := 0
        running := s.running.erase thread
        stopping := insert thread s.stopping }) ∨
    (∃ thread, i = .exit thread ∧ o = [.gone thread] ∧
      t = { s with threadNr := s.threadNr - 1, stopping := s.stopping.erase thread }) ∨
    ((∀ keyInfo thread, i = .key keyInfo thread → ¬ s.Starts keyInfo) ∧
      (∀ thread, i ≠ .exit thread) ∧ o = [] ∧ t = s) := by
  cases i with
  | key keyInfo thread =>
    have hkey : s.readInput keyInfo thread = (t, o) := Option.some.inj hs
    by_cases ha : s.Starts keyInfo
    · -- the two keys differ
      have hd (s' : ThreadPool) : ¬ s'.Requests keyInfo := fun h => by
        have := ha.1.symm.trans h.1
        omega
      rw [ThreadPool.readInput, if_pos ha] at hkey
      simp only [if_neg (hd _)] at hkey
      obtain ⟨rfl, rfl⟩ := Prod.mk.inj hkey
      exact Or.inl ⟨keyInfo, thread, rfl, ha, rfl, rfl⟩
    · rw [ThreadPool.readInput, if_neg ha] at hkey
      by_cases hd : s.Requests keyInfo
      · simp only [if_pos hd] at hkey
        obtain ⟨rfl, rfl⟩ := Prod.mk.inj hkey
        exact Or.inr (Or.inl ⟨keyInfo, thread, rfl, hd, rfl, rfl⟩)
      · simp only [if_neg hd] at hkey
        obtain ⟨rfl, rfl⟩ := Prod.mk.inj hkey
        refine Or.inr (Or.inr (Or.inr (Or.inr ⟨?_, nofun, rfl, rfl⟩)))
        rintro _ _ ⟨⟩
        exact ha
  | poll thread timedOut =>
    have hpoll : s.poll thread timedOut = (t, o) := Option.some.inj hs
    rw [ThreadPool.poll, ite_self] at hpoll
    by_cases hstop : s.Stops
    · rw [if_pos hstop] at hpoll
      obtain ⟨rfl, rfl⟩ := Prod.mk.inj hpoll
      exact Or.inr (Or.inr (Or.inl ⟨thread, timedOut, rfl, hstop, rfl, rfl⟩))
    · rw [if_neg hstop] at hpoll
      obtain ⟨rfl, rfl⟩ := Prod.mk.inj hpoll
      exact Or.inr (Or.inr (Or.inr (Or.inr ⟨nofun, nofun, rfl, rfl⟩)))
  | exit thread =>
    obtain ⟨rfl, rfl⟩ := Prod.mk.inj (Option.some.inj hs)
    exact Or.inr (Or.inr (Or.inr (Or.inl ⟨thread, rfl, rfl, rfl⟩)))

/-! ### Counting -/

/-- `threadNr` counts the threads that have not counted themselves down, and stays in its bounds. -/
structure Counted (s : ThreadPool) : Prop where
  count : s.threadNr = s.running.card + s.stopping.card
  disjoint : Disjoint s.running s.stopping
  threadNr_le : s.threadNr ≤ maxThreads
  threadDeleteNr_nonneg : 0 ≤ s.threadDeleteNr

namespace Counted

theorem empty : Counted .empty := ⟨rfl, Finset.disjoint_empty_left _, by decide, le_rfl⟩

theorem threadNr_nonneg (h : Counted s) : 0 ≤ s.threadNr := by
  rw [h.count]
  omega

/-- So small a number is its own low byte. -/
theorem myId_eq (h : Counted s) : s.myId = s.threadNr := by
  have hle : s.threadNr ≤ 32 := h.threadNr_le
  have hnonneg := h.threadNr_nonneg
  exact Int.bmod_eq_of_le (by omega) (by omega)

/-- A pending request is served exactly when it is for the number of threads there are. -/
theorem served_iff (h : Counted s) : s.Served ↔
    (0 < s.threadDeleteNr → s.stopping = ∅ → s.threadDeleteNr = s.threadNr) := by
  refine forall_congr' fun hpending => forall_congr' ?_
  intro hstopping
  rw [ThreadPool.Stops, h.myId_eq]
  constructor
  · exact fun hserved => hserved.2.2
  · intro heq
    refine ⟨?_, hpending, heq⟩
    have hcount := h.count
    rw [hstopping, Finset.card_empty] at hcount
    exact Finset.card_pos.mp (by omega)

theorem step (h : Counted s) (ha : threadMachine.allowed s i)
    (hs : threadMachine.step s i = some (t, o)) : Counted t := by
  have hcount := h.count
  have hnonneg := h.threadNr_nonneg
  obtain ⟨keyInfo, thread, rfl, hstart, -, rfl⟩ | ⟨keyInfo, thread, rfl, hrequest, -, rfl⟩ |
    ⟨thread, timedOut, rfl, -, -, rfl⟩ | ⟨thread, rfl, -, rfl⟩ | ⟨-, -, -, rfl⟩ :=
    threadMachine_cases hs
  · obtain ⟨hrunning, hstopping⟩ := not_or.mp (Finset.mem_union.not.mp ha.2)
    refine ⟨?_, ?_, ?_, h.threadDeleteNr_nonneg⟩
    · simp only [Finset.card_insert_of_notMem hrunning]
      omega
    · exact Finset.disjoint_insert_left.mpr ⟨hstopping, h.disjoint⟩
    · have hlt := hstart.2
      simp only
      omega
  · exact ⟨h.count, h.disjoint, h.threadNr_le, hnonneg⟩
  · have hmem : thread ∈ s.running := ha
    have hstopping := Finset.disjoint_left.mp h.disjoint hmem
    have hpos := Finset.card_pos.mpr ⟨thread, hmem⟩
    refine ⟨?_, ?_, h.threadNr_le, le_rfl⟩
    · simp only [Finset.card_erase_of_mem hmem, Finset.card_insert_of_notMem hstopping]
      omega
    · refine Finset.disjoint_insert_right.mpr ⟨Finset.notMem_erase thread s.running, ?_⟩
      exact h.disjoint.mono_left (Finset.erase_subset _ _)
  · have hmem : thread ∈ s.stopping := ha
    have hpos := Finset.card_pos.mpr ⟨thread, hmem⟩
    have hle := h.threadNr_le
    refine ⟨?_, h.disjoint.mono_right (Finset.erase_subset _ _), ?_, h.threadDeleteNr_nonneg⟩
    · simp only [Finset.card_erase_of_mem hmem]
      omega
    · simp only
      omega
  · exact h

/-- **One step.** Where requests are served, a step keeps them served exactly when it is in time. -/
theorem served_step (h : Counted s) (hserved : s.Served) (ha : threadMachine.allowed s i)
    (hs : threadMachine.step s i = some (t, o)) : t.Served ↔ InTime s i := by
  rw [(h.step ha hs).served_iff]
  have hserved := h.served_iff.mp hserved
  obtain ⟨keyInfo, thread, rfl, hstart, -, rfl⟩ | ⟨keyInfo, thread, rfl, hrequest, -, rfl⟩ |
    ⟨thread, timedOut, rfl, -, -, rfl⟩ | ⟨thread, rfl, -, rfl⟩ | ⟨hquiet, hstay, -, rfl⟩ :=
    threadMachine_cases hs
  · have hnonneg := h.threadDeleteNr_nonneg
    constructor
    · intro hnext _
      by_contra hpending
      obtain ⟨hne, hempty⟩ := not_or.mp hpending
      have hempty := not_not.mp hempty
      have hbefore := hserved (by omega) hempty
      have hafter : s.threadDeleteNr = s.threadNr + 1 := hnext (by simp only; omega) hempty
      omega
    · intro hintime hpending hempty
      have hpending : 0 < s.threadDeleteNr := hpending
      rcases hintime hstart with hzero | hne
      · omega
      · exact absurd hempty hne
  · refine iff_of_true (fun _ _ => rfl) ?_
    intro hstart
    have := hstart.1.symm.trans hrequest.1
    omega
  · exact iff_of_true (fun hpending => absurd hpending (lt_irrefl 0)) trivial
  · have hmem : thread ∈ s.stopping := ha
    have hlast : s.stopping.erase thread = ∅ ↔ s.stopping = {thread} := by
      rw [Finset.erase_eq_empty_iff]
      exact or_iff_right (Finset.ne_empty_of_mem hmem)
    exact forall_congr' fun _ => imp_congr_left hlast
  · refine iff_of_true hserved ?_
    cases i with
    | key keyInfo thread => exact fun hstart => absurd hstart (hquiet keyInfo thread rfl)
    | poll thread timedOut => trivial
    | exit thread => exact absurd rfl (hstay thread)

end Counted

variable {ins : List ThreadInput} {outs : List ThreadEvent}

theorem threadMachine_counted (h : threadMachine.Run .empty ins s outs) : Counted s :=
  h.invariant (P := fun _ s _ => Counted s) .empty fun _ hcounted ha hs => hcounted.step ha hs

/-! ### Requests -/

/-- The threads that have accepted a request. -/
def acceptances : List ThreadEvent → List ℕ :=
  List.filterMap fun
    | .accepted thread => some thread
    | _ => none

theorem acceptances_append (outs outs' : List ThreadEvent) :
    acceptances (outs ++ outs') = acceptances outs ++ acceptances outs' := List.filterMap_append

/-- Each request has been accepted by one thread, or is the one that is pending. -/
theorem count_requested (h : threadMachine.Run .empty ins s outs) :
    outs.count .requested =
      (acceptances outs).length + if s.threadDeleteNr = 0 then 0 else 1 := by
  refine h.invariant (P := fun _ s outs => outs.count .requested =
    (acceptances outs).length + if s.threadDeleteNr = 0 then 0 else 1) rfl ?_
  intro ins s outs i t o hrun ih ha hs
  have hcounted := threadMachine_counted hrun
  rw [List.count_append, ih, acceptances_append, List.length_append]
  obtain ⟨keyInfo, thread, rfl, -, rfl, rfl⟩ | ⟨keyInfo, thread, rfl, hrequest, rfl, rfl⟩ |
    ⟨thread, timedOut, rfl, hstop, rfl, rfl⟩ | ⟨thread, rfl, rfl, rfl⟩ | ⟨-, -, rfl, rfl⟩ :=
    threadMachine_cases hs
  · rfl
  · have hpos : s.threadNr ≠ 0 := ne_of_gt hrequest.2.2
    simp only [if_pos hrequest.2.1, if_neg hpos]
    rfl
  · have hpending : s.threadDeleteNr ≠ 0 := ne_of_gt hstop.1
    simp only [if_neg hpending, if_true]
    rfl
  · rfl
  · rfl

/-- **Stopping threads.** In every state of a run each pending request is left with a thread that
will serve it, exactly when every step of the run is in time. And in every run, each request is
accepted by one thread or still pending. -/
theorem stop_served_iff (h : threadMachine.Run .empty ins s outs) :
    ((threadMachine.restrict fun s _ => s.Served).Run .empty ins s outs ∧ s.Served ↔
      (threadMachine.restrict InTime).Run .empty ins s outs) ∧
    outs.count .requested =
      (acceptances outs).length + if s.threadDeleteNr = 0 then 0 else 1 := by
  refine ⟨?_, count_requested h⟩
  have hstart : ThreadPool.empty.Served := fun hpending => absurd hpending (lt_irrefl 0)
  refine h.invariant (P := fun ins s outs =>
    (threadMachine.restrict fun s _ => s.Served).Run .empty ins s outs ∧ s.Served ↔
      (threadMachine.restrict InTime).Run .empty ins s outs) (iff_of_true ⟨.nil, hstart⟩ .nil) ?_
  intro ins s outs i t o hrun ih ha hs
  have hstep (hserved : s.Served) := (threadMachine_counted hrun).served_step hserved ha hs
  rw [hrun.restrict_snoc_iff ha hs, hrun.restrict_snoc_iff ha hs, ← ih]
  constructor
  · rintro ⟨hbefore, hafter⟩
    exact ⟨hbefore, (hstep hbefore.2).mp hafter⟩
  · rintro ⟨hbefore, hintime⟩
    exact ⟨hbefore, (hstep hbefore.2).mpr hintime⟩

/-- A thread is started and stopped again. -/
theorem stop_served_iff_sample : ∃ s outs,
    ((threadMachine.restrict fun s _ => s.Served).Run .empty
      [.key 97 0, .key 68 1, .poll 0 true, .exit 0] s outs ∧ s.Served) ∧
    outs = [.started 0, .requested, .accepted 0, .gone 0] := by
  have hintime : (threadMachine.restrict InTime).Run .empty
      [.key 97 0, .key 68 1, .poll 0 true, .exit 0] _ _ := Machine.run_of_exec rfl
  exact ⟨_, _, (stop_served_iff hintime.of_restrict).1.mpr hintime, rfl⟩

/-- Where one request is pending, for the first thread, and there are more threads than one, nothing
is ever accepted or requested again. -/
theorem stuck_of_overtaken (hpending : s.threadDeleteNr = 1) (hmore : 2 ≤ s.threadNr)
    (hcounted : Counted s) (hstopping : s.stopping = ∅) (h : threadMachine.Run s ins t outs) :
    .requested ∉ outs ∧ acceptances outs = [] := by
  suffices hall : Counted t ∧ t.threadDeleteNr = 1 ∧ 2 ≤ t.threadNr ∧ t.stopping = ∅ ∧
      .requested ∉ outs ∧ acceptances outs = [] from hall.2.2.2.2
  refine h.invariant (P := fun _ t outs => Counted t ∧ t.threadDeleteNr = 1 ∧ 2 ≤ t.threadNr ∧
    t.stopping = ∅ ∧ .requested ∉ outs ∧ acceptances outs = [])
    ⟨hcounted, hpending, hmore, hstopping, List.not_mem_nil, rfl⟩ ?_
  rintro ins s outs i t o - ⟨hcounted, hpending, hmore, hstopping, hquiet, hnone⟩ ha hs
  have hcounted' := hcounted.step ha hs
  obtain ⟨keyInfo, thread, rfl, -, rfl, rfl⟩ | ⟨keyInfo, thread, rfl, hrequest, -, -⟩ |
    ⟨thread, timedOut, rfl, hstop, -, -⟩ | ⟨thread, rfl, -, -⟩ | ⟨-, -, rfl, rfl⟩ :=
    threadMachine_cases hs
  · refine ⟨hcounted', hpending, ?_, hstopping, ?_, ?_⟩
    · simp only
      omega
    · simpa using hquiet
    · rw [acceptances_append, hnone]
      rfl
  · have hnone : s.threadDeleteNr = 0 := hrequest.2.1
    omega
  · have hfor := hstop.2
    rw [hcounted.myId_eq] at hfor
    omega
  · have hmem : thread ∈ s.stopping := ha
    rw [hstopping] at hmem
    exact absurd hmem (Finset.notMem_empty thread)
  · rw [List.append_nil]
    exact ⟨hcounted', hpending, hmore, hstopping, hquiet, hnone⟩

/-- A thread is started, asked to stop, and a second one started before it polls. Nobody accepts the
request, then or ever, and no other one is made. -/
theorem not_stop_served : ∃ s outs,
    threadMachine.Run .empty [.key 97 0, .key 100 1, .key 97 1] s outs ∧ ¬ s.Served ∧
      ∀ ins t outs', threadMachine.Run s ins t outs' →
        .requested ∉ outs' ∧ acceptances outs' = [] := by
  have hrun : threadMachine.Run .empty [.key 97 0, .key 100 1, .key 97 1] _ _ :=
    Machine.run_of_exec rfl
  have hcounted := threadMachine_counted hrun
  refine ⟨_, _, hrun, ?_, ?_⟩
  · rw [hcounted.served_iff]
    exact fun hserved => absurd (hserved (by decide) rfl) (by decide)
  · intro ins t outs' h
    exact stuck_of_overtaken rfl (by decide) hcounted rfl h

end Exec02
