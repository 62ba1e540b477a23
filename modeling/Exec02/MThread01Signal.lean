import Exec02.MThread01Screen

/-!
# The signal to stop

`MThread01.c` and `Main01.c`: what the threads are told by `hRunMutex`, which the main thread releases
as often as it has counted threads, or once for one of them. Whether a thread goes on depends on the
keys that have been typed, on a thread that is just on its way out, and on the handle.

## Main results

* `bouncerMachine_signalled` — exactly when `hRunMutex` has been given away
* `poll_times_out_iff` — exactly when a thread goes on
-/

namespace Exec02

variable {prog : BounceProgram} {ins : List BounceInput} {s : Bouncer} {outs : List BounceEvent}

/-! ### When it is given -/

/-- The keys on which a program releases `hRunMutex`. -/
def BounceProgram.Signals : BounceProgram → ℕ → Prop
  | .mThread01, keyInfo => tolower keyInfo = 113
  | .main01, keyInfo => tolower keyInfo = 100 ∨ tolower keyInfo = 113

/-- The key that starts a thread has been typed. -/
def StartTyped (ins : List BounceInput) : Prop :=
  ∃ keyInfo, .key keyInfo ∈ ins ∧ tolower keyInfo = 97

/-- One that releases `hRunMutex` has been typed after it. -/
def Signalled (prog : BounceProgram) (ins : List BounceInput) : Prop :=
  ∃ before keyInfo after, ins = before ++ .key keyInfo :: after ∧ prog.Signals keyInfo ∧
    StartTyped before

theorem startTyped_snoc {i : BounceInput} :
    StartTyped (ins ++ [i]) ↔
      StartTyped ins ∨ ∃ keyInfo, i = .key keyInfo ∧ tolower keyInfo = 97 := by
  simp only [StartTyped, List.mem_append, List.mem_singleton, or_and_right, exists_or, eq_comm]

theorem signalled_snoc {i : BounceInput} :
    Signalled prog (ins ++ [i]) ↔ Signalled prog ins ∨
      ∃ keyInfo, i = .key keyInfo ∧ prog.Signals keyInfo ∧ StartTyped ins := by
  constructor
  · rintro ⟨before, keyInfo, after, heq, hsignals, hstart⟩
    rcases snoc_eq_split.mp heq with ⟨rfl, rfl, -⟩ | ⟨after', -, rfl⟩
    · exact Or.inr ⟨keyInfo, rfl, hsignals, hstart⟩
    · exact Or.inl ⟨before, keyInfo, after', rfl, hsignals, hstart⟩
  · rintro (⟨before, keyInfo, after, rfl, hsignals, hstart⟩ | ⟨keyInfo, rfl, hsignals, hstart⟩)
    · exact ⟨before, keyInfo, after ++ [i], by simp, hsignals, hstart⟩
    · exact ⟨ins, keyInfo, [], rfl, hsignals, hstart⟩

namespace Bouncer

/-- `hRunMutex` is released by any number of calls but none. -/
theorem Sound.released_releaseRun (h : s.Sound outs) (hmain : s.main = .reading) (n : ℕ) :
    .released ∈ outs ++ (s.releaseRun n).2 ↔ .released ∈ outs ∨ 0 < n := by
  rcases h.releaseRun_cases hmain n with ⟨hcase, hsame⟩ | ⟨hpos, -, hfree⟩
  · rw [hsame, List.append_nil]
    refine (or_iff_left_of_imp ?_).symm
    intro hpos
    exact hcase.resolve_left (Nat.pos_iff_ne_zero.mp hpos)
  · rw [hfree]
    exact iff_of_true (by simp) (Or.inr hpos)

/-- **What a key does.** It starts a thread, or releases `hRunMutex` if there have been any. -/
theorem Sound.key_spec (prog : BounceProgram) (h : s.Sound outs) (hmain : s.main = .reading)
    (keyInfo : ℕ) :
    (0 < (prog.key s keyInfo).1.threads.length ↔ 0 < s.threads.length ∨ tolower keyInfo = 97) ∧
      (.released ∈ outs ++ (prog.key s keyInfo).2 ↔
        .released ∈ outs ∨ prog.Signals keyInfo ∧ 0 < s.threads.length) := by
  have hcount := h.count hmain
  by_cases ha : tolower keyInfo = 97
  · have hkey : prog.key s keyInfo = s.startThread keyInfo := by
      cases prog <;> simp [BounceProgram.key, kbdFunc, readInput, Bouncer.endOfLoop, ha]
    have hsignals : ¬ prog.Signals keyInfo := by
      cases prog <;> simp [BounceProgram.Signals, ha]
    rw [hkey, Bouncer.startThread]
    split_ifs with hroom
    · refine ⟨iff_of_true (by simp) (Or.inr ha), ?_⟩
      simp [hsignals]
    · have hfull : 0 < s.threads.length := by
        have hmax : maxThreads = 32 := rfl
        rw [not_and] at hroom
        have := hroom ha
        omega
      refine ⟨iff_of_true hfull (Or.inr ha), ?_⟩
      simp [hsignals]
  · have hstart : s.startThread keyInfo = (s, []) := if_neg fun hk => ha hk.1
    by_cases hq : tolower keyInfo = 113
    · have hkey : prog.key s keyInfo = s.shutDown := by
        cases prog <;>
          simp [BounceProgram.key, kbdFunc, readInput, Bouncer.endOfLoop, hstart, hq]
      have hsignals : prog.Signals keyInfo := by
        cases prog <;> simp [BounceProgram.Signals, hq]
      rw [hkey]
      refine ⟨(or_iff_left ha).symm, ?_⟩
      refine (h.released_releaseRun hmain s.threadNr).trans ?_
      rw [hcount]
      simp [hsignals]
    · have hend (t : Bouncer) : t.endOfLoop keyInfo = (t, []) := if_neg hq
      by_cases hd : prog = .main01 ∧ tolower keyInfo = 100 ∧ 0 < s.threadNr
      · obtain ⟨rfl, hd, hpos⟩ := hd
        have hkey : BounceProgram.main01.key s keyInfo =
            { s with threadDeleteNr := s.threadDeleteNr + 1 }.stopThread := by
          simp [BounceProgram.key, readInput, hstart, hend, hd, hpos]
        rw [hkey, h.deleteNr]
        refine ⟨(or_iff_left ha).symm, ?_⟩
        refine (h.released_releaseRun hmain 1).trans ?_
        rw [← hcount]
        simp [BounceProgram.Signals, hd, hpos]
      · have hkey : prog.key s keyInfo = (s, []) := by
          cases prog with
          | mThread01 => simp [BounceProgram.key, kbdFunc, hstart, hend]
          | main01 =>
            have hd : ¬ (tolower keyInfo = 100 ∧ 0 < s.threadNr) := fun hk => hd ⟨rfl, hk⟩
            simp only [BounceProgram.key, readInput, hstart, hend, if_neg hd]
            rfl
        have hsignals : ¬ (prog.Signals keyInfo ∧ 0 < s.threads.length) := by
          rintro ⟨hk, hpos⟩
          cases prog with
          | mThread01 => exact hq hk
          | main01 => exact hd ⟨rfl, hk.resolve_right hq, hcount ▸ hpos⟩
        rw [hkey, List.append_nil]
        exact ⟨(or_iff_left ha).symm, (or_iff_left hsignals).symm⟩

end Bouncer

/-- A step of a thread, and all that the main thread does after the last key, release `hRunMutex`
for nobody. -/
theorem bouncerMachine_quiet {t : Bouncer} {i : BounceInput} {o : List BounceEvent}
    (hi : ∀ keyInfo, i ≠ .key keyInfo) (hstep : (bouncerMachine prog).step s i = some (t, o)) :
    t.threads.length = s.threads.length ∧ .released ∉ o := by
  cases i with
  | key keyInfo => exact absurd rfl (hi keyInfo)
  | clear =>
    obtain ⟨rfl, rfl⟩ := Prod.mk.inj (Option.some.inj hstep)
    exact ⟨rfl, by simp⟩
  | closeScreen =>
    obtain ⟨u, hclose, hu⟩ := Option.bind_eq_some_iff.mp hstep
    obtain ⟨rfl, rfl⟩ := Prod.mk.inj (Option.some.inj hu)
    rw [Bouncer.closeScreen_eq_some hclose]
    exact ⟨rfl, List.not_mem_nil⟩
  | closeRun =>
    obtain ⟨u, hclose, hu⟩ := Option.bind_eq_some_iff.mp hstep
    obtain ⟨rfl, rfl⟩ := Prod.mk.inj (Option.some.inj hu)
    rw [Bouncer.closeRun_eq_some hclose]
    exact ⟨rfl, List.not_mem_nil⟩
  | closeConsole =>
    obtain ⟨rfl, rfl⟩ := Prod.mk.inj (Option.some.inj hstep)
    exact ⟨rfl, List.not_mem_nil⟩
  | exit =>
    obtain ⟨rfl, rfl⟩ := Prod.mk.inj (Option.some.inj hstep)
    exact ⟨List.length_map _, List.not_mem_nil⟩
  | block n =>
    obtain ⟨rfl, rfl⟩ := Prod.mk.inj (Option.some.inj hstep)
    exact ⟨List.length_set, List.not_mem_nil⟩
  | lock n =>
    obtain ⟨rfl, rfl⟩ := Prod.mk.inj (Option.some.inj hstep)
    exact ⟨List.length_set, List.not_mem_nil⟩
  | draw n =>
    obtain ⟨rfl, rfl⟩ := Prod.mk.inj (Option.some.inj hstep)
    refine ⟨List.length_set, ?_⟩
    split_ifs <;> simp
  | time n =>
    obtain ⟨rfl, rfl⟩ := Prod.mk.inj (Option.some.inj hstep)
    exact ⟨List.length_set, List.not_mem_nil⟩
  | poll n =>
    have hpoll : s.poll n = (t, o) := Option.some.inj hstep
    rw [Bouncer.poll] at hpoll
    dsimp only at hpoll
    split_ifs at hpoll
    · obtain ⟨rfl, rfl⟩ := Prod.mk.inj hpoll
      exact ⟨List.length_set, by simp⟩
    · obtain ⟨rfl, rfl⟩ := Prod.mk.inj hpoll
      exact ⟨List.length_set, by simp⟩
  | leave n =>
    obtain ⟨rfl, rfl⟩ := Prod.mk.inj (Option.some.inj hstep)
    exact ⟨List.length_set, by simp⟩

/-- **The signal.** `hRunMutex` is given away by the first key that releases it, if a thread has
been started before. -/
theorem bouncerMachine_signalled (h : (bouncerMachine prog).Run .start ins s outs) :
    (0 < s.threads.length ↔ StartTyped ins) ∧ (.released ∈ outs ↔ Signalled prog ins) := by
  refine h.invariant (P := fun ins s outs => (0 < s.threads.length ↔ StartTyped ins) ∧
    (.released ∈ outs ↔ Signalled prog ins)) ?_ ?_
  · exact ⟨by simp [Bouncer.start, StartTyped], by simp [Signalled]⟩
  · rintro ins s outs i t o hrun ⟨hthreads, hreleased⟩ ha hstep
    have hs := bouncerMachine_sound hrun
    rw [startTyped_snoc, signalled_snoc, ← hthreads, ← hreleased]
    by_cases hi : ∃ keyInfo, i = .key keyInfo
    · obtain ⟨keyInfo, rfl⟩ := hi
      have hkey : prog.key s keyInfo = (t, o) := Option.some.inj hstep
      obtain ⟨hthreads', hreleased'⟩ := hs.key_spec prog ha keyInfo
      rw [hkey] at hthreads' hreleased'
      rw [hthreads', hreleased']
      simp
    · have hno (P : ℕ → Prop) : ¬ ∃ keyInfo, i = .key keyInfo ∧ P keyInfo := by
        rintro ⟨keyInfo, hk, -⟩
        exact hi ⟨keyInfo, hk⟩
      obtain ⟨hlength, hquiet⟩ := bouncerMachine_quiet (not_exists.mp hi) hstep
      rw [or_iff_left (hno _), or_iff_left (hno _), hlength, List.mem_append, or_iff_left hquiet]
      exact ⟨Iff.rfl, Iff.rfl⟩

/-! ### What it comes to -/

/-- Somebody has the mutex that the threads wait for, before it is released and while a thread is on
its way out. -/
theorem RunHeld.owner_ne_none_iff {m : Mutex ThreadName} {threads : List BounceAt}
    (hm : RunHeld m threads outs) :
    m.owner ≠ none ↔ .released ∉ outs ∨ ∃ k : ℕ, threads[k]? = some .ending := by
  rw [hm.released, not_not]
  constructor
  · intro howner
    obtain ⟨t, rfl⟩ := hm.held.resolve_left howner
    cases t with
    | main => exact Or.inl rfl
    | bounce k => exact Or.inr ⟨k, (hm.ending k).mpr rfl⟩
  · rintro (rfl | ⟨k, hk⟩)
    · nofun
    · rw [(hm.ending k).mp hk]
      nofun

/-- **One signal for all.** In every run of either program a thread's poll times out exactly if
`hRunMutex` has not been closed and no key has released it yet (after a thread was started, `q`, or
in `Main01.c` also `d`) or another thread is on its way out at that moment. So one signal is enough
for every thread, and one call of `ReleaseMutex(hRunMutex)` at most ever succeeds. To close the
handle goes wrong exactly if some thread is in a poll that would time out. Until `q` is typed
`threadNr` is the number of threads that were started, whether or not they have ended. -/
theorem poll_times_out_iff (h : (bouncerMachine prog).Run .start ins s outs) :
    (∀ n : ℕ, (bouncerMachine prog).allowed s (.poll n) → ((s.poll n).2 = [.timedOut n] ↔
      s.hRunMutex ≠ none ∧ (¬ Signalled prog ins ∨ ∃ m : ℕ, s.threads[m]? = some .ending))) ∧
    outs.count .released ≤ 1 ∧
    ((bouncerMachine prog).allowed s .closeRun →
      ((bouncerMachine prog).step s .closeRun = none ↔ .timing ∈ s.threads ∧
        (¬ Signalled prog ins ∨ ∃ m : ℕ, s.threads[m]? = some .ending))) ∧
    (s.main = .reading → s.threadNr = s.threads.length) := by
  have hs := bouncerMachine_sound h
  obtain ⟨-, hsignal⟩ := bouncerMachine_signalled h
  rw [← hsignal]
  refine ⟨?_, hs.once, ?_, hs.count⟩
  · intro n ha
    obtain ⟨pc, hn, hpc⟩ : ∃ pc, s.threads[n]? = some pc ∧ pc ≠ .ending := by
      rcases ha with hpolling | htiming
      · exact ⟨_, hpolling, by decide⟩
      · exact ⟨_, htiming, by decide⟩
    rcases hs.poll_cases hn hpc with ⟨hclosed, hpoll⟩ | ⟨t, -, ht, hpoll⟩ | ⟨m, hm, hnone, hpoll⟩
    · rw [hpoll]
      exact iff_of_false (by simp) fun hopen => hopen.1 hclosed
    · have howner : (Mutex.owned t 0).owner ≠ none := Option.some_ne_none t
      rw [hpoll]
      exact iff_of_true rfl ⟨by simp [ht], (hs.run _ ht).owner_ne_none_iff.mp howner⟩
    · rw [hpoll]
      exact iff_of_false (by simp) fun hopen =>
        (hs.run m hm).owner_ne_none_iff.mpr hopen.2 hnone
  · intro ha
    have hmain : s.main = .screenClosed := ha
    obtain ⟨m, hm, hheld⟩ := hs.exists_run (by simp [hmain])
    rw [← hheld.owner_ne_none_iff]
    show (s.closeRun >>= fun t => some (t, [])) = none ↔ _
    rw [Bouncer.closeRun, hm]
    split_ifs with htiming
    · exact iff_of_true rfl htiming
    · exact iff_of_false (Option.some_ne_none _) htiming

/-- Two threads and one `d`: both of them stop, the second one because the first one has left
without releasing the mutex. -/
def BounceInput.sample : List BounceInput :=
  [.key 97, .key 97, .lock 0, .draw 0, .lock 1, .draw 1, .poll 0, .key 100, .poll 1, .leave 1,
    .lock 0, .draw 0]

theorem poll_times_out_iff_sample : ∃ s outs,
    (bouncerMachine .main01).Run .start BounceInput.sample s outs ∧
      s.hRunMutex = some .abandoned ∧ s.threadNr = 2 ∧ (s.poll 0).2 ≠ [.timedOut 0] := by
  have hrun : (bouncerMachine .main01).Run .start BounceInput.sample _ _ :=
    Machine.run_of_exec rfl
  refine ⟨_, _, hrun, rfl, (poll_times_out_iff hrun).2.2.2 rfl, ?_⟩
  decide

end Exec02
