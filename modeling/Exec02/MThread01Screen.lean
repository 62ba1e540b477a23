import Exec02.MThread01

/-!
# Who has the screen

`MThread01.c` and `Main01.c`: whose the two mutexes are at every moment, as long as their handles are
open, and what comes of that for the screen.

A thread that draws has `hScreenMutex`, and one that is on its way out has `hRunMutex`; nobody takes
a mutex twice. What the main thread has is the second one until it releases it, and the first one
when it has cleared the screen. It still has that when it closes the handle.

## Main results

* `bouncerMachine_sound` — who has the two mutexes
* `screen_exclusive` — one thread draws at a time, and none when the screen has been cleared, until
  `hScreenMutex` is closed
-/

namespace Exec02

/-! ### Who has what -/

/-- Whose the screen is. -/
structure ScreenHeld (m : Mutex ThreadName) (threads : List BounceAt) (main : MainAt) : Prop where
  /-- It is nobody's, or it was taken once. -/
  held : m = .free ∨ ∃ t, m = .owned t 0
  /-- It is a thread's that draws, -/
  drawing : ∀ n, threads[n]? = some .drawing ↔ m = .owned (.bounce n) 0
  /-- or the main thread's when it has cleared it. -/
  done : main = .done ↔ m = .owned .main 0

/-- Whose that is which the threads wait for to end, when `outs` have been shown. -/
structure RunHeld (m : Mutex ThreadName) (threads : List BounceAt) (outs : List BounceEvent) :
    Prop where
  /-- It is nobody's, or it was taken once. -/
  held : m.owner = none ∨ ∃ t, m = .owned t 0
  /-- It is a thread's that ends, -/
  ending : ∀ n, threads[n]? = some .ending ↔ m = .owned (.bounce n) 0
  /-- or the main thread's until it is released. -/
  released : .released ∈ outs ↔ m ≠ .owned .main 0

/-- Nothing has been drawn since the screen was cleared. -/
def Kept (outs : List BounceEvent) : Prop :=
  ∀ before after, outs = before ++ .cleared :: after → ∀ n, .drew n ∉ after

/-- What holds after the events `outs`. -/
structure Bouncer.Sound (s : Bouncer) (outs : List BounceEvent) : Prop where
  screen : ∀ m, s.hScreenMutex = some m → ScreenHeld m s.threads s.main
  run : ∀ m, s.hRunMutex = some m → RunHeld m s.threads outs
  screenClosed : s.hScreenMutex = none ↔
    s.main ∈ [MainAt.screenClosed, .runClosed, .consoleClosed, .returned]
  runClosed : s.hRunMutex = none ↔ s.main ∈ [MainAt.runClosed, .consoleClosed, .returned]
  cleared : .cleared ∈ outs ↔ s.main ∉ [MainAt.reading, .leaving]
  /-- The cleared screen is left alone, as long as the threads are kept out. -/
  kept : s.hScreenMutex ≠ none → Kept outs
  /-- The mutex that the threads wait for is released once. -/
  once : outs.count .released ≤ 1
  /-- The threads are counted until the program is left. -/
  count : s.main = .reading → s.threadNr = s.threads.length
  le_max : (s.threads.length : ℤ) ≤ maxThreads
  deleteNr : s.threadDeleteNr = 0

theorem kept_of_not_mem {outs : List BounceEvent} (h : .cleared ∉ outs) : Kept outs := by
  rintro before after rfl
  exact absurd (List.mem_append_right _ List.mem_cons_self) h

theorem kept_snoc_cleared {outs : List BounceEvent} (h : .cleared ∉ outs) :
    Kept (outs ++ [.cleared]) := by
  intro before after heq n hn
  rcases snoc_eq_split.mp heq with ⟨-, -, rfl⟩ | ⟨after', -, rfl⟩
  · cases hn
  · exact h (List.mem_append_right _ List.mem_cons_self)

/-- The cleared screen is left alone by what does not draw. -/
theorem Kept.append {outs o : List BounceEvent} (h : Kept outs) (hcleared : .cleared ∉ o)
    (hdrew : .cleared ∈ outs → ∀ n, .drew n ∉ o) : Kept (outs ++ o) := by
  intro before after heq n hn
  rcases List.append_eq_append_iff.mp heq with ⟨mid, -, rfl⟩ | ⟨mid, rfl, hmid⟩
  · exact hcleared (List.mem_append_right _ List.mem_cons_self)
  · cases mid with
    | nil =>
      obtain rfl : .cleared :: after = o := hmid
      exact hcleared List.mem_cons_self
    | cons e mid =>
      obtain ⟨rfl, rfl⟩ := List.cons.inj hmid
      rcases List.mem_append.mp hn with hn | hn
      · exact h before mid rfl n hn
      · exact hdrew (List.mem_append_right _ List.mem_cons_self) n hn

/-! ### A thread that goes from one place to another -/

section Place

variable {threads : List BounceAt} {n : ℕ} {pc pc' goal : BounceAt} {m : Mutex ThreadName}
  {main : MainAt} {outs o : List BounceEvent}

/-- Where a thread is after a step of one of them. -/
theorem getElem?_set_of_getElem? (h : threads[n]? = some pc) (pc' : BounceAt) (k : ℕ) :
    (threads.set n pc')[k]? = if k = n then some pc' else threads[k]? := by
  have hn : n < threads.length := (List.getElem?_eq_some_iff.mp h).1
  rw [List.getElem?_set]
  by_cases hk : n = k
  · simp [hk, hk ▸ hn]
  · simp [hk, Ne.symm hk]

/-- Neither of the two places is `goal`. -/
theorem set_iff (h : threads[n]? = some pc) (hpc : pc ≠ goal) (hpc' : pc' ≠ goal) (k : ℕ) :
    (threads.set n pc')[k]? = some goal ↔ threads[k]? = some goal := by
  rw [getElem?_set_of_getElem? h]
  split_ifs with hk
  · subst hk
    simp [h, hpc, hpc']
  · rfl

/-- It comes to a place where nobody else is. -/
theorem set_arrive (h : threads[n]? = some pc) (hnobody : ∀ k : ℕ, threads[k]? ≠ some goal)
    (k : ℕ) : (threads.set n goal)[k]? = some goal ↔ k = n := by
  rw [getElem?_set_of_getElem? h]
  split_ifs with hk
  · simp [hk]
  · simp [hk, hnobody k]

/-- It leaves a place where it was alone. -/
theorem set_depart (h : threads[n]? = some pc) (hpc' : pc' ≠ goal)
    (halone : ∀ k : ℕ, threads[k]? = some goal → k = n) (k : ℕ) :
    (threads.set n pc')[k]? ≠ some goal := by
  rw [getElem?_set_of_getElem? h]
  split_ifs with hk
  · simpa using hpc'
  · exact fun hgoal => hk (halone k hgoal)

/-- The screen is whose it was. -/
theorem ScreenHeld.set (hm : ScreenHeld m threads main) (h : threads[n]? = some pc)
    (hpc : pc ≠ .drawing) (hpc' : pc' ≠ .drawing) : ScreenHeld m (threads.set n pc') main :=
  { hm with drawing := fun k => (set_iff h hpc hpc' k).trans (hm.drawing k) }

theorem RunHeld.append (hm : RunHeld m threads outs) (ho : .released ∉ o) :
    RunHeld m threads (outs ++ o) :=
  { hm with released := by rw [List.mem_append, or_iff_left ho]; exact hm.released }

theorem RunHeld.set (hm : RunHeld m threads outs) (h : threads[n]? = some pc)
    (hpc : pc ≠ .ending) (hpc' : pc' ≠ .ending) : RunHeld m (threads.set n pc') outs :=
  { hm with ending := fun k => (set_iff h hpc hpc' k).trans (hm.ending k) }

/-- One more thread, in front of its wait for the screen. -/
theorem getElem?_snoc_waiting (threads : List BounceAt) (n : ℕ) {pc : BounceAt}
    (hpc : pc ≠ .waiting) :
    (threads ++ [.waiting])[n]? = some pc ↔ threads[n]? = some pc := by
  rw [List.getElem?_append]
  split_ifs with hn
  · rfl
  · rw [List.getElem?_eq_none (Nat.le_of_not_lt hn)]
    refine iff_of_false ?_ nofun
    intro heq
    rcases hk : n - threads.length with _ | k
    · rw [hk] at heq
      exact hpc (Option.some.inj heq).symm
    · rw [hk] at heq
      cases heq

theorem ScreenHeld.snoc (hm : ScreenHeld m threads main) :
    ScreenHeld m (threads ++ [.waiting]) main :=
  { hm with
    drawing := fun k => (getElem?_snoc_waiting threads k (by decide)).trans (hm.drawing k) }

theorem RunHeld.snoc (hm : RunHeld m threads outs) : RunHeld m (threads ++ [.waiting]) outs :=
  { hm with
    ending := fun k => (getElem?_snoc_waiting threads k (by decide)).trans (hm.ending k) }

/-- The screen is nobody's when a thread can have it. -/
theorem ScreenHeld.free (hm : ScreenHeld m threads main) {t : ThreadName}
    (hwait : (m.wait t).1 ≠ .timeout) (ht : m ≠ .owned t 0) : m = .free := by
  rcases hm.held with hfree | ⟨u, rfl⟩
  · exact hfree
  · refine absurd ?_ hwait
    rw [Mutex.wait_timeout_iff]
    refine ⟨u, ?_, rfl⟩
    rintro rfl
    exact ht rfl

end Place

namespace Bouncer

variable {s : Bouncer} {outs o : List BounceEvent}

theorem sound_start : Sound start [] where
  screen := by
    rintro m ⟨⟩
    exact ⟨Or.inl rfl, fun _ => by simp [start], by simp [start]⟩
  run := by
    rintro m ⟨⟩
    exact ⟨Or.inr ⟨.main, rfl⟩, fun _ => by simp [start], by simp⟩
  screenClosed := by simp [start]
  runClosed := by simp [start]
  cleared := by simp [start]
  kept _ := kept_of_not_mem List.not_mem_nil
  once := Nat.zero_le _
  count _ := rfl
  le_max := by decide
  deleteNr := rfl

theorem Sound.exists_screen (h : s.Sound outs)
    (hmain : s.main ∈ [MainAt.reading, .leaving, .done]) :
    ∃ m, s.hScreenMutex = some m ∧ ScreenHeld m s.threads s.main := by
  have hopen : s.hScreenMutex ≠ none := by
    rw [ne_eq, h.screenClosed]
    revert hmain
    cases s.main <;> decide
  obtain ⟨m, hm⟩ := Option.ne_none_iff_exists'.mp hopen
  exact ⟨m, hm, h.screen m hm⟩

theorem Sound.exists_run (h : s.Sound outs)
    (hmain : s.main ∈ [MainAt.reading, .leaving, .done, .screenClosed]) :
    ∃ m, s.hRunMutex = some m ∧ RunHeld m s.threads outs := by
  have hopen : s.hRunMutex ≠ none := by
    rw [ne_eq, h.runClosed]
    revert hmain
    cases s.main <;> decide
  obtain ⟨m, hm⟩ := Option.ne_none_iff_exists'.mp hopen
  exact ⟨m, hm, h.run m hm⟩

/-! ### The main thread -/

/-- **Releasing.** It does something if it is the first time, and then it gives the mutex away. -/
theorem Sound.releaseRun_cases (h : s.Sound outs) (hmain : s.main = .reading) (n : ℕ) :
    (n = 0 ∨ .released ∈ outs) ∧ s.releaseRun n = (s, []) ∨
      0 < n ∧ .released ∉ outs ∧
        s.releaseRun n = ({ s with hRunMutex := some .free }, [.released]) := by
  obtain ⟨m, hm, hheld⟩ := h.exists_run (by simp [hmain])
  have hself : ({ s with hRunMutex := some m } : Bouncer) = s := by rw [← hm]
  by_cases hreleased : .released ∈ outs
  · have howner : m.owner ≠ some .main := by
      rcases hheld.held with hnone | ⟨t, rfl⟩
      · simp [hnone]
      · rintro ⟨⟩
        exact hheld.released.mp hreleased rfl
    refine Or.inl ⟨Or.inr hreleased, ?_⟩
    simp [releaseRun, MutexHandle.releases, hm, Mutex.releases_of_ne howner, hself]
  · have howned := not_not.mp (mt hheld.released.mpr hreleased)
    cases n with
    | zero =>
      refine Or.inl ⟨Or.inl rfl, ?_⟩
      simp [releaseRun, MutexHandle.releases, hm, Mutex.releases, hself]
    | succ n =>
      refine Or.inr ⟨Nat.succ_pos n, hreleased, ?_⟩
      simp [releaseRun, MutexHandle.releases, hm, howned, Mutex.releases_owned]

theorem Sound.release (h : s.Sound outs) (hmain : s.main = .reading)
    (hreleased : .released ∉ outs) :
    ({ s with hRunMutex := some .free } : Bouncer).Sound (outs ++ [.released]) := by
  obtain ⟨m, hm, hheld⟩ := h.exists_run (by simp [hmain])
  have howned := not_not.mp (mt hheld.released.mpr hreleased)
  have hcleared : .cleared ∉ outs := by
    rw [h.cleared, hmain]
    decide
  exact
    { h with
      run := by
        rintro m' ⟨⟩
        refine ⟨Or.inl rfl, ?_, by simp⟩
        intro n
        refine iff_of_false ?_ nofun
        intro hn
        rw [(hheld.ending n).mp hn] at howned
        cases howned
      runClosed := iff_of_false nofun (by simp [hmain])
      cleared := by simpa using h.cleared
      kept := fun _ => kept_of_not_mem (by simpa using hcleared)
      once := by
        rw [List.count_append, List.count_eq_zero_of_not_mem hreleased]
        exact le_rfl }

theorem Sound.releaseRun (h : s.Sound outs) (hmain : s.main = .reading) (n : ℕ) :
    (s.releaseRun n).1.Sound (outs ++ (s.releaseRun n).2) := by
  rcases h.releaseRun_cases hmain n with ⟨-, hsame⟩ | ⟨-, hreleased, hfree⟩
  · rw [hsame, List.append_nil]
    exact h
  · rw [hfree]
    exact h.release hmain hreleased

theorem Sound.startThread (h : s.Sound outs) (hmain : s.main = .reading) (keyInfo : ℕ) :
    (s.startThread keyInfo).1.Sound (outs ++ (s.startThread keyInfo).2) := by
  rw [Bouncer.startThread]
  split_ifs with hstart
  · have hcount := h.count hmain
    exact
      { h with
        screen := fun m hm => (h.screen m hm).snoc
        run := fun m hm => (h.run m hm).snoc.append (by simp)
        cleared := by simpa using h.cleared
        kept := fun hopen => (h.kept hopen).append (by simp) (by simp)
        once := by simpa [List.count_append] using h.once
        count := by
          intro _
          show s.threadNr + 1 = (s.threads ++ [BounceAt.waiting]).length
          rw [hcount, List.length_append, List.length_singleton]
        le_max := by
          show ((s.threads ++ [BounceAt.waiting]).length : ℤ) ≤ maxThreads
          have hlt := hstart.2
          rw [List.length_append, List.length_singleton, ← hcount]
          push_cast
          omega }
  · rw [List.append_nil]
    exact h

theorem Sound.stopThread (h : s.Sound outs) (hmain : s.main = .reading) (k : ℕ) :
    (({ s with threadDeleteNr := k } : Bouncer).stopThread).1.Sound
      (outs ++ (({ s with threadDeleteNr := k } : Bouncer).stopThread).2) := by
  have hrelease := h.releaseRun hmain k
  exact
    { hrelease with
      deleteNr := rfl }

theorem Sound.shutDown (h : s.Sound outs) (hmain : s.main = .reading) :
    s.shutDown.1.Sound (outs ++ s.shutDown.2) := by
  have hrelease := h.releaseRun hmain s.threadNr
  have hmain' : (s.releaseRun s.threadNr).1.main = .reading := hmain
  have hmain'' : s.shutDown.1.main = .leaving := rfl
  exact
    { hrelease with
      screen := by
        intro m hm
        have hheld := hrelease.screen m hm
        have hnot : m ≠ .owned .main 0 := by
          rw [ne_eq, ← hheld.done, hmain']
          nofun
        exact { hheld with done := iff_of_false nofun hnot }
      screenClosed := hrelease.screenClosed.trans (iff_of_false (by simp [hmain']) (by simp [hmain'']))
      runClosed := hrelease.runClosed.trans (iff_of_false (by simp [hmain']) (by simp [hmain'']))
      cleared := hrelease.cleared.trans (iff_of_false (by simp [hmain']) (by simp [hmain'']))
      count := nofun }

theorem Sound.endOfLoop (h : s.Sound outs) (hmain : s.main = .reading) (keyInfo : ℕ) :
    (s.endOfLoop keyInfo).1.Sound (outs ++ (s.endOfLoop keyInfo).2) := by
  rw [Bouncer.endOfLoop]
  split_ifs with hquit
  · exact h.shutDown hmain
  · rw [List.append_nil]
    exact h

theorem startThread_main (s : Bouncer) (keyInfo : ℕ) :
    (s.startThread keyInfo).1.main = s.main := by
  rw [Bouncer.startThread]
  split_ifs <;> rfl

/-- **A key.** In either program. -/
theorem Sound.key (h : s.Sound outs) (hmain : s.main = .reading) (prog : BounceProgram)
    (keyInfo : ℕ) : (prog.key s keyInfo).1.Sound (outs ++ (prog.key s keyInfo).2) := by
  have hstart := h.startThread hmain keyInfo
  have hmain' := (startThread_main s keyInfo).trans hmain
  cases prog with
  | mThread01 =>
    have hend := hstart.endOfLoop hmain' keyInfo
    rw [List.append_assoc] at hend
    exact hend
  | main01 =>
    show (Bouncer.readInput s keyInfo).1.Sound (outs ++ (Bouncer.readInput s keyInfo).2)
    by_cases hstop : tolower keyInfo = 100 ∧ 0 < (s.startThread keyInfo).1.threadNr
    · have hend := (hstart.stopThread hmain'
        ((s.startThread keyInfo).1.threadDeleteNr + 1)).endOfLoop hmain' keyInfo
      simp only [Bouncer.readInput, if_pos hstop, ← List.append_assoc]
      exact hend
    · have hend := hstart.endOfLoop hmain' keyInfo
      simp only [Bouncer.readInput, if_neg hstop, List.append_nil, ← List.append_assoc]
      exact hend

end Bouncer

namespace Bouncer

variable {s : Bouncer} {outs o : List BounceEvent} {n : ℕ} {pc pc' : BounceAt}

/-! ### The threads -/

/-- **A step of a thread.** The mutexes are to be looked at, and nothing else is. -/
theorem Sound.thread (h : s.Sound outs) {hRunMutex hScreenMutex : MutexHandle ThreadName}
    (hscreenNone : hScreenMutex = none ↔ s.hScreenMutex = none)
    (hrunNone : hRunMutex = none ↔ s.hRunMutex = none)
    (screen : ∀ m, hScreenMutex = some m → ScreenHeld m (s.threads.set n pc') s.main)
    (run : ∀ m, hRunMutex = some m → RunHeld m (s.threads.set n pc') (outs ++ o))
    (hcleared : .cleared ∉ o) (hreleased : .released ∉ o)
    (hdrew : s.hScreenMutex ≠ none → .cleared ∈ outs → ∀ k, .drew k ∉ o) :
    ({ s with hRunMutex, hScreenMutex }.setThread n pc').Sound (outs ++ o) where
  screen := screen
  run := run
  screenClosed := hscreenNone.trans h.screenClosed
  runClosed := hrunNone.trans h.runClosed
  cleared := by
    rw [List.mem_append, or_iff_left hcleared]
    exact h.cleared
  kept hopen :=
    have hopen' := mt hscreenNone.mpr hopen
    (h.kept hopen').append hcleared (hdrew hopen')
  once := by
    rw [List.count_append, List.count_eq_zero_of_not_mem hreleased]
    exact h.once
  count hmain := (h.count hmain).trans List.length_set.symm
  le_max := by
    show ((s.threads.set n pc').length : ℤ) ≤ maxThreads
    rw [List.length_set]
    exact h.le_max
  deleteNr := h.deleteNr

/-- A thread that goes from one place to another, of which neither has a mutex. -/
theorem Sound.setThread (h : s.Sound outs) (hn : s.threads[n]? = some pc)
    (hpc : pc ≠ .drawing ∧ pc ≠ .ending) (hpc' : pc' ≠ .drawing ∧ pc' ≠ .ending)
    (hcleared : .cleared ∉ o) (hreleased : .released ∉ o) (hdrew : ∀ k, .drew k ∉ o) :
    (s.setThread n pc').Sound (outs ++ o) :=
  h.thread Iff.rfl Iff.rfl (fun m hm => (h.screen m hm).set hn hpc.1 hpc'.1)
    (fun m hm => ((h.run m hm).set hn hpc.2 hpc'.2).append hreleased) hcleared hreleased
    fun _ _ => hdrew

theorem Sound.lock (h : s.Sound outs) (hn : s.threads[n]? = some pc)
    (hpc : pc ≠ .drawing ∧ pc ≠ .ending) (hwait : (s.hScreenMutex.wait (.bounce n)).1 ≠ .timeout) :
    (s.lock n).Sound (outs ++ []) := by
  refine h.thread ?_ Iff.rfl ?_
    (fun m hm => ((h.run m hm).set hn hpc.2 (by decide)).append List.not_mem_nil)
    List.not_mem_nil List.not_mem_nil fun _ _ _ => List.not_mem_nil
  · cases s.hScreenMutex <;> simp [MutexHandle.wait]
  · intro m hm
    cases hopen : s.hScreenMutex with
    | none =>
      rw [hopen] at hm
      cases hm
    | some m' =>
      rw [hopen] at hm hwait
      obtain rfl : (m'.wait (.bounce n)).2 = m := Option.some.inj hm
      have hheld := h.screen m' hopen
      have hne : m' ≠ .owned (.bounce n) 0 := by
        rw [ne_eq, ← hheld.drawing, hn]
        exact fun heq => hpc.1 (Option.some.inj heq)
      obtain rfl := hheld.free hwait hne
      have hnobody (k : ℕ) : s.threads[k]? ≠ some .drawing := by
        rw [ne_eq, hheld.drawing]
        nofun
      refine ⟨Or.inr ⟨_, rfl⟩, ?_, ?_⟩
      · intro k
        refine (set_arrive hn hnobody k).trans ?_
        simp [Mutex.wait, eq_comm]
      · refine hheld.done.trans ?_
        simp [Mutex.wait]

theorem Sound.draw (h : s.Sound outs) (hn : s.threads[n]? = some .drawing) :
    (s.draw n).1.Sound (outs ++ (s.draw n).2) := by
  have hout : ∀ e ∈ (s.draw n).2, e = .drew n := by
    intro e he
    rw [Bouncer.draw] at he
    split_ifs at he
    · cases he
    · exact List.mem_singleton.mp he
  refine h.thread ?_ Iff.rfl ?_ ?_ ?_ ?_ ?_
  · cases s.hScreenMutex <;> simp [MutexHandle.release]
  · intro m hm
    cases hopen : s.hScreenMutex with
    | none =>
      rw [hopen] at hm
      cases hm
    | some m' =>
      rw [hopen] at hm
      have hheld := h.screen m' hopen
      obtain rfl := (hheld.drawing n).mp hn
      obtain rfl : Mutex.free = m := by
        rw [← Option.some.inj hm]
        simp [Mutex.release_owned]
      have halone (k : ℕ) (hk : s.threads[k]? = some .drawing) : k = n := by
        rw [hheld.drawing] at hk
        simpa [eq_comm] using hk
      refine ⟨Or.inl rfl, fun k => iff_of_false (set_depart hn (by decide) halone k) nofun, ?_⟩
      refine hheld.done.trans ?_
      simp
  · intro m hm
    refine ((h.run m hm).set hn (by decide) (by decide)).append ?_
    exact fun he => nomatch hout _ he
  · exact fun he => nomatch hout _ he
  · exact fun he => nomatch hout _ he
  · -- A thread that draws has the screen, so it has not been cleared.
    intro hopen hcleared
    obtain ⟨m, hm⟩ := Option.ne_none_iff_exists'.mp hopen
    have hheld := h.screen m hm
    have hnot := mt h.screenClosed.mpr hopen
    have hdone : s.main = .done := by
      rw [h.cleared] at hcleared
      revert hcleared hnot
      cases s.main <;> decide
    rw [hheld.done, (hheld.drawing n).mp hn] at hdone
    cases hdone

/-- What a poll comes to: the handle has been closed, or somebody else has the mutex, or nobody had
it. -/
theorem Sound.poll_cases (h : s.Sound outs) (hn : s.threads[n]? = some pc) (hpc : pc ≠ .ending) :
    (s.hRunMutex = none ∧ s.poll n = (s.setThread n .ending, [.stopped n])) ∨
    (∃ t, t ≠ .bounce n ∧ s.hRunMutex = some (.owned t 0) ∧
      s.poll n = (s.setThread n .waiting, [.timedOut n])) ∨
    ∃ m, s.hRunMutex = some m ∧ m.owner = none ∧ s.poll n =
      ({ s with hRunMutex := some (.owned (.bounce n) 0) }.setThread n .ending, [.stopped n]) := by
  cases hopen : s.hRunMutex with
  | none =>
    refine Or.inl ⟨rfl, ?_⟩
    rw [Bouncer.poll, hopen]
    simp [MutexHandle.wait, ← hopen]
  | some m =>
    have hheld := h.run m hopen
    rcases hheld.held with hnone | ⟨t, rfl⟩
    · obtain ⟨hgot, howned⟩ := Mutex.wait_of_owner_eq_none hnone (.bounce n)
      refine Or.inr (Or.inr ⟨m, rfl, hnone, ?_⟩)
      rw [Bouncer.poll, hopen]
      simp [MutexHandle.wait, hgot, howned]
    · have hne : t ≠ .bounce n := by
        rintro rfl
        have := (hheld.ending n).mpr rfl
        rw [hn] at this
        exact hpc (Option.some.inj this)
      refine Or.inr (Or.inl ⟨t, hne, rfl, ?_⟩)
      rw [Bouncer.poll, hopen]
      simp [MutexHandle.wait, Mutex.wait_of_ne hne, ← hopen]

theorem Sound.poll (h : s.Sound outs) (hn : s.threads[n]? = some pc)
    (hpc : pc ≠ .drawing ∧ pc ≠ .ending) : (s.poll n).1.Sound (outs ++ (s.poll n).2) := by
  rcases h.poll_cases hn hpc.2 with ⟨hclosed, hpoll⟩ | ⟨t, -, -, hpoll⟩ | ⟨m, hm, hnone, hpoll⟩
  · rw [hpoll]
    refine h.thread Iff.rfl Iff.rfl (fun m hm => (h.screen m hm).set hn hpc.1 (by decide)) ?_
      (by simp) (by simp) (by simp)
    intro m hm
    rw [hclosed] at hm
    cases hm
  · rw [hpoll]
    exact h.setThread hn hpc (by decide) (by simp) (by simp) (by simp)
  · rw [hpoll]
    have hheld := h.run m hm
    have hne (t : ThreadName) : m ≠ .owned t 0 := by
      rintro rfl
      cases hnone
    have hnobody (k : ℕ) : s.threads[k]? ≠ some .ending := mt (hheld.ending k).mp (hne _)
    refine h.thread Iff.rfl (by simp [hm]) (fun m hm => (h.screen m hm).set hn hpc.1 (by decide))
      ?_ (by simp) (by simp) (by simp)
    rintro m' ⟨⟩
    refine ⟨Or.inr ⟨_, rfl⟩, ?_, ?_⟩
    · intro k
      refine (set_arrive hn hnobody k).trans ?_
      simp [eq_comm]
    · exact iff_of_true (List.mem_append_left _ (hheld.released.mpr (hne .main))) (by simp)

theorem Sound.leave (h : s.Sound outs) (hn : s.threads[n]? = some .ending) :
    (s.leave n).1.Sound (outs ++ [.ended n]) := by
  refine h.thread ?_ ?_ ?_ ?_ (by simp) (by simp) (by simp)
  · cases s.hScreenMutex <;> simp [MutexHandle.leave]
  · cases s.hRunMutex <;> simp [MutexHandle.leave]
  · intro m hm
    obtain ⟨m', hopen, rfl⟩ := Option.map_eq_some_iff.mp hm
    have hheld := h.screen m' hopen
    have hsame : m'.leave (.bounce n) = m' := by
      refine Mutex.leave_of_ne ?_
      intro howner
      rcases hheld.held with rfl | ⟨t, rfl⟩
      · cases howner
      · obtain rfl : t = .bounce n := Option.some.inj howner
        rw [(hheld.drawing n).mpr rfl] at hn
        cases hn
    rw [hsame]
    exact hheld.set hn (by decide) (by decide)
  · intro m hm
    obtain ⟨m', hopen, rfl⟩ := Option.map_eq_some_iff.mp hm
    have hheld := h.run m' hopen
    obtain rfl := (hheld.ending n).mp hn
    have halone (k : ℕ) (hk : s.threads[k]? = some .ending) : k = n := by
      rw [hheld.ending] at hk
      simpa [eq_comm] using hk
    rw [Mutex.leave_owned]
    refine ⟨Or.inl rfl, fun k => iff_of_false (set_depart hn (by decide) halone k) nofun, ?_⟩
    exact iff_of_true (List.mem_append_left _ (hheld.released.mpr nofun)) nofun

/-! ### The end of the main thread -/

theorem Sound.clear (h : s.Sound outs) (hmain : s.main = .leaving)
    (hwait : (s.hScreenMutex.wait .main).1 ≠ .timeout) :
    s.clear.1.Sound (outs ++ [.cleared]) := by
  obtain ⟨m, hm, hheld⟩ := h.exists_screen (by simp [hmain])
  have hcleared : .cleared ∉ outs := by
    rw [h.cleared, hmain]
    decide
  have hfree : m = .free := by
    rw [hm] at hwait
    refine hheld.free hwait ?_
    rw [ne_eq, ← hheld.done, hmain]
    nofun
  subst hfree
  have hscreen : s.clear.1.hScreenMutex = some (.owned .main 0) := by
    show (s.hScreenMutex.wait .main).2 = _
    rw [hm]
    rfl
  have hmain' : s.clear.1.main = .done := rfl
  exact
    { h with
      screen := by
        intro m' hm'
        obtain rfl := Option.some.inj (hscreen.symm.trans hm')
        refine ⟨Or.inr ⟨_, rfl⟩, ?_, iff_of_true rfl rfl⟩
        intro n
        refine (hheld.drawing n).trans ?_
        simp
      run := fun m hm => (h.run m hm).append (by simp)
      screenClosed := iff_of_false (by simp [hscreen]) (by simp [hmain'])
      runClosed := h.runClosed.trans (iff_of_false (by simp [hmain]) (by simp [hmain']))
      cleared := iff_of_true (by simp) (by simp [hmain'])
      kept := fun _ => kept_snoc_cleared hcleared
      once := by simpa [List.count_append] using h.once
      count := nofun }

/-- What closing the handle does, if it does not go wrong. -/
theorem closeScreen_eq_some {t : Bouncer} (h : s.closeScreen = some t) :
    t = { s with hScreenMutex := none, main := .screenClosed } := by
  rw [Bouncer.closeScreen] at h
  split_ifs at h
  exact (Option.some.inj h).symm

theorem closeRun_eq_some {t : Bouncer} (h : s.closeRun = some t) :
    t = { s with hRunMutex := none, main := .runClosed } := by
  rw [Bouncer.closeRun] at h
  split_ifs at h
  exact (Option.some.inj h).symm

theorem Sound.closeScreen {t : Bouncer} (h : s.Sound outs) (hmain : s.main = .done)
    (hclose : s.closeScreen = some t) : t.Sound outs := by
  obtain rfl := closeScreen_eq_some hclose
  exact
    { h with
      screen := nofun
      screenClosed := by simp
      runClosed := by simpa [hmain] using h.runClosed
      cleared := by simpa [hmain] using h.cleared
      kept := fun hopen => absurd rfl hopen
      count := nofun }

theorem Sound.closeRun {t : Bouncer} (h : s.Sound outs) (hmain : s.main = .screenClosed)
    (hclose : s.closeRun = some t) : t.Sound outs := by
  obtain rfl := closeRun_eq_some hclose
  have hclosed : s.hScreenMutex = none := by simp [h.screenClosed, hmain]
  exact
    { h with
      screen := by simp [hclosed]
      run := nofun
      screenClosed := by simp [hclosed]
      runClosed := by simp
      cleared := by simpa [hmain] using h.cleared
      count := nofun }

theorem Sound.closeConsole (h : s.Sound outs) (hmain : s.main = .runClosed) :
    ({ s with main := .consoleClosed } : Bouncer).Sound outs := by
  have hclosed : s.hScreenMutex = none := by simp [h.screenClosed, hmain]
  exact
    { h with
      screen := by simp [hclosed]
      screenClosed := by simp [hclosed]
      runClosed := by simp [h.runClosed, hmain]
      cleared := by simpa [hmain] using h.cleared
      count := nofun }

theorem Sound.exit (h : s.Sound outs) (hmain : s.main = .consoleClosed) : s.exit.Sound outs := by
  have hclosed : s.hScreenMutex = none := by simp [h.screenClosed, hmain]
  have hclosed' : s.hRunMutex = none := by simp [h.runClosed, hmain]
  exact
    { h with
      screen := by simp [Bouncer.exit, hclosed]
      run := by simp [Bouncer.exit, hclosed']
      screenClosed := by simp [Bouncer.exit, hclosed]
      runClosed := by simp [Bouncer.exit, hclosed']
      cleared := by simpa [Bouncer.exit, hmain] using h.cleared
      count := nofun
      le_max := by simpa [Bouncer.exit] using h.le_max }

end Bouncer

variable {prog : BounceProgram} {ins : List BounceInput} {s : Bouncer} {outs : List BounceEvent}

/-- **Who has what**, after every run of either program. -/
theorem bouncerMachine_sound (h : (bouncerMachine prog).Run .start ins s outs) : s.Sound outs := by
  refine h.invariant (P := fun _ s outs => s.Sound outs) Bouncer.sound_start ?_
  intro ins s outs i t o _ hs ha hstep
  cases i with
  | key keyInfo =>
    obtain ⟨rfl, rfl⟩ := Prod.mk.inj (Option.some.inj hstep)
    exact hs.key ha prog keyInfo
  | clear =>
    obtain ⟨rfl, rfl⟩ := Prod.mk.inj (Option.some.inj hstep)
    exact hs.clear ha.1 ha.2
  | closeScreen =>
    obtain ⟨u, hclose, hu⟩ := Option.bind_eq_some_iff.mp hstep
    obtain ⟨rfl, rfl⟩ := Prod.mk.inj (Option.some.inj hu)
    rw [List.append_nil]
    exact hs.closeScreen ha hclose
  | closeRun =>
    obtain ⟨u, hclose, hu⟩ := Option.bind_eq_some_iff.mp hstep
    obtain ⟨rfl, rfl⟩ := Prod.mk.inj (Option.some.inj hu)
    rw [List.append_nil]
    exact hs.closeRun ha hclose
  | closeConsole =>
    obtain ⟨rfl, rfl⟩ := Prod.mk.inj (Option.some.inj hstep)
    rw [List.append_nil]
    exact hs.closeConsole ha
  | exit =>
    obtain ⟨rfl, rfl⟩ := Prod.mk.inj (Option.some.inj hstep)
    rw [List.append_nil]
    exact hs.exit ha
  | block n =>
    obtain ⟨rfl, rfl⟩ := Prod.mk.inj (Option.some.inj hstep)
    exact hs.setThread ha.1 (by decide) (by decide) (by simp) (by simp) (by simp)
  | lock n =>
    obtain ⟨rfl, rfl⟩ := Prod.mk.inj (Option.some.inj hstep)
    obtain ⟨hwaiting | hblocked, hwait⟩ := ha
    · exact hs.lock hwaiting (by decide) hwait
    · exact hs.lock hblocked (by decide) hwait
  | draw n =>
    obtain ⟨rfl, rfl⟩ := Prod.mk.inj (Option.some.inj hstep)
    exact hs.draw ha
  | time n =>
    obtain ⟨rfl, rfl⟩ := Prod.mk.inj (Option.some.inj hstep)
    exact hs.setThread ha.1 (by decide) (by decide) (by simp) (by simp) (by simp)
  | poll n =>
    obtain ⟨rfl, rfl⟩ := Prod.mk.inj (Option.some.inj hstep)
    rcases ha with hpolling | htiming
    · exact hs.poll hpolling (by decide)
    · exact hs.poll htiming (by decide)
  | leave n =>
    obtain ⟨rfl, rfl⟩ := Prod.mk.inj (Option.some.inj hstep)
    exact hs.leave ha

/-! ### What becomes of the screen -/

/-- A closed handle keeps nobody out. -/
theorem Bouncer.allowed_lock (hclosed : s.hScreenMutex = none) {n : ℕ}
    (hn : s.threads[n]? = some .waiting) : (bouncerMachine prog).allowed s (.lock n) := by
  refine ⟨Or.inl hn, ?_⟩
  rw [hclosed]
  nofun

/-- **The screen.** In every run of either program, until `hScreenMutex` is closed, at most one
thread draws at a time, and it has the mutex; while the screen has not been cleared, that thread can
go on, or whoever waits for the screen can have it; and when it has been cleared, nobody draws or
can come to it, so nothing is drawn on the cleared screen. To close the handle goes wrong if some
thread is in its wait for the screen then. And otherwise it lets in every thread that comes, and two
of them at once. -/
theorem screen_exclusive (h : (bouncerMachine prog).Run .start ins s outs) :
    (s.hScreenMutex ≠ none →
      (∀ m n : ℕ, s.threads[m]? = some .drawing → s.threads[n]? = some .drawing → m = n) ∧
      (∀ n : ℕ, s.threads[n]? = some .drawing → s.hScreenMutex.owner = some (.bounce n)) ∧
      (.cleared ∈ outs → ∀ n : ℕ, s.threads[n]? ≠ some .drawing ∧
        ¬ (bouncerMachine prog).allowed s (.lock n)) ∧
      Kept outs) ∧
    (.cleared ∉ outs → s.hScreenMutex ≠ none ∧
      ((∃ n, (bouncerMachine prog).allowed s (.draw n)) ∨
        ∀ t, (s.hScreenMutex.wait t).1 = .object)) ∧
    ((bouncerMachine prog).allowed s .closeScreen →
      ((bouncerMachine prog).step s .closeScreen = none ↔ .blocked ∈ s.threads)) ∧
    (s.hScreenMutex = none → ∀ n : ℕ, s.threads[n]? = some .waiting →
      (bouncerMachine prog).allowed s (.lock n) ∧
      ∀ m : ℕ, m ≠ n → s.threads[m]? = some .waiting →
        ∃ t, (bouncerMachine prog).Run s [.lock n, .lock m] t [] ∧
          t.threads[n]? = some .drawing ∧ t.threads[m]? = some .drawing) := by
  have hs := bouncerMachine_sound h
  refine ⟨?_, ?_, ?_, ?_⟩
  · intro hopen
    obtain ⟨m, hm⟩ := Option.ne_none_iff_exists'.mp hopen
    have hheld := hs.screen m hm
    refine ⟨?_, ?_, ?_, hs.kept hopen⟩
    · intro k n hk hn
      rw [hheld.drawing] at hk hn
      simpa [hk] using hn
    · intro n hn
      rw [hm, (hheld.drawing n).mp hn]
      rfl
    · intro hcleared n
      have hdone : s.main = .done := by
        have hnot := mt hs.screenClosed.mpr hopen
        rw [hs.cleared] at hcleared
        revert hcleared hnot
        cases s.main <;> decide
      obtain rfl := hheld.done.mp hdone
      constructor
      · rw [ne_eq, hheld.drawing]
        nofun
      · rintro ⟨-, hwait⟩
        rw [hm] at hwait
        exact hwait rfl
  · intro hcleared
    rw [hs.cleared, not_not] at hcleared
    have hmain : s.main ∈ [MainAt.reading, .leaving, .done] := by
      revert hcleared
      cases s.main <;> decide
    obtain ⟨m, hm, hheld⟩ := hs.exists_screen hmain
    refine ⟨by simp [hm], ?_⟩
    rcases hheld.held with rfl | ⟨t, rfl⟩
    · refine Or.inr ?_
      intro t
      rw [hm]
      rfl
    · cases t with
      | main =>
        rw [hheld.done.mpr rfl] at hcleared
        exact absurd hcleared (by decide)
      | bounce n => exact Or.inl ⟨n, (hheld.drawing n).mpr rfl⟩
  · intro ha
    have hdone : s.main = .done := ha
    obtain ⟨m, hm, hheld⟩ := hs.exists_screen (by simp [hdone])
    obtain rfl := hheld.done.mp hdone
    show (s.closeScreen >>= fun t => some (t, [])) = none ↔ _
    rw [Bouncer.closeScreen, hm]
    split_ifs with hblocked
    · exact iff_of_true rfl hblocked.1
    · exact iff_of_false nofun fun hmem => hblocked ⟨hmem, nofun⟩
  · intro hclosed n hn
    refine ⟨Bouncer.allowed_lock hclosed hn, ?_⟩
    intro m hmn hm
    have hm' : (s.lock n).threads[m]? = some .waiting := by
      show (s.threads.set n .drawing)[m]? = some .waiting
      rw [getElem?_set_of_getElem? hn, if_neg hmn, hm]
    have hclosed' : (s.lock n).hScreenMutex = none := by
      show (s.hScreenMutex.wait (.bounce n)).2 = none
      rw [hclosed]
      rfl
    refine ⟨_, (Machine.Run.single (Bouncer.allowed_lock hclosed hn) rfl).append
      (Machine.Run.single (Bouncer.allowed_lock hclosed' hm') rfl), ?_, ?_⟩
    · show ((s.lock n).threads.set m .drawing)[n]? = some .drawing
      rw [getElem?_set_of_getElem? hm', if_neg hmn.symm]
      show (s.threads.set n .drawing)[n]? = some .drawing
      rw [getElem?_set_of_getElem? hn, if_pos rfl]
    · show ((s.lock n).threads.set m .drawing)[m]? = some .drawing
      rw [getElem?_set_of_getElem? hm', if_pos rfl]

/-- Two threads that go on when the screen has been cleared, and come to it when `hScreenMutex` has
been closed: both of them draw. -/
def BounceInput.late : List BounceInput :=
  [.key 97, .key 97, .lock 0, .draw 0, .poll 0, .lock 1, .draw 1, .poll 1, .key 113, .clear,
    .closeScreen, .lock 0, .lock 1]

theorem screen_exclusive_late : ∃ s outs,
    (bouncerMachine .mThread01).Run .start BounceInput.late s outs ∧
      s.threads = [.drawing, .drawing] ∧ s.hScreenMutex = none := by
  have hrun : (bouncerMachine .mThread01).Run .start BounceInput.late _ _ :=
    Machine.run_of_exec rfl
  refine ⟨_, _, hrun, rfl, ?_⟩
  by_contra hopen
  exact absurd (((screen_exclusive hrun).1 hopen).1 0 1 rfl rfl) (by decide)

end Exec02
