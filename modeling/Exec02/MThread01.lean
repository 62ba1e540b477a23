import Exec02.Lib.Mutex
import Exec02.MThread02

/-!
# Threads that stop when a mutex is released

`MThread01.c` and `Main01.c`: the same bouncing threads, which draw under `hScreenMutex` and go on
as long as they cannot get `hRunMutex`. The main thread has taken that one at the start. In the
first program it releases it when `q` is typed, as often as there are threads, and in the second one
also when `d` is typed, once, to stop one thread.

`ReleaseMutex` hands nothing to anybody. The first call that is made gives `hRunMutex` away for
good, and every later one fails. From then on whichever thread polls gets it and ends, and since it
ends without releasing it, the next one is told that it was abandoned and ends as well. So a single
`d` stops all the threads, the ones started later too.

The main thread does not wait for any of them. When it has cleared the screen it closes the handles
and returns, which ends the process. A thread that comes to its wait for the screen in between gets
an error instead of the mutex, does not look at it, and draws.

## Reading the model

Handling a key, a thread's wait for the screen, its drawing, its poll of `hRunMutex` and its end are
one step each, and so is each call of `CloseHandle`. A wait without a limit is a step that is taken
when the mutex can be had, and a poll tries for it once; before either of them the thread may have
called and be waiting. To close a handle during somebody's wait for it is undefined behaviour.
Threads are told apart by the order in which they are started, and one that is started does start.
The counters are `int`s that are never below zero.

## Main definitions

* `Bouncer` — the two mutexes, the main thread and the threads that bounce
* `Bouncer.kbdFunc`, `Bouncer.readInput` — what the two programs do with a key
* `bouncerMachine` — a program and its threads as a machine
-/

namespace Exec02

/-- The threads: the main one, and those that bounce, as they were started. -/
inductive ThreadName
  | main
  | bounce (n : ℕ)
  deriving DecidableEq

/-- Where the main thread is: it reads keys, waits for the screen to clear it, has done so, has
closed one handle after the other, and has returned. -/
inductive MainAt
  | reading
  | leaving
  | done
  | screenClosed
  | runClosed
  | consoleClosed
  | returned
  deriving DecidableEq

/-- Where a thread is in `bounceProc`: in front of its wait for the screen, in that wait, with the
screen, in front of its poll, in the poll, behind a poll that has not timed out, or gone. -/
inductive BounceAt
  | waiting
  | blocked
  | drawing
  | polling
  | timing
  | ending
  | gone
  deriving DecidableEq

/-- The shared variables, and where each thread is. `threadDeleteNr` is one of `Main01.c` only. -/
structure Bouncer where
  threadNr : ℕ
  threadDeleteNr : ℕ
  hRunMutex : MutexHandle ThreadName
  hScreenMutex : MutexHandle ThreadName
  main : MainAt
  threads : List BounceAt

/-- What an observer sees. -/
inductive BounceEvent
  | started
  | released
  | cleared
  | drew (n : ℕ)
  | timedOut (n : ℕ)
  | stopped (n : ℕ)
  | ended (n : ℕ)
  deriving DecidableEq

namespace Bouncer

/-- The start of `main`. -/
def start : Bouncer := ⟨0, 0, some (.owned .main 0), some .free, .reading, []⟩

/-- `ReleaseMutex(hRunMutex)` so many times, in the main thread. -/
def releaseRun (s : Bouncer) (n : ℕ) : Bouncer × List BounceEvent :=
  let (hRunMutex, released) := s.hRunMutex.releases .main n
  ({ s with hRunMutex }, List.replicate released .released)

/-- `stopThread()` of `Main01.c`. -/
def stopThread (s : Bouncer) : Bouncer × List BounceEvent :=
  let (s, o) := s.releaseRun s.threadDeleteNr
  ({ s with threadDeleteNr := 0 }, o)

/-- `ShutDown()` and `shutDownAll()`, up to their wait for the screen. -/
def shutDown (s : Bouncer) : Bouncer × List BounceEvent :=
  let (s, o) := s.releaseRun s.threadNr
  ({ s with threadNr := 0, main := .leaving }, o)

/-- The first branch of either loop. -/
def startThread (s : Bouncer) (keyInfo : ℕ) : Bouncer × List BounceEvent :=
  if tolower keyInfo = 97 ∧ (s.threadNr : ℤ) < maxThreads then
    ({ s with threadNr := s.threadNr + 1, threads := s.threads ++ [.waiting] }, [.started])
  else (s, [])

/-- The end of either loop. -/
def endOfLoop (s : Bouncer) (keyInfo : ℕ) : Bouncer × List BounceEvent :=
  if tolower keyInfo = 113 then s.shutDown else (s, [])

/-- A round of `KbdFunc()` of `MThread01.c`. -/
def kbdFunc (s : Bouncer) (keyInfo : ℕ) : Bouncer × List BounceEvent :=
  let (s, o) := s.startThread keyInfo
  let (s, o') := s.endOfLoop keyInfo
  (s, o ++ o')

/-- A round of `readInput()` of `Main01.c`. -/
def readInput (s : Bouncer) (keyInfo : ℕ) : Bouncer × List BounceEvent :=
  let (s, o) := s.startThread keyInfo
  let (s, o') :=
    if tolower keyInfo = 100 ∧ 0 < s.threadNr then
      { s with threadDeleteNr := s.threadDeleteNr + 1 }.stopThread
    else (s, [])
  let (s, o'') := s.endOfLoop keyInfo
  (s, o ++ o' ++ o'')

/-- The rest of `ShutDown()`. -/
def clear (s : Bouncer) : Bouncer × List BounceEvent :=
  ({ s with hScreenMutex := (s.hScreenMutex.wait .main).2, main := .done }, [.cleared])

/-- A thread is somewhere else now. -/
def setThread (s : Bouncer) (n : ℕ) (pc : BounceAt) : Bouncer :=
  { s with threads := s.threads.set n pc }

/-- `WaitForSingleObject(hScreenMutex, INFINITE)` in a thread, when it comes back. Nobody looks at
what it answers. -/
def lock (s : Bouncer) (n : ℕ) : Bouncer :=
  { s with hScreenMutex := (s.hScreenMutex.wait (.bounce n)).2 }.setThread n .drawing

/-- The drawing, which needs `hConsoleOut`, and `ReleaseMutex(hScreenMutex)`. -/
def draw (s : Bouncer) (n : ℕ) : Bouncer × List BounceEvent :=
  ({ s with hScreenMutex := s.hScreenMutex.release (.bounce n) }.setThread n .polling,
    if s.main = .consoleClosed then [] else [.drew n])

/-- The condition of the loop of `bounceProc`. -/
def poll (s : Bouncer) (n : ℕ) : Bouncer × List BounceEvent :=
  let (result, hRunMutex) := s.hRunMutex.wait (.bounce n)
  if result = .timeout then ({ s with hRunMutex }.setThread n .waiting, [.timedOut n])
  else ({ s with hRunMutex }.setThread n .ending, [.stopped n])

/-- The end of a thread, which owns what it owns. -/
def leave (s : Bouncer) (n : ℕ) : Bouncer × List BounceEvent :=
  ({ s with
    hRunMutex := s.hRunMutex.leave (.bounce n)
    hScreenMutex := s.hScreenMutex.leave (.bounce n) }.setThread n .gone, [.ended n])

/-- `CloseHandle(hScreenMutex)`. -/
def closeScreen (s : Bouncer) : Option Bouncer :=
  if .blocked ∈ s.threads ∧ s.hScreenMutex.owner ≠ none then none
  else some { s with hScreenMutex := none, main := .screenClosed }

/-- `CloseHandle(hRunMutex)`. -/
def closeRun (s : Bouncer) : Option Bouncer :=
  if .timing ∈ s.threads ∧ s.hRunMutex.owner ≠ none then none
  else some { s with hRunMutex := none, main := .runClosed }

/-- The end of `main`, and with it of the process. -/
def exit (s : Bouncer) : Bouncer :=
  { s with main := .returned, threads := s.threads.map fun _ => .gone }

end Bouncer

/-- The two programs. -/
inductive BounceProgram
  | mThread01
  | main01
  deriving DecidableEq

/-- What a program does with a key. -/
def BounceProgram.key : BounceProgram → Bouncer → ℕ → Bouncer × List BounceEvent
  | .mThread01 => Bouncer.kbdFunc
  | .main01 => Bouncer.readInput

/-- What can happen: a key is typed, the main thread takes a step after the last one, and a thread
takes its next step or has called and waits. -/
inductive BounceInput
  | key (keyInfo : ℕ)
  | clear
  | closeScreen
  | closeRun
  | closeConsole
  | exit
  | block (n : ℕ)
  | lock (n : ℕ)
  | draw (n : ℕ)
  | time (n : ℕ)
  | poll (n : ℕ)
  | leave (n : ℕ)
  deriving DecidableEq

/-- A program and its threads as a machine. -/
def bouncerMachine (prog : BounceProgram) : Machine Bouncer BounceInput BounceEvent where
  allowed s
    | .key _ => s.main = .reading
    | .clear => s.main = .leaving ∧ (s.hScreenMutex.wait .main).1 ≠ .timeout
    | .closeScreen => s.main = .done
    | .closeRun => s.main = .screenClosed
    | .closeConsole => s.main = .runClosed
    | .exit => s.main = .consoleClosed
    | .block n => s.threads[n]? = some .waiting ∧ (s.hScreenMutex.wait (.bounce n)).1 = .timeout
    | .lock n => (s.threads[n]? = some .waiting ∨ s.threads[n]? = some .blocked) ∧
        (s.hScreenMutex.wait (.bounce n)).1 ≠ .timeout
    | .draw n => s.threads[n]? = some .drawing
    | .time n => s.threads[n]? = some .polling ∧ (s.hRunMutex.wait (.bounce n)).1 = .timeout
    | .poll n => s.threads[n]? = some .polling ∨ s.threads[n]? = some .timing
    | .leave n => s.threads[n]? = some .ending
  step s
    | .key keyInfo => some (prog.key s keyInfo)
    | .clear => some s.clear
    | .closeScreen => do return (← s.closeScreen, [])
    | .closeRun => do return (← s.closeRun, [])
    | .closeConsole => some ({ s with main := .consoleClosed }, [])
    | .exit => some (s.exit, [])
    | .block n => some (s.setThread n .blocked, [])
    | .lock n => some (s.lock n, [])
    | .draw n => some (s.draw n)
    | .time n => some (s.setThread n .timing, [])
    | .poll n => some (s.poll n)
    | .leave n => some (s.leave n)

instance (prog : BounceProgram) (s : Bouncer) :
    (i : BounceInput) → Decidable ((bouncerMachine prog).allowed s i)
  | .key _ => inferInstanceAs (Decidable (_ = _))
  | .clear => inferInstanceAs (Decidable (_ ∧ _))
  | .closeScreen => inferInstanceAs (Decidable (_ = _))
  | .closeRun => inferInstanceAs (Decidable (_ = _))
  | .closeConsole => inferInstanceAs (Decidable (_ = _))
  | .exit => inferInstanceAs (Decidable (_ = _))
  | .block _ => inferInstanceAs (Decidable (_ ∧ _))
  | .lock _ => inferInstanceAs (Decidable (_ ∧ _))
  | .draw _ => inferInstanceAs (Decidable (_ = _))
  | .time _ => inferInstanceAs (Decidable (_ ∧ _))
  | .poll _ => inferInstanceAs (Decidable (_ ∨ _))
  | .leave _ => inferInstanceAs (Decidable (_ = _))

end Exec02
