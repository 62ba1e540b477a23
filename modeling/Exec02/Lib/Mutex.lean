import Mathlib.Logic.Function.Basic
import Mathlib.Tactic.Common

/-!
# Mutexes that have an owner

The mutexes of Windows. A mutex belongs to the thread that has taken it, which may take it again and
has to release it as often; nobody else can release it; and when its owner ends without releasing
it, it is abandoned: the next one to wait gets it, and is told so.

A program has a mutex by its handle. When that has been closed, every call with it fails at once.

## Main definitions

* `Mutex`, `Mutex.owner`
* `Mutex.wait`, `Mutex.release`, `Mutex.leave` — `WaitForSingleObject`, `ReleaseMutex`, and the end
  of a thread
* `Mutex.releases` — `ReleaseMutex` so many times
* `MutexHandle` — the same calls with a handle

## Main results

* `Mutex.wait_timeout_iff` — only what belongs to another thread cannot be had
* `Mutex.releases_owned`, `Mutex.releases_of_ne` — of many releases in a row the first one counts
-/

namespace Exec02

/-- A mutex: it belongs to a thread, which has taken it once and `more` times, or to nobody. -/
inductive Mutex (θ : Type)
  | free
  | abandoned
  | owned (thread : θ) (more : ℕ)
  deriving DecidableEq

/-- What `WaitForSingleObject` answers. -/
inductive WaitResult
  | object
  | abandoned
  | timeout
  | failed
  deriving DecidableEq

namespace Mutex

variable {θ : Type} [DecidableEq θ] {m : Mutex θ} {t u : θ}

/-- Whom a mutex belongs to. -/
def owner : Mutex θ → Option θ
  | owned t _ => some t
  | _ => none

/-- `WaitForSingleObject(m, ...)` in the thread `t`, as far as it comes at this moment. -/
def wait (m : Mutex θ) (t : θ) : WaitResult × Mutex θ :=
  match m with
  | free => (.object, owned t 0)
  | abandoned => (.abandoned, owned t 0)
  | owned u more => if u = t then (.object, owned t (more + 1)) else (.timeout, owned u more)

/-- `ReleaseMutex(m)` in the thread `t`, which fails if the mutex belongs to somebody else. -/
def release (m : Mutex θ) (t : θ) : Option (Mutex θ) :=
  match m with
  | owned u 0 => if u = t then some free else none
  | owned u (more + 1) => if u = t then some (owned u more) else none
  | _ => none

/-- The thread `t` ends. -/
def leave (m : Mutex θ) (t : θ) : Mutex θ :=
  match m with
  | owned u more => if u = t then abandoned else owned u more
  | m => m

/-- `ReleaseMutex(m)` so many times, with how often it succeeds. -/
def releases (m : Mutex θ) (t : θ) : ℕ → Mutex θ × ℕ
  | 0 => (m, 0)
  | n + 1 =>
    match m.release t with
    | none => m.releases t n
    | some m => ((m.releases t n).1, (m.releases t n).2 + 1)

/-- A mutex can be had unless it belongs to another thread. -/
theorem wait_timeout_iff : (m.wait t).1 = .timeout ↔ ∃ u, u ≠ t ∧ m.owner = some u := by
  cases m with
  | free => simp [wait, owner]
  | abandoned => simp [wait, owner]
  | owned u more => by_cases h : u = t <;> simp [wait, owner, h]

/-- Whoever gets a mutex that is nobody's has taken it once. -/
theorem wait_of_owner_eq_none (h : m.owner = none) (t : θ) :
    (m.wait t).1 ≠ .timeout ∧ (m.wait t).2 = owned t 0 := by
  cases m with
  | free => simp [wait]
  | abandoned => simp [wait]
  | owned u more => cases h

theorem wait_of_ne (h : u ≠ t) (more : ℕ) :
    (owned u more).wait t = (.timeout, owned u more) := if_neg h

theorem leave_of_ne (h : m.owner ≠ some t) : m.leave t = m := by
  cases m with
  | free => rfl
  | abandoned => rfl
  | owned u more => exact if_neg fun hu => h (congrArg some hu)

theorem leave_owned (t : θ) (more : ℕ) : (owned t more).leave t = abandoned := if_pos rfl

theorem release_of_ne (h : m.owner ≠ some t) : m.release t = none := by
  cases m with
  | free => rfl
  | abandoned => rfl
  | owned u more =>
    have hu : u ≠ t := fun hu => h (congrArg some hu)
    cases more <;> simp [release, hu]

theorem release_owned (t : θ) : (owned t 0).release t = some free := if_pos rfl

/-- What is not one's own cannot be released, however often. -/
theorem releases_of_ne (h : m.owner ≠ some t) (n : ℕ) : m.releases t n = (m, 0) := by
  induction n with
  | zero => rfl
  | succ n ih => rw [releases, release_of_ne h, ih]

/-- What has been taken once is released once. -/
theorem releases_owned (t : θ) (n : ℕ) : (owned t 0).releases t (n + 1) = (free, 1) := by
  rw [releases, release_owned]
  simp [releases_of_ne (m := free) (t := t) nofun]

end Mutex

/-! ### Handles -/

/-- A handle: the mutex that it stands for, or none when it has been closed. -/
abbrev MutexHandle (θ : Type) := Option (Mutex θ)

namespace MutexHandle

variable {θ : Type} [DecidableEq θ]

/-- Whom the mutex belongs to. -/
def owner (h : MutexHandle θ) : Option θ := h.bind Mutex.owner

/-- `WaitForSingleObject(h, ...)` in the thread `t`. -/
def wait (h : MutexHandle θ) (t : θ) : WaitResult × MutexHandle θ :=
  match h with
  | none => (.failed, none)
  | some m => ((m.wait t).1, some (m.wait t).2)

/-- `ReleaseMutex(h)` in the thread `t`, whatever it answers. -/
def release (h : MutexHandle θ) (t : θ) : MutexHandle θ := h.map fun m => (m.release t).getD m

/-- The thread `t` ends. -/
def leave (h : MutexHandle θ) (t : θ) : MutexHandle θ := h.map (·.leave t)

/-- `ReleaseMutex(h)` so many times, with how often it succeeds. -/
def releases (h : MutexHandle θ) (t : θ) (n : ℕ) : MutexHandle θ × ℕ :=
  match h with
  | none => (none, 0)
  | some m => (some (m.releases t n).1, (m.releases t n).2)

end MutexHandle

end Exec02
