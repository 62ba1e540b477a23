import Exec02.Lib.Machine
import Mathlib.Algebra.Order.Ring.Nat
import Mathlib.Data.List.Count
import Mathlib.Data.List.TakeWhile
import Mathlib.Data.Nat.ModEq

/-!
# The clients of each thread

The program in front of `FileTransMain.cpp`, which is switched off: `socket_acceptor` gives every
client to one of the threads that run `CliDataProcessing`. `PollMap` is in order of how many clients
a thread has, so that the one in front has the fewest. When nothing can be read from a client, which
then counts as gone, its thread looks for itself in `PollMap`, to be put where it belongs now, and
there it goes on from the entry that it has just erased.

## Reading the model

A `std::multimap` is a list in the order of its keys, and what is inserted comes behind what has the
same key. To increment an iterator whose entry has been erased is undefined behaviour, as is to look
at the first entry of an empty map. A thread is known by the number of the signal that it waits for.
A step is one change of `PollMap`, with no other thread at it, and there are fewer clients than an
`int` can count. What the threads do with a message, and what that may do to their buffers, is left
out: it has nothing to do with `PollMap`.

`main` would start with a `PollMap` in which no thread has a client yet. But its loop has one thread
more to start than `threadident` has room for (`PollMap.startThreads_eq`), so runs are looked at from
any such `PollMap` here, whoever made it.

## Main results

* `PollMap.startThreads_eq` — the loop of `main`
* `FileServer.InTurn.accept` — a client more
* `poll_round_robin` — the threads take turns, as long as every read succeeds
-/

namespace Exec02

/-- `FdPerSignum`. -/
structure FdPerSignum where
  signum : ℕ
  pid : ℕ
  deriving DecidableEq

/-- `multimap<int, FdPerSignum>`. -/
abbrev PollMap := List (ℕ × FdPerSignum)

namespace PollMap

/-- `PollMap.insert(pair<int, FdPerSignum>(key, value))`. -/
def insert (m : PollMap) (key : ℕ) (value : FdPerSignum) : PollMap :=
  m.takeWhile (·.1 ≤ key) ++ (key, value) :: m.dropWhile (·.1 ≤ key)

/-- The loop of `main` that starts the threads, the first of which accepts the clients, where
`threadident` has room for so many. -/
def startThreads (threadident threadNum gpid : ℕ) : Option PollMap :=
  (List.range (threadNum + 1)).foldlM (fun m loopi =>
    if loopi < threadident then
      some (if loopi ≠ 0 then m.insert 0 ⟨loopi + 1, gpid⟩ else m)
    else none) []

/-- No thread has a client. -/
def start (threadNum : ℕ) (thread : ℕ → FdPerSignum) : PollMap :=
  (List.range threadNum).map fun i => (0, thread i)

/-- `socket_acceptor`, where a client has been accepted: the thread that it is given to. -/
def accept : PollMap → Option (PollMap × FdPerSignum)
  | [] => none
  | (first, fdpersignum) :: m => some (insert m (first + 1) fdpersignum, fdpersignum)

/-- `CliDataProcessing`, where nothing has been read: `PollMapi` goes from entry to entry, and from
the one that is erased to nowhere. -/
def readFailed (signum : ℕ) : PollMap → Option PollMap
  | [] => some []
  | (first, fdpersignum) :: m =>
    if fdpersignum.signum = signum then none
    else do
      let m ← readFailed signum m
      return (first, fdpersignum) :: m

end PollMap

/-- `PollMap`, and the signals that the clients' sockets have been set up for. -/
structure FileServer where
  pollMap : PollMap
  clients : List ℕ

/-- A client is accepted, or nothing can be read from one: it has gone, or the read has failed. -/
inductive ClientSignal
  | accept
  | readFailed (signum : ℕ)
  deriving DecidableEq

/-- What is done to `PollMap` as a machine, observed at the threads that the clients are given to. A
client that is read from has been accepted. -/
def pollMapMachine : Machine FileServer ClientSignal ℕ where
  allowed s
    | .accept => True
    | .readFailed signum => signum ∈ s.clients
  step s
    | .accept => do
      let (pollMap, fdpersignum) ← s.pollMap.accept
      return (⟨pollMap, s.clients ++ [fdpersignum.signum]⟩, [fdpersignum.signum])
    | .readFailed signum => do
      let pollMap ← s.pollMap.readFailed signum
      return (⟨pollMap, s.clients.erase signum⟩, [])

instance (s : FileServer) : (i : ClientSignal) → Decidable (pollMapMachine.allowed s i)
  | .accept => inferInstanceAs (Decidable True)
  | .readFailed signum => inferInstanceAs (Decidable (signum ∈ s.clients))

/-- Before any client comes. -/
def FileServer.start (threadNum : ℕ) (thread : ℕ → FdPerSignum) : FileServer :=
  ⟨.start threadNum thread, []⟩

/-! ### Taking turns -/

/-- The thread that is given the `n`-th client, and how many it has been given before. -/
def turn (threadNum : ℕ) (thread : ℕ → FdPerSignum) (n : ℕ) : ℕ × FdPerSignum :=
  (n / threadNum, thread (n % threadNum))

variable {threadNum n m : ℕ} {thread : ℕ → FdPerSignum} {s t : FileServer}
  {ins : List ClientSignal} {i : ClientSignal} {outs o : List ℕ}

/-- What has no greater key in front of it or behind it comes last. -/
theorem PollMap.insert_eq_append {m : PollMap} {key : ℕ} (h : ∀ e ∈ m, e.1 ≤ key)
    (value : FdPerSignum) : m.insert key value = m ++ [(key, value)] := by
  have hall : ∀ e ∈ m, decide (e.1 ≤ key) := fun e he => decide_eq_true (h e he)
  rw [insert, List.takeWhile_eq_self_iff.mpr hall, List.dropWhile_eq_nil_iff.mpr hall]

/-- **The loop of `main`.** It has to find room for the thread that accepts, too. -/
theorem PollMap.startThreads_eq (threadident threadNum gpid : ℕ) :
    startThreads threadident threadNum gpid =
      if threadNum < threadident then some (start threadNum fun i => ⟨i + 2, gpid⟩) else none := by
  induction threadNum with
  | zero =>
    by_cases hroom : 0 < threadident <;> simp [startThreads, start, hroom]
  | succ threadNum ih =>
    rw [startThreads] at ih ⊢
    rw [List.range_succ, List.foldlM_append, ih]
    by_cases hroom : threadNum + 1 < threadident
    · have hinsert : (start threadNum fun i => ⟨i + 2, gpid⟩).insert 0 ⟨threadNum + 1 + 1, gpid⟩ =
          start (threadNum + 1) fun i => ⟨i + 2, gpid⟩ := by
        rw [insert_eq_append, start, start, List.range_succ, List.map_append]
        · rfl
        · intro e he
          obtain ⟨i, -, rfl⟩ := List.mem_map.mp he
          exact le_rfl
      rw [if_pos (by omega), if_pos hroom, ← hinsert]
      simp [hroom]
    · rw [if_neg hroom]
      split_ifs <;> simp [hroom]

/-- The next `threadNum` turns. -/
def turns (threadNum : ℕ) (thread : ℕ → FdPerSignum) (n : ℕ) : PollMap :=
  (List.range' n threadNum).map (turn threadNum thread)

theorem PollMap.start_eq (threadNum : ℕ) (thread : ℕ → FdPerSignum) :
    start threadNum thread = turns threadNum thread 0 := by
  rw [start, turns, ← List.range_eq_range']
  refine List.map_congr_left fun loopi hloopi => ?_
  have hlt := List.mem_range.mp hloopi
  rw [turn, Nat.div_eq_of_lt hlt, Nat.mod_eq_of_lt hlt]

/-- The thread in front has its turn, and goes behind the others. -/
theorem PollMap.accept_turns (hpos : 0 < threadNum) (thread : ℕ → FdPerSignum) (n : ℕ) :
    (turns threadNum thread n).accept =
      some (turns threadNum thread (n + 1), thread (n % threadNum)) := by
  obtain ⟨k, rfl⟩ := Nat.exists_eq_add_of_lt hpos
  have hnext : turns (0 + k + 1) thread (n + 1) =
      (List.range' (n + 1) (0 + k)).map (turn (0 + k + 1) thread) ++
        [(n / (0 + k + 1) + 1, thread (n % (0 + k + 1)))] := by
    have hlast : turn (0 + k + 1) thread (n + 1 + 1 * (0 + k)) =
        (n / (0 + k + 1) + 1, thread (n % (0 + k + 1))) := by
      have hindex : n + 1 + 1 * (0 + k) = n + (0 + k + 1) := by omega
      rw [hindex, turn, Nat.add_div_right n hpos, Nat.add_mod_right]
    rw [turns, List.range'_concat, List.map_append, List.map_singleton, hlast]
  rw [turns, List.range'_succ, List.map_cons, turn, accept, hnext]
  refine congrArg (fun m => some (m, _)) (insert_eq_append ?_ _)
  intro e he
  obtain ⟨m, hm, rfl⟩ := List.mem_map.mp he
  rw [List.mem_range'_1] at hm
  show m / (0 + k + 1) ≤ n / (0 + k + 1) + 1
  rw [← Nat.add_div_right n hpos]
  exact Nat.div_le_div_right (by omega)

/-- The threads wait for signals of their own. -/
def OwnSignals (threadNum : ℕ) (thread : ℕ → FdPerSignum) : Prop :=
  ∀ i < threadNum, ∀ j < threadNum, (thread i).signum = (thread j).signum → i = j

/-- Every thread has been given a client as often as its entry says. -/
theorem count_turns (hpos : 0 < threadNum) (hown : OwnSignals threadNum thread) (hn : n ≤ m)
    (hm : m < n + threadNum) :
    ((List.range n).map fun i => (thread (i % threadNum)).signum).count
      (thread (m % threadNum)).signum = m / threadNum := by
  induction n generalizing m with
  | zero =>
    rw [Nat.div_eq_of_lt (by omega)]
    rfl
  | succ n ih =>
    rw [List.range_succ, List.map_append, List.map_singleton, List.count_append]
    by_cases hlast : m = n + threadNum
    · rw [hlast, Nat.add_mod_right, Nat.add_div_right n hpos, ih le_rfl (by omega)]
      simp
    · have hne : (thread (n % threadNum)).signum ≠ (thread (m % threadNum)).signum := by
        intro heq
        have hmod := hown _ (Nat.mod_lt n hpos) _ (Nat.mod_lt m hpos) heq
        have hdvd := (Nat.modEq_iff_dvd' (by omega)).mp hmod
        exact absurd (Nat.le_of_dvd (by omega) hdvd) (by omega)
      rw [ih (by omega) (by omega)]
      simp [hne]

/-- A thread that is in `PollMap` cannot go on from there. -/
theorem PollMap.readFailed_eq_none {m : PollMap} {e : ℕ × FdPerSignum} (he : e ∈ m) :
    readFailed e.2.signum m = none := by
  induction m with
  | nil => exact absurd he List.not_mem_nil
  | cons e' m ih =>
    rw [readFailed]
    split_ifs with hhere
    · rfl
    · have hbehind : e ∈ m := by
        rcases List.mem_cons.mp he with rfl | he
        · exact absurd rfl hhere
        · exact he
      rw [ih hbehind]
      rfl

/-- Every thread has its entry. -/
theorem exists_mem_turns (hpos : 0 < threadNum) (thread : ℕ → FdPerSignum) (n k : ℕ) :
    ∃ e ∈ turns threadNum thread n, e.2 = thread (k % threadNum) := by
  -- The next turn of that thread.
  have hlt := Nat.mod_lt (k % threadNum + (threadNum - n % threadNum)) hpos
  refine ⟨_, List.mem_map_of_mem (List.mem_range'_1.mpr
    ⟨Nat.le_add_right n _, Nat.add_lt_add_left hlt n⟩), congrArg thread ?_⟩
  have hround : n + (k % threadNum + (threadNum - n % threadNum)) =
      k % threadNum + threadNum * (n / threadNum + 1) := by
    have hn := Nat.div_add_mod n threadNum
    have hmod := Nat.mod_lt n hpos
    rw [Nat.mul_succ]
    omega
  rw [Nat.add_mod, Nat.mod_mod, ← Nat.add_mod, hround, Nat.add_mul_mod_self_left, Nat.mod_mod]

namespace FileServer

/-- The threads have been taking turns. -/
structure InTurn (threadNum : ℕ) (thread : ℕ → FdPerSignum) (s : FileServer) (outs : List ℕ) :
    Prop where
  pollMap : s.pollMap = turns threadNum thread outs.length
  clients : s.clients = outs
  outs : outs = (List.range outs.length).map fun n => (thread (n % threadNum)).signum

/-- **A client more.** The thread in front is given it. -/
theorem InTurn.accept (hpos : 0 < threadNum) (h : s.InTurn threadNum thread outs) :
    ∃ t, pollMapMachine.step s .accept =
        some (t, [(thread (outs.length % threadNum)).signum]) ∧
      t.InTurn threadNum thread (outs ++ [(thread (outs.length % threadNum)).signum]) := by
  refine ⟨⟨turns threadNum thread (outs.length + 1),
    s.clients ++ [(thread (outs.length % threadNum)).signum]⟩, ?_, ?_, ?_, ?_⟩
  · show (s.pollMap.accept >>= _) = _
    rw [h.pollMap, PollMap.accept_turns hpos]
    rfl
  · rw [List.length_append, List.length_singleton]
  · rw [h.clients]
  · rw [List.length_append, List.length_singleton, List.range_succ, List.map_append, ← h.outs]
    rfl

/-- **A client less.** There is no going on. -/
theorem InTurn.readFailed (hpos : 0 < threadNum) (h : s.InTurn threadNum thread outs) {signum : ℕ}
    (hclient : signum ∈ s.clients) : pollMapMachine.step s (.readFailed signum) = none := by
  rw [h.clients, h.outs] at hclient
  obtain ⟨k, -, rfl⟩ := List.mem_map.mp hclient
  obtain ⟨e, he, hthread⟩ := exists_mem_turns hpos thread outs.length k
  rw [← h.pollMap] at he
  show (s.pollMap.readFailed (thread (k % threadNum)).signum >>= _) = none
  rw [← hthread, PollMap.readFailed_eq_none he]
  rfl

end FileServer

theorem inTurn_of_run (hpos : 0 < threadNum)
    (h : pollMapMachine.Run (.start threadNum thread) ins s outs) :
    s.InTurn threadNum thread outs ∧ outs.length = ins.length := by
  refine h.invariant (P := fun ins s outs => s.InTurn threadNum thread outs ∧
    outs.length = ins.length) ⟨⟨PollMap.start_eq .., rfl, rfl⟩, rfl⟩ ?_
  rintro ins s outs i t o - ⟨hs, hlen⟩ ha hstep
  cases i with
  | accept =>
    obtain ⟨t', hstep', ht⟩ := hs.accept hpos
    obtain ⟨rfl, rfl⟩ := Prod.mk.inj (Option.some.inj (hstep'.symm.trans hstep))
    refine ⟨ht, ?_⟩
    rw [List.length_append, List.length_append, hlen]
    rfl
  | readFailed signum =>
    rw [hs.readFailed hpos ha] at hstep
    cases hstep

/-- **Turns.** In every run from a `PollMap` of threads without clients, each with a signal of its
own, the `n`-th client is given to the `n`-th thread, counted round and round; the entries of
`PollMap` say how many clients each thread has been given, and none has two more than another; and
of the steps that can be taken next, to accept a client never goes wrong, and to have read nothing
from one always does, whichever client it is. -/
theorem poll_round_robin (hpos : 0 < threadNum) (hown : OwnSignals threadNum thread)
    (h : pollMapMachine.Run (.start threadNum thread) ins s outs) :
    outs = (List.range ins.length).map (fun n => (thread (n % threadNum)).signum) ∧
    (∀ e ∈ s.pollMap, e.1 = outs.count e.2.signum) ∧
    (∀ e ∈ s.pollMap, ∀ e' ∈ s.pollMap, e.1 ≤ e'.1 + 1) ∧
    ∀ i, pollMapMachine.allowed s i →
      (pollMapMachine.step s i = none ↔ ∃ signum, i = .readFailed signum) := by
  obtain ⟨hs, hlen⟩ := inTurn_of_run hpos h
  have hentry : ∀ e ∈ s.pollMap, ∃ m, outs.length ≤ m ∧ m < outs.length + threadNum ∧
      e = turn threadNum thread m := by
    intro e he
    rw [hs.pollMap, turns] at he
    obtain ⟨m, hm, rfl⟩ := List.mem_map.mp he
    rw [List.mem_range'_1] at hm
    exact ⟨m, hm.1, hm.2, rfl⟩
  refine ⟨hlen ▸ hs.outs, ?_, ?_, ?_⟩
  · intro e he
    obtain ⟨m, hle, hlt, rfl⟩ := hentry e he
    have hcount := count_turns hpos hown hle hlt
    rw [← hs.outs] at hcount
    exact hcount.symm
  · intro e he e' he'
    obtain ⟨m, hle, hlt, rfl⟩ := hentry e he
    obtain ⟨m', hle', hlt', rfl⟩ := hentry e' he'
    show m / threadNum ≤ m' / threadNum + 1
    rw [← Nat.add_div_right m' hpos]
    exact Nat.div_le_div_right (by omega)
  · intro i ha
    cases i with
    | accept =>
      obtain ⟨t, hstep, -⟩ := hs.accept hpos
      rw [hstep]
      refine iff_of_false (Option.some_ne_none _) ?_
      rintro ⟨signum, hread⟩
      cases hread
    | readFailed signum => exact iff_of_true (hs.readFailed hpos ha) ⟨signum, rfl⟩

/-- Two threads and three clients. -/
theorem poll_round_robin_sample : ∃ s outs,
    pollMapMachine.Run (.start 2 fun i => ⟨i + 2, 1⟩) [.accept, .accept, .accept] s outs ∧
      outs = [2, 3, 2] ∧ pollMapMachine.step s (.readFailed 3) = none := by
  have hrun : pollMapMachine.Run (.start 2 fun i => ⟨i + 2, 1⟩) [.accept, .accept, .accept] _ _ :=
    Machine.run_of_exec rfl
  obtain ⟨houts, -, -, hstep⟩ := poll_round_robin (by decide)
    (fun i _ j _ heq => Nat.add_right_cancel heq) hrun
  exact ⟨_, _, hrun, houts, (hstep _ (by decide)).mpr ⟨3, rfl⟩⟩

end Exec02
