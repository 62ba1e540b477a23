import Exec02.MLogger
import Mathlib.Algebra.Order.Group.Multiset

/-!
# Many writers

`MLogger.cpp` as a monitor: any number of threads in `handleLog`, taking turns with threads that
log, pause and resume. What a writer may rely on is `mtx` alone. `cv.wait` lets go of it and may
return at any time and for no reason, so after every return the writer looks again, under the
lock, whether it is to wait; only then does it take a message.

## Reading the model

A writer is between two rounds of its loop, or inside `cv.wait`. Starting a round and returning
from `cv.wait` are the two points where it comes to hold `mtx`, and what it does from there until it
lets go, by waiting or at the end of the round, is one step. A writer that has not been started yet
is one that has not come to its first round. `init`, in `start`, finds a writer thread already
there. The rest is as in the logger with one writer, which says where the text of a message may go
wrong; an address stands for its message here.

## Main results

* `monitor_cases` — what a step does
* `pause_effective` — nothing is taken from a paused logger, and nothing is lost
-/

namespace Exec02

/-- Where a thread is in `handleLog`. -/
inductive WriterState
  | looping
  | waiting
  | done
  deriving DecidableEq

/-- A logger and its writers. -/
structure MLogMonitor (ω : Type) where
  log : MLog
  writers : ω → WriterState

/-- What an observer sees: a message pushed, a message taken by a writer, a pause and a resume. -/
inductive MonitorEvent (ω : Type)
  | logged (a : Addr) (text : Text)
  | removed (w : ω) (a : Addr) (text : Text)
  | paused
  | resumed

/-- What can happen: the two parts of a `log`; a pause, a resume, a `start`; a writer starts a
round, and a writer returns from `cv.wait`. -/
inductive MonitorInput (ω : Type)
  | new (a : Addr) (text : Text)
  | push (a : Addr)
  | pause
  | resume
  | start
  | enter (w : ω)
  | wake (w : ω)

namespace MLog

/-- The predicate `handleLog` waits on. -/
def blocked (s : MLog) : Bool := s.isPause || s.queue.isEmpty

/-- `queue.top()` and `queue.pop()`, and the `delete` behind them. -/
def take (s : MLog) : Option (MLog × Addr) := do
  let msg ← s.top
  let heap ← s.heap.free msg
  return ({ s with queue := s.queue.erase msg, heap }, msg)

end MLog

namespace MLogMonitor

variable {ω : Type} [DecidableEq ω]

/-- A new logger. -/
def init (isPause : Bool) (cell : Addr → MLogMsg) : MLogMonitor ω :=
  ⟨.init isPause cell, fun _ => .looping⟩

/-- What a writer does once it holds `mtx`. -/
def locked (s : MLogMonitor ω) (w : ω) : Option (MLogMonitor ω × List (MonitorEvent ω)) :=
  if s.log.blocked then some ({ s with writers := Function.update s.writers w .waiting }, [])
  else do
    let (log, msg) ← s.log.take
    return (⟨log, Function.update s.writers w .looping⟩, [.removed w msg (s.log.text msg)])

/-- A round of `handleLog`, up to the first wait or to its end. -/
def enter (s : MLogMonitor ω) (w : ω) : Option (MLogMonitor ω × List (MonitorEvent ω)) :=
  if s.log.isRun then s.locked w
  else some ({ s with writers := Function.update s.writers w .done }, [])

/-- `start()`. -/
def start (s : MLogMonitor ω) : MLogMonitor ω :=
  { s with log := { s.log with isRun := true }.resume }

end MLogMonitor

variable {ω : Type} [DecidableEq ω]

/-- The logger and its writers as a machine. -/
def monitorMachine (pl : Platform) (ω : Type) [DecidableEq ω] :
    Machine (MLogMonitor ω) (MonitorInput ω) (MonitorEvent ω) where
  allowed s
    | .new a _ => a ∉ s.log.heap.live
    | .push a => a ∈ s.log.logging
    | .pause | .resume | .start => True
    | .enter w => s.writers w = .looping
    | .wake w => s.writers w = .waiting
  step s
    | .new a text => (s.log.new pl a text).map ({ s with log := · }, [])
    | .push a => (s.log.push a).map fun r => ({ s with log := r.1 }, [.logged a (s.log.text a)])
    | .pause => some ({ s with log := s.log.pause }, [.paused])
    | .resume => some ({ s with log := s.log.resume }, [.resumed])
    | .start => some (s.start, [.resumed])
    | .enter w => s.enter w
    | .wake w => s.locked w

instance (pl : Platform) (s : MLogMonitor ω) :
    (i : MonitorInput ω) → Decidable ((monitorMachine pl ω).allowed s i)
  | .new a _ => inferInstanceAs (Decidable (a ∉ s.log.heap.live))
  | .push a => inferInstanceAs (Decidable (a ∈ s.log.logging))
  | .pause | .resume | .start => inferInstanceAs (Decidable True)
  | .enter w => inferInstanceAs (Decidable (s.writers w = .looping))
  | .wake w => inferInstanceAs (Decidable (s.writers w = .waiting))

variable {pl : Platform} {s t : MLogMonitor ω} {i : MonitorInput ω} {o : List (MonitorEvent ω)}

/-! ### One step -/

/-- A writer that is not to wait finds a message, and takes it. -/
theorem MLog.Owned.take_eq {s : MLog} (h : s.Owned) (hb : s.blocked = false) :
    ∃ a ∈ s.queue, s.take = some ({ s with
      queue := s.queue.erase a
      heap := ⟨s.heap.cell, s.heap.live.erase a⟩ }, a) := by
  have hqueue : s.queue ≠ [] := by
    rintro hnil
    simp [blocked, hnil] at hb
  cases htop : s.top with
  | none => exact absurd (List.max?_eq_none_iff.mp htop) hqueue
  | some a =>
    have hmem := MLog.top_mem htop
    refine ⟨a, hmem, ?_⟩
    simp only [MLog.take, htop, Option.bind_eq_bind, Option.bind_some,
      Heap.free_of_mem (h.live a (List.mem_append_right _ hmem))]
    rfl

/-- What a writer does under the lock: it waits, or takes a message from a logger that is not
paused. Either way it does not go wrong. -/
theorem MLogMonitor.locked_cases (h : s.log.Owned) (w : ω) :
    (s.locked w = some ({ s with writers := Function.update s.writers w .waiting }, [])) ∨
    ∃ a ∈ s.log.queue, s.log.isPause = false ∧
      s.locked w = some (⟨{ s.log with
        queue := s.log.queue.erase a
        heap := ⟨s.log.heap.cell, s.log.heap.live.erase a⟩ },
          Function.update s.writers w .looping⟩, [.removed w a (s.log.text a)]) := by
  cases hb : s.log.blocked with
  | true => exact Or.inl (if_pos hb)
  | false =>
    obtain ⟨a, hmem, htake⟩ := h.take_eq hb
    refine Or.inr ⟨a, hmem, (Bool.or_eq_false_iff.mp hb).1, ?_⟩
    rw [locked, if_neg (by simp [hb]), htake]
    rfl

/-- **Steps.** What a step does to the logger, with everything it changes there. -/
theorem monitor_cases (h : s.log.Owned) (ha : (monitorMachine pl ω).allowed s i)
    (hs : (monitorMachine pl ω).step s i = some (t, o)) :
    (∃ a text, a ∉ s.log.heap.live ∧ o = [] ∧ t.log = { s.log with
      heap := ⟨Function.update s.log.heap.cell a ⟨text⟩, insert a s.log.heap.live⟩
      logging := a :: s.log.logging }) ∨
    (∃ a ∈ s.log.logging, o = [.logged a (s.log.text a)] ∧ t.log = { s.log with
      queue := s.log.queue ++ [a], logging := s.log.logging.erase a }) ∨
    (o = [.paused] ∧ t.log = { s.log with isPause := true }) ∨
    (∃ isRun, o = [.resumed] ∧ t.log = { s.log with isRun, isPause := false }) ∨
    (o = [] ∧ t.log = s.log) ∨
    ∃ w, ∃ a ∈ s.log.queue, s.log.isPause = false ∧ o = [.removed w a (s.log.text a)] ∧
      t.log = { s.log with
        queue := s.log.queue.erase a
        heap := ⟨s.log.heap.cell, s.log.heap.live.erase a⟩ } := by
  have hlocked (w : ω) (hw : s.locked w = some (t, o)) : (o = [] ∧ t.log = s.log) ∨
      ∃ w, ∃ a ∈ s.log.queue, s.log.isPause = false ∧ o = [.removed w a (s.log.text a)] ∧
        t.log = { s.log with
          queue := s.log.queue.erase a
          heap := ⟨s.log.heap.cell, s.log.heap.live.erase a⟩ } := by
    obtain hwait | ⟨a, hmem, hpause, htake⟩ := MLogMonitor.locked_cases h w
    · obtain ⟨rfl, rfl⟩ := Prod.mk.inj (Option.some.inj (hwait.symm.trans hw))
      exact Or.inl ⟨rfl, rfl⟩
    · obtain ⟨rfl, rfl⟩ := Prod.mk.inj (Option.some.inj (htake.symm.trans hw))
      exact Or.inr ⟨w, a, hmem, hpause, rfl, rfl⟩
  cases i with
  | new a text =>
    simp only [monitorMachine, MLog.new_eq] at hs
    split_ifs at hs with hfit
    · obtain ⟨rfl, rfl⟩ : _ = t ∧ [] = o := by simpa using hs
      exact Or.inl ⟨a, text, ha, rfl, rfl⟩
    · cases hs
  | push a =>
    simp only [monitorMachine, h.push_eq ha, Option.map_some] at hs
    obtain ⟨rfl, rfl⟩ := Prod.mk.inj (Option.some.inj hs)
    exact Or.inr (Or.inl ⟨a, ha, rfl, rfl⟩)
  | pause =>
    obtain ⟨rfl, rfl⟩ := Prod.mk.inj (Option.some.inj hs)
    exact Or.inr (Or.inr (Or.inl ⟨rfl, rfl⟩))
  | resume =>
    obtain ⟨rfl, rfl⟩ := Prod.mk.inj (Option.some.inj hs)
    exact Or.inr (Or.inr (Or.inr (Or.inl ⟨s.log.isRun, rfl, rfl⟩)))
  | start =>
    obtain ⟨rfl, rfl⟩ := Prod.mk.inj (Option.some.inj hs)
    exact Or.inr (Or.inr (Or.inr (Or.inl ⟨true, rfl, rfl⟩)))
  | enter w =>
    have henter : s.enter w = some (t, o) := hs
    rw [MLogMonitor.enter] at henter
    split_ifs at henter with hrun
    · exact Or.inr (Or.inr (Or.inr (Or.inr (hlocked w henter))))
    · obtain ⟨rfl, rfl⟩ := Prod.mk.inj (Option.some.inj henter)
      exact Or.inr (Or.inr (Or.inr (Or.inr (Or.inl ⟨rfl, rfl⟩))))
  | wake w => exact Or.inr (Or.inr (Or.inr (Or.inr (hlocked w hs))))

variable {isPause : Bool} {cell : Addr → MLogMsg} {ins : List (MonitorInput ω)}
  {outs : List (MonitorEvent ω)}

theorem monitor_owned (h : (monitorMachine pl ω).Run (.init isPause cell) ins s outs) :
    s.log.Owned := by
  refine h.invariant (P := fun _ s _ => s.log.Owned) ⟨List.nodup_nil, fun _ => nofun⟩ ?_
  intro _ s _ i t o _ howned ha hs
  obtain ⟨a, text, hfresh, -, hlog⟩ | ⟨a, hmem, -, hlog⟩ | ⟨-, hlog⟩ | ⟨_, -, hlog⟩ | ⟨-, hlog⟩ |
    ⟨w, a, hmem, -, -, hlog⟩ := monitor_cases howned ha hs
  · rw [hlog]
    exact howned.new hfresh ⟨text⟩
  · rw [hlog]
    exact howned.push hmem
  · rw [hlog]
    exact ⟨howned.nodup, howned.live⟩
  · rw [hlog]
    exact ⟨howned.nodup, howned.live⟩
  · rw [hlog]
    exact howned
  · rw [hlog]
    exact howned.take hmem

/-- The only step that goes wrong is making a message of a text that does not fit; a writer, in
particular, never finds the queue empty when it comes to take something. -/
theorem monitor_safe (h : s.log.Owned) (ha : (monitorMachine pl ω).allowed s i) :
    (monitorMachine pl ω).step s i = none ↔
      ∃ a text, i = .new a text ∧ pl.sizeofPointer ≤ text.length := by
  have hlocked (w : ω) : s.locked w ≠ none := by
    obtain hwait | ⟨a, -, -, htake⟩ := MLogMonitor.locked_cases h w
    · rw [hwait]
      exact Option.some_ne_none _
    · rw [htake]
      exact Option.some_ne_none _
  cases i with
  | new a text =>
    simp only [monitorMachine, MLog.new_eq, Option.map_eq_none_iff, MonitorInput.new.injEq]
    split_ifs with hfit
    · refine iff_of_false not_false ?_
      rintro ⟨_, _, ⟨rfl, rfl⟩, hlong⟩
      omega
    · exact iff_of_true rfl ⟨a, text, ⟨rfl, rfl⟩, by omega⟩
  | push a =>
    refine iff_of_false ?_ (by rintro ⟨_, _, hi, -⟩; cases hi)
    simp [monitorMachine, h.push_eq ha]
  | pause => exact iff_of_false (Option.some_ne_none _) (by rintro ⟨_, _, hi, -⟩; cases hi)
  | resume => exact iff_of_false (Option.some_ne_none _) (by rintro ⟨_, _, hi, -⟩; cases hi)
  | start => exact iff_of_false (Option.some_ne_none _) (by rintro ⟨_, _, hi, -⟩; cases hi)
  | enter w =>
    refine iff_of_false ?_ (by rintro ⟨_, _, hi, -⟩; cases hi)
    show s.enter w ≠ none
    rw [MLogMonitor.enter]
    split_ifs
    · exact hlocked w
    · exact Option.some_ne_none _
  | wake w => exact iff_of_false (hlocked w) (by rintro ⟨_, _, hi, -⟩; cases hi)

/-! ### The messages -/

/-- The messages pushed, with their texts. -/
def pushed : List (MonitorEvent ω) → List (Addr × Text) :=
  List.filterMap fun
    | .logged a text => some (a, text)
    | _ => none

/-- The messages taken by the writers. -/
def removed : List (MonitorEvent ω) → List (Addr × Text) :=
  List.filterMap fun
    | .removed _ a text => some (a, text)
    | _ => none

omit [DecidableEq ω] in
theorem pushed_append (outs outs' : List (MonitorEvent ω)) :
    pushed (outs ++ outs') = pushed outs ++ pushed outs' := List.filterMap_append

omit [DecidableEq ω] in
theorem removed_append (outs outs' : List (MonitorEvent ω)) :
    removed (outs ++ outs') = removed outs ++ removed outs' := List.filterMap_append

/-- **Account.** The messages pushed are those taken and those in the queue. -/
theorem monitor_account (h : (monitorMachine pl ω).Run (.init isPause cell) ins s outs) :
    (pushed outs).Perm (removed outs ++ s.log.queue.map fun a => (a, s.log.text a)) := by
  refine h.invariant (P := fun _ s outs =>
    (pushed outs).Perm (removed outs ++ s.log.queue.map fun a => (a, s.log.text a))) ?_ ?_
  · exact List.Perm.refl []
  intro _ s outs i t o hrun ih ha hs
  have howned := monitor_owned hrun
  rw [pushed_append, removed_append]
  have hsame : (pushed outs ++ []).Perm
      (removed outs ++ [] ++ s.log.queue.map fun a => (a, s.log.text a)) := by
    rwa [List.append_nil, List.append_nil]
  obtain ⟨a, text, hfresh, rfl, hlog⟩ | ⟨a, -, rfl, hlog⟩ | ⟨rfl, hlog⟩ | ⟨_, rfl, hlog⟩ |
    ⟨rfl, hlog⟩ | ⟨w, a, hmem, -, rfl, hlog⟩ := monitor_cases howned ha hs
  · rw [hlog]
    show (pushed outs ++ []).Perm (removed outs ++ [] ++ s.log.queue.map fun b =>
      (b, (Function.update s.log.heap.cell a ⟨text⟩ b).msg))
    rwa [howned.map_text_new hfresh ⟨text⟩]
  · rw [hlog]
    show (pushed outs ++ [(a, s.log.text a)]).Perm
      (removed outs ++ [] ++ (s.log.queue ++ [a]).map fun b => (b, s.log.text b))
    rw [List.append_nil, List.map_append, ← List.append_assoc]
    exact ih.append_right _
  · rw [hlog]
    exact hsame
  · rw [hlog]
    exact hsame
  · rw [hlog]
    exact hsame
  · have hqueue := (List.perm_cons_erase hmem).map fun b => (b, s.log.text b)
    rw [hlog]
    show (pushed outs ++ []).Perm (removed outs ++ [(a, s.log.text a)] ++
      (s.log.queue.erase a).map fun b => (b, s.log.text b))
    rw [List.append_nil, List.append_assoc]
    exact ih.trans (hqueue.append_left _)

/-! ### Pauses -/

/-- Nothing is taken between a pause and the next resume. -/
def QuietWhilePaused (outs : List (MonitorEvent ω)) : Prop :=
  ∀ before middle w a text after,
    outs = before ++ .paused :: (middle ++ .removed w a text :: after) → .resumed ∈ middle

/-- Since its last pause the logger has been resumed, or it is paused. -/
def PausedSince (outs : List (MonitorEvent ω)) (isPause : Bool) : Prop :=
  ∀ before middle, outs = before ++ .paused :: middle → .resumed ∈ middle ∨ isPause = true

omit [DecidableEq ω] in
/-- What an event has to be for a quiet history to stay one. -/
theorem QuietWhilePaused.snoc {e : MonitorEvent ω} {b b' : Bool} (hq : QuietWhilePaused outs)
    (hp : PausedSince outs b) (hremoved : ∀ w a text, e = .removed w a text → b = false)
    (hpaused : b' = true ∨ e = .resumed ∨ e ≠ .paused ∧ b = false) :
    QuietWhilePaused (outs ++ [e]) ∧ PausedSince (outs ++ [e]) b' := by
  constructor
  · intro before middle w a text after h
    rw [← List.cons_append, ← List.append_assoc] at h
    obtain ⟨hbefore, he, -⟩ | ⟨after', -, h⟩ := snoc_eq_split.mp h
    · have hb := hremoved w a text he.symm
      exact (hp before middle hbefore.symm).resolve_right (by rw [hb]; exact Bool.false_ne_true)
    · rw [List.append_assoc, List.cons_append] at h
      exact hq before middle w a text after' h
  · intro before middle h
    obtain hb' | rfl | ⟨hne, hb⟩ := hpaused
    · exact Or.inr hb'
    · obtain ⟨-, he, -⟩ | ⟨middle', rfl, -⟩ := snoc_eq_split.mp h
      · cases he
      · exact Or.inl (List.mem_append_right _ (List.mem_singleton_self _))
    · obtain ⟨-, he, -⟩ | ⟨middle', rfl, hsplit⟩ := snoc_eq_split.mp h
      · exact absurd he.symm hne
      · have hresumed :=
          (hp before middle' hsplit).resolve_right (by rw [hb]; exact Bool.false_ne_true)
        exact Or.inl (List.mem_append_left _ hresumed)

theorem monitor_quiet (h : (monitorMachine pl ω).Run (.init isPause cell) ins s outs) :
    QuietWhilePaused outs ∧ PausedSince outs s.log.isPause := by
  refine h.invariant (P := fun _ s outs =>
    QuietWhilePaused outs ∧ PausedSince outs s.log.isPause) ⟨?_, ?_⟩ ?_
  · intro before middle w a text after h
    exact absurd h nil_ne_split
  · intro before middle h
    exact absurd h nil_ne_split
  rintro _ s outs i t o hrun ⟨hq, hp⟩ ha hs
  obtain ⟨a, text, -, rfl, hlog⟩ | ⟨a, -, rfl, hlog⟩ | ⟨rfl, hlog⟩ | ⟨_, rfl, hlog⟩ |
    ⟨rfl, hlog⟩ | ⟨w, a, -, hpause, rfl, hlog⟩ := monitor_cases (monitor_owned hrun) ha hs
  · rw [List.append_nil, hlog]
    exact ⟨hq, hp⟩
  · refine hq.snoc hp (fun _ _ _ => nofun) ?_
    rw [hlog]
    cases hb : s.log.isPause with
    | true => exact Or.inl rfl
    | false => exact Or.inr (Or.inr ⟨nofun, rfl⟩)
  · refine hq.snoc hp (fun _ _ _ => nofun) (Or.inl ?_)
    rw [hlog]
  · exact hq.snoc hp (fun _ _ _ => nofun) (Or.inr (Or.inl rfl))
  · rw [List.append_nil, hlog]
    exact ⟨hq, hp⟩
  · exact hq.snoc hp (fun _ _ _ _ => hpause) (Or.inr (Or.inr ⟨nofun, hpause⟩))

/-- **Pause and account.** Whatever the threads and the writers do, nothing is taken between a pause
and the next resume; the messages pushed are those taken and those still in the queue; and the only
step that goes wrong is making a message of a text that does not fit, so no writer takes anything
from an empty queue. -/
theorem pause_effective (h : (monitorMachine pl ω).Run (.init isPause cell) ins s outs) :
    QuietWhilePaused outs ∧
      (pushed outs : Multiset (Addr × Text)) =
        removed outs + s.log.queue.map (fun a => (a, s.log.text a)) ∧
      ∀ i, (monitorMachine pl ω).allowed s i → ((monitorMachine pl ω).step s i = none ↔
        ∃ a text, i = .new a text ∧ pl.sizeofPointer ≤ text.length) := by
  refine ⟨(monitor_quiet h).1, ?_, fun i ha => monitor_safe (monitor_owned h) ha⟩
  rw [Multiset.coe_add]
  exact Multiset.coe_eq_coe.mpr (monitor_account h)

/-- Two writers wait, one message comes, and both wake up: the second one finds the queue empty and
waits again. -/
theorem pause_effective_sample : ∃ (s : MLogMonitor Bool) (outs : List (MonitorEvent Bool)),
    (monitorMachine .x64 Bool).Run (.init false fun _ => ⟨[]⟩)
      [.enter false, .enter true, .new 16 [98], .push 16, .wake true, .wake false, .pause] s outs ∧
    QuietWhilePaused outs ∧ removed outs = [(16, [98])] ∧ s.writers false = .waiting := by
  have hrun : (monitorMachine .x64 Bool).Run (.init false fun _ => ⟨[]⟩)
      [.enter false, .enter true, .new 16 [98], .push 16, .wake true, .wake false, .pause] _ _ :=
    Machine.run_of_exec rfl
  exact ⟨_, _, hrun, (pause_effective hrun).1, rfl, rfl⟩

end Exec02
