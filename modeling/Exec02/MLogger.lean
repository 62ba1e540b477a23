import Exec02.Lib.Heap
import Exec02.Lib.Machine
import Mathlib.Algebra.Ring.Nat
import Mathlib.Data.List.MinMax

/-!
# The logger

`MLogger.cpp`: `log` makes a message on the heap and puts its address into a queue, and the writer
`handleLog` takes addresses out of it and prints. The queue is a `std::priority_queue` of pointers,
so what comes out next is decided by the addresses, and what is printed is a pointer, so what a line
says is decided by how the stream writes one. `logger_order` says which runs are not affected.

## Reading the model

Every section under `mtx` is one step, and so is `new MLogMsg(text)`, which comes before it and
which the allocator answers with an address of its choice. A message is constructed in a buffer of
`sizeof(char*)` bytes; a text that does not fit is undefined behaviour. Waking up is a step that
the writer may be offered at any time. Whether the logger is paused to begin with is left open,
since no constructor sets it. The time stamp is left out, which no line shows.

## Main results

* `mlogMachine_safe` — the only step that goes wrong is making a message of a text that does not fit
* `printed_of_faithful` — where every message taken is the oldest and reads like its text, the lines
  are the texts, in order
* `logger_order` — and these are the only such runs
-/

namespace Exec02

/-- A text, up to its NUL. -/
abbrev Text := List UInt8

/-- What the compiler and the runtime decide: the size of a pointer, and how a stream writes one. -/
structure Platform where
  sizeofPointer : ℕ
  writePointer : Addr → Text

variable (pl : Platform)

/-- `class MLogMsg`: what its buffer holds. -/
structure MLogMsg where
  msg : Text

/-- `MLogMsg(_msg)`: the buffer has `sizeof(_msg)` bytes, and `strcpy` needs one for the NUL. -/
def MLogMsg.new (text : Text) : Option MLogMsg :=
  if text.length + 1 ≤ pl.sizeofPointer then some ⟨text⟩ else none

/-- `class MLog`: the addresses in the queue, in the order they were pushed; those that a `log` has
made and not pushed; and the messages on the heap. -/
structure MLog where
  isRun : Bool
  isPause : Bool
  queue : List Addr
  logging : List Addr
  heap : Heap Addr MLogMsg

/-- What an observer sees of a logger: a text logged, and a line printed, each with the address of
its message. -/
inductive LogEvent
  | logged (a : Addr) (text : Text)
  | printed (a : Addr) (line : Text)
  deriving DecidableEq

/-- What can happen to a logger: a `log` makes its message at an address, and pushes it; a pause, a
resume; and the writer wakes up. -/
inductive LogInput
  | new (a : Addr) (text : Text)
  | push (a : Addr)
  | pause
  | resume
  | wake

namespace MLog

/-- `MLog()`. -/
def init (isPause : Bool) (cell : Addr → MLogMsg) : MLog := ⟨true, isPause, [], [], ⟨cell, ∅⟩⟩

/-- `log(_msg)`, up to the lock. -/
def new (s : MLog) (a : Addr) (text : Text) : Option MLog := do
  let msg ← MLogMsg.new pl text
  let heap ← (s.heap.alloc a).store a msg
  return { s with heap, logging := a :: s.logging }

/-- `log(_msg)`, under the lock. -/
def push (s : MLog) (a : Addr) : Option (MLog × List LogEvent) := do
  let msg ← s.heap.load a
  return ({ s with queue := s.queue ++ [a], logging := s.logging.erase a }, [.logged a msg.msg])

/-- `pause()`. -/
def pause (s : MLog) : MLog := { s with isPause := true }

/-- `resume()`. -/
def resume (s : MLog) : MLog := { s with isPause := false }

/-- `queue.top()`: the greatest address. -/
def top (s : MLog) : Option Addr := s.queue.max?

/-- Whether the writer goes on waiting, or has left its loop. -/
def waits (s : MLog) : Bool := !s.isRun || s.isPause || s.queue.isEmpty

/-- `handleLog()`, once round its loop: what is printed is the pointer. -/
def handleLog (s : MLog) : Option (MLog × List LogEvent) :=
  if s.waits then some (s, [])
  else do
    let msg ← s.top
    let heap ← s.heap.free msg
    return ({ s with queue := s.queue.erase msg, heap }, [.printed msg (pl.writePointer msg)])

end MLog

/-- The logger as a machine. -/
def mlogMachine : Machine MLog LogInput LogEvent where
  allowed s
    | .new a _ => a ∉ s.heap.live
    | .push a => a ∈ s.logging
    | .pause | .resume | .wake => True
  step s
    | .new a text => (s.new pl a text).map (·, [])
    | .push a => s.push a
    | .pause => some (s.pause, [])
    | .resume => some (s.resume, [])
    | .wake => s.handleLog pl

/-- The message the writer takes, if it takes one, is the one pushed first, and its address reads
like its text. -/
def Faithful (s : MLog) : LogInput → Prop
  | .wake => s.waits = false → ∀ a ∈ s.top,
      s.queue.head? = some a ∧ pl.writePointer a = (s.heap.cell a).msg
  | _ => True

/-! ### The heap and the queue -/

variable {pl} {s t : MLog} {i : LogInput} {o : List LogEvent}

namespace MLog

/-- The text of the message at an address. -/
def text (s : MLog) (a : Addr) : Text := (s.heap.cell a).msg

/-- Every address in the queue, or on its way there, is a message of its own. -/
structure Owned (s : MLog) : Prop where
  nodup : (s.logging ++ s.queue).Nodup
  live : ∀ a ∈ s.logging ++ s.queue, a ∈ s.heap.live

theorem top_mem {a : Addr} (h : s.top = some a) : a ∈ s.queue := List.max?_mem h

/-- A writer that does not wait has something to take. -/
theorem exists_top (h : s.waits = false) : ∃ a, s.top = some a := by
  have hqueue : s.queue ≠ [] := by
    rintro hnil
    simp [waits, hnil] at h
  cases htop : s.top with
  | none => exact absurd (List.max?_eq_none_iff.mp htop) hqueue
  | some a => exact ⟨a, rfl⟩

/-- Making a message: it has to fit, and then it is there and the others are as they were. -/
theorem new_eq (pl : Platform) (s : MLog) (a : Addr) (text : Text) :
    s.new pl a text = if text.length + 1 ≤ pl.sizeofPointer then
        some { s with
          heap := ⟨Function.update s.heap.cell a ⟨text⟩, insert a s.heap.live⟩
          logging := a :: s.logging }
      else none := by
  rw [new, MLogMsg.new]
  split_ifs with hfit
  · have hstore := Heap.store_of_mem (h := s.heap.alloc a) (v := (⟨text⟩ : MLogMsg))
      (Finset.mem_insert_self a s.heap.live)
    simp only [Option.bind_eq_bind, Option.bind_some, hstore]
    rfl
  · rfl

theorem Owned.push_eq (h : s.Owned) {a : Addr} (ha : a ∈ s.logging) :
    s.push a = some ({ s with queue := s.queue ++ [a], logging := s.logging.erase a },
      [.logged a (s.text a)]) := by
  rw [push, Heap.load_of_mem (h.live a (List.mem_append_left _ ha))]
  rfl

/-- The writer takes the greatest address, which is the address of a message. -/
theorem Owned.handleLog_eq (h : s.Owned) (hwaits : s.waits = false) {a : Addr}
    (htop : s.top = some a) :
    s.handleLog pl = some ({ s with
      queue := s.queue.erase a
      heap := ⟨s.heap.cell, s.heap.live.erase a⟩ }, [.printed a (pl.writePointer a)]) := by
  have hlive := h.live a (List.mem_append_right _ (top_mem htop))
  rw [handleLog, if_neg (by simp [hwaits]), htop]
  simp only [Option.bind_eq_bind, Option.bind_some, Heap.free_of_mem hlive]
  rfl

theorem handleLog_of_waits (hwaits : s.waits = true) : s.handleLog pl = some (s, []) :=
  if_pos hwaits

/-! ### Every step keeps the messages apart -/

theorem Owned.new (h : s.Owned) {a : Addr} (ha : a ∉ s.heap.live) (msg : MLogMsg) :
    Owned { s with
      heap := ⟨Function.update s.heap.cell a msg, insert a s.heap.live⟩
      logging := a :: s.logging } where
  nodup := List.nodup_cons.mpr ⟨fun hmem => ha (h.live a hmem), h.nodup⟩
  live b hb := by
    rcases List.mem_cons.mp hb with rfl | hb
    · exact Finset.mem_insert_self b _
    · exact Finset.mem_insert_of_mem (h.live b hb)

/-- Making a message does not touch those in the queue. -/
theorem Owned.map_text_new (h : s.Owned) {a : Addr} (ha : a ∉ s.heap.live) (msg : MLogMsg) :
    s.queue.map (fun b => (b, (Function.update s.heap.cell a msg b).msg)) =
      s.queue.map fun b => (b, s.text b) := by
  refine List.map_congr_left ?_
  intro b hb
  have hba : b ≠ a := by
    rintro rfl
    exact ha (h.live b (List.mem_append_right _ hb))
  rw [Function.update_of_ne hba]
  rfl

theorem Owned.push (h : s.Owned) {a : Addr} (ha : a ∈ s.logging) :
    Owned { s with queue := s.queue ++ [a], logging := s.logging.erase a } := by
  have hperm : (s.logging.erase a ++ (s.queue ++ [a])).Perm (s.logging ++ s.queue) := by
    rw [← List.append_assoc]
    refine (List.perm_append_singleton a _).trans ?_
    exact ((List.perm_cons_erase ha).append_right s.queue).symm
  exact ⟨hperm.nodup_iff.mpr h.nodup, fun b hb => h.live b (hperm.mem_iff.mp hb)⟩

theorem Owned.take (h : s.Owned) {a : Addr} (ha : a ∈ s.queue) :
    Owned { s with queue := s.queue.erase a, heap := ⟨s.heap.cell, s.heap.live.erase a⟩ } := by
  obtain ⟨hlogging, hqueue, hdisjoint⟩ := List.nodup_append.mp h.nodup
  have hsub : (s.logging ++ s.queue.erase a).Sublist (s.logging ++ s.queue) :=
    (List.Sublist.refl _).append List.erase_sublist
  refine ⟨h.nodup.sublist hsub, fun b hb => Finset.mem_erase.mpr ⟨?_, h.live b (hsub.subset hb)⟩⟩
  rintro rfl
  rcases List.mem_append.mp hb with hb | hb
  · exact hdisjoint b hb b ha rfl
  · exact hqueue.not_mem_erase hb

end MLog

/-- **Safety.** The only step that goes wrong is making a message of a text that does not fit. -/
theorem mlogMachine_safe (h : s.Owned) (ha : (mlogMachine pl).allowed s i) :
    (mlogMachine pl).step s i = none ↔
      ∃ a text, i = .new a text ∧ pl.sizeofPointer ≤ text.length := by
  cases i with
  | new a text =>
    simp only [mlogMachine, MLog.new_eq, Option.map_eq_none_iff, LogInput.new.injEq]
    split_ifs with hfit
    · refine iff_of_false not_false ?_
      rintro ⟨_, _, ⟨rfl, rfl⟩, hlong⟩
      omega
    · exact iff_of_true rfl ⟨a, text, ⟨rfl, rfl⟩, by omega⟩
  | push a =>
    refine iff_of_false ?_ (by rintro ⟨_, _, hi, -⟩; cases hi)
    show s.push a ≠ none
    rw [h.push_eq ha]
    exact Option.some_ne_none _
  | pause => exact iff_of_false (Option.some_ne_none _) (by rintro ⟨_, _, hi, -⟩; cases hi)
  | resume => exact iff_of_false (Option.some_ne_none _) (by rintro ⟨_, _, hi, -⟩; cases hi)
  | wake =>
    refine iff_of_false ?_ (by rintro ⟨_, _, hi, -⟩; cases hi)
    show s.handleLog pl ≠ none
    cases hwaits : s.waits with
    | true =>
      rw [MLog.handleLog_of_waits hwaits]
      exact Option.some_ne_none _
    | false =>
      obtain ⟨a, htop⟩ := MLog.exists_top hwaits
      rw [h.handleLog_eq hwaits htop]
      exact Option.some_ne_none _

/-- What a step does, with everything it changes. -/
theorem mlogMachine_cases (h : s.Owned) (ha : (mlogMachine pl).allowed s i)
    (hs : (mlogMachine pl).step s i = some (t, o)) :
    (∃ a text, i = .new a text ∧ o = [] ∧ t = { s with
      heap := ⟨Function.update s.heap.cell a ⟨text⟩, insert a s.heap.live⟩
      logging := a :: s.logging }) ∨
    (∃ a ∈ s.logging, i = .push a ∧ o = [.logged a (s.text a)] ∧
      t = { s with queue := s.queue ++ [a], logging := s.logging.erase a }) ∨
    (∃ b, (i = .pause ∨ i = .resume) ∧ o = [] ∧ t = { s with isPause := b }) ∨
    (i = .wake ∧ s.waits = true ∧ o = [] ∧ t = s) ∨
    ∃ a, i = .wake ∧ s.waits = false ∧ s.top = some a ∧ o = [.printed a (pl.writePointer a)] ∧
      t = { s with queue := s.queue.erase a, heap := ⟨s.heap.cell, s.heap.live.erase a⟩ } := by
  cases i with
  | new a text =>
    simp only [mlogMachine, MLog.new_eq] at hs
    split_ifs at hs with hfit
    · obtain ⟨rfl, rfl⟩ : _ = t ∧ [] = o := by simpa using hs
      exact Or.inl ⟨a, text, rfl, rfl, rfl⟩
    · cases hs
  | push a =>
    have hpush : s.push a = some (t, o) := hs
    rw [h.push_eq ha] at hpush
    obtain ⟨rfl, rfl⟩ : _ = t ∧ [.logged a (s.text a)] = o := by simpa using hpush
    exact Or.inr (Or.inl ⟨a, ha, rfl, rfl, rfl⟩)
  | pause =>
    obtain ⟨rfl, rfl⟩ : s.pause = t ∧ [] = o := by simpa [mlogMachine] using hs
    exact Or.inr (Or.inr (Or.inl ⟨true, Or.inl rfl, rfl, rfl⟩))
  | resume =>
    obtain ⟨rfl, rfl⟩ : s.resume = t ∧ [] = o := by simpa [mlogMachine] using hs
    exact Or.inr (Or.inr (Or.inl ⟨false, Or.inr rfl, rfl, rfl⟩))
  | wake =>
    have hwake : s.handleLog pl = some (t, o) := hs
    cases hwaits : s.waits with
    | true =>
      rw [MLog.handleLog_of_waits hwaits] at hwake
      obtain ⟨rfl, rfl⟩ : s = t ∧ [] = o := by simpa using hwake
      exact Or.inr (Or.inr (Or.inr (Or.inl ⟨rfl, rfl, rfl, rfl⟩)))
    | false =>
      obtain ⟨a, htop⟩ := MLog.exists_top hwaits
      rw [h.handleLog_eq hwaits htop] at hwake
      obtain ⟨rfl, rfl⟩ : _ = t ∧ [.printed a (pl.writePointer a)] = o := by simpa using hwake
      exact Or.inr (Or.inr (Or.inr (Or.inr ⟨a, rfl, rfl, htop, rfl, rfl⟩)))

theorem MLog.Owned.step (h : s.Owned) (ha : (mlogMachine pl).allowed s i)
    (hs : (mlogMachine pl).step s i = some (t, o)) : t.Owned := by
  obtain ⟨a, text, rfl, -, rfl⟩ | ⟨a, hlogging, rfl, -, rfl⟩ | ⟨b, -, -, rfl⟩ | ⟨-, -, -, rfl⟩ |
    ⟨a, -, -, htop, -, rfl⟩ := mlogMachine_cases h ha hs
  · exact h.new ha ⟨text⟩
  · exact h.push hlogging
  · exact ⟨h.nodup, h.live⟩
  · exact h
  · exact h.take (MLog.top_mem htop)

variable {isPause : Bool} {cell : Addr → MLogMsg} {ins : List LogInput} {outs : List LogEvent}

theorem mlogMachine_owned (h : (mlogMachine pl).Run (.init isPause cell) ins s outs) : s.Owned :=
  h.invariant (P := fun _ s _ => s.Owned) ⟨List.nodup_nil, fun _ => nofun⟩
    fun _ howned ha hs => howned.step ha hs

/-! ### The lines -/

/-- The messages logged, in order, with their texts. -/
def logged : List LogEvent → List (Addr × Text) :=
  List.filterMap fun
    | .logged a text => some (a, text)
    | .printed _ _ => none

/-- The messages taken, in order, with their lines. -/
def printed : List LogEvent → List (Addr × Text) :=
  List.filterMap fun
    | .logged _ _ => none
    | .printed a line => some (a, line)

/-- The texts, or the lines, alone. -/
abbrev texts (msgs : List (Addr × Text)) : List Text := msgs.map Prod.snd

theorem logged_append (outs outs' : List LogEvent) :
    logged (outs ++ outs') = logged outs ++ logged outs' := List.filterMap_append

theorem printed_append (outs outs' : List LogEvent) :
    printed (outs ++ outs') = printed outs ++ printed outs' := List.filterMap_append

/-- **Faithful runs.** Where every message taken is the oldest and reads like its text, what has
been logged is what has been printed and what is in the queue, in order. -/
theorem printed_of_faithful
    (h : ((mlogMachine pl).restrict (Faithful pl)).Run (.init isPause cell) ins s outs) :
    logged outs = printed outs ++ s.queue.map fun a => (a, s.text a) := by
  refine h.invariant (P := fun _ s outs =>
    logged outs = printed outs ++ s.queue.map fun a => (a, s.text a)) rfl ?_
  rintro ins s outs i t o hrun ih ⟨ha, hfaithful⟩ hs
  have howned := mlogMachine_owned hrun.of_restrict
  rw [logged_append, printed_append, ih]
  obtain ⟨a, text, rfl, rfl, rfl⟩ | ⟨a, -, rfl, rfl, rfl⟩ | ⟨b, -, rfl, rfl⟩ | ⟨-, -, rfl, rfl⟩ |
    ⟨a, rfl, hwaits, htop, rfl, rfl⟩ := mlogMachine_cases howned ha hs
  · show _ ++ [] = printed outs ++ [] ++ s.queue.map fun b =>
      (b, (Function.update s.heap.cell a ⟨text⟩ b).msg)
    rw [List.append_nil, List.append_nil, howned.map_text_new ha]
  · show _ ++ [(a, s.text a)] = printed outs ++ [] ++ (s.queue ++ [a]).map fun b => (b, s.text b)
    rw [List.append_nil, List.map_append, List.append_assoc]
    rfl
  · exact (List.append_nil _).trans (by rw [show printed [] = [] from rfl, List.append_nil]; rfl)
  · exact (List.append_nil _).trans (by rw [show printed [] = [] from rfl, List.append_nil])
  · obtain ⟨hhead, hline⟩ := hfaithful hwaits a htop
    obtain ⟨rest, hqueue⟩ := List.head?_eq_some_iff.mp hhead
    have holdest : (a, s.text a) = (a, pl.writePointer a) := by rw [hline]; rfl
    show printed outs ++ (s.queue.map fun b => (b, s.text b)) ++ [] =
      printed outs ++ [(a, pl.writePointer a)] ++ (s.queue.erase a).map fun b => (b, s.text b)
    rw [hqueue, List.erase_cons_head, List.map_cons, List.append_nil, List.append_assoc, holdest]
    rfl

/-- A faithful run that goes on in order goes on faithfully. -/
theorem faithful_of_prefix
    (h : ((mlogMachine pl).restrict (Faithful pl)).Run (.init isPause cell) ins s outs)
    (ha : (mlogMachine pl).allowed s i) (hs : (mlogMachine pl).step s i = some (t, o))
    (hfirst : printed (outs ++ o) <+: logged (outs ++ o)) : Faithful pl s i := by
  have howned := mlogMachine_owned h.of_restrict
  cases i with
  | wake =>
    intro hwaits a htop
    have hwake : s.handleLog pl = some (t, o) := hs
    rw [howned.handleLog_eq hwaits htop] at hwake
    obtain ⟨-, rfl⟩ : _ = t ∧ [.printed a (pl.writePointer a)] = o := by simpa using hwake
    rw [logged_append, printed_append, printed_of_faithful h, List.append_assoc,
      List.prefix_append_right_inj] at hfirst
    obtain ⟨rest, hrest⟩ : ∃ rest, (a, pl.writePointer a) :: rest =
        (s.queue.map fun b => (b, s.text b)) ++ [] := hfirst
    rw [List.append_nil] at hrest
    obtain ⟨b, queue, hqueue, hb, -⟩ := List.map_eq_cons_iff.mp hrest.symm
    obtain ⟨rfl, htext⟩ := Prod.mk.inj hb
    exact ⟨by rw [hqueue, List.head?_cons], htext.symm⟩
  | _ => trivial

/-- Nothing is printed that was not logged before. -/
theorem length_printed (h : (mlogMachine pl).Run (.init isPause cell) ins s outs) :
    (logged outs).length = (printed outs).length + s.queue.length := by
  refine h.invariant (P := fun _ s outs =>
    (logged outs).length = (printed outs).length + s.queue.length) rfl ?_
  intro ins s outs i t o hrun ih ha hs
  rw [logged_append, printed_append, List.length_append, List.length_append, ih]
  obtain ⟨a, text, -, rfl, rfl⟩ | ⟨a, -, -, rfl, rfl⟩ | ⟨b, -, rfl, rfl⟩ | ⟨-, -, rfl, rfl⟩ |
    ⟨a, -, -, htop, rfl, rfl⟩ := mlogMachine_cases (mlogMachine_owned hrun) ha hs
  · rfl
  · show _ + 1 = (printed outs).length + 0 + (s.queue ++ [a]).length
    rw [List.length_append, List.length_singleton]
    omega
  · rfl
  · rfl
  · have hmem := MLog.top_mem htop
    have hpos := List.length_pos_of_mem hmem
    show _ + 0 = (printed outs).length + 1 + (s.queue.erase a).length
    rw [List.length_erase_of_mem hmem]
    omega

/-- Where the messages taken are the first ones logged and their lines are their texts, they have
been so all along. -/
theorem prefix_of_prefix_append (h : (mlogMachine pl).Run (.init isPause cell) ins s outs)
    (o : List LogEvent) (hfirst : printed (outs ++ o) <+: logged (outs ++ o)) :
    printed outs <+: logged outs := by
  rw [logged_append, printed_append] at hfirst
  refine List.prefix_of_prefix_length_le ((List.prefix_append _ _).trans hfirst)
    (List.prefix_append _ _) ?_
  rw [length_printed h]
  exact Nat.le_add_right _ _

/-- The runs whose messages are taken in order and read like their texts are the faithful ones. -/
theorem prefix_iff_faithful (h : (mlogMachine pl).Run (.init isPause cell) ins s outs) :
    printed outs <+: logged outs ↔
      ((mlogMachine pl).restrict (Faithful pl)).Run (.init isPause cell) ins s outs := by
  refine ⟨?_, fun hfaithful => ⟨_, (printed_of_faithful hfaithful).symm⟩⟩
  refine h.invariant (P := fun ins s outs => printed outs <+: logged outs →
    ((mlogMachine pl).restrict (Faithful pl)).Run (.init isPause cell) ins s outs)
    (fun _ => .nil) ?_
  intro ins s outs i t o hrun ih ha hs hfirst
  have hfaithful := ih (prefix_of_prefix_append hrun o hfirst)
  exact hfaithful.snoc ⟨ha, faithful_of_prefix hfaithful ha hs hfirst⟩ hs

/-- Every line is an address. -/
theorem exists_of_mem_printed (h : (mlogMachine pl).Run (.init isPause cell) ins s outs) :
    ∀ line ∈ texts (printed outs), ∃ a, line = pl.writePointer a := by
  refine h.invariant (P := fun _ _ outs =>
    ∀ line ∈ texts (printed outs), ∃ a, line = pl.writePointer a) (fun _ => nofun) ?_
  intro ins s outs i t o hrun ih ha hs line hline
  rw [texts, printed_append, List.map_append] at hline
  rcases List.mem_append.mp hline with hline | hline
  · exact ih line hline
  · obtain ⟨a, text, -, rfl, -⟩ | ⟨a, -, -, rfl, -⟩ | ⟨b, -, rfl, -⟩ | ⟨-, -, rfl, -⟩ |
      ⟨a, -, -, -, rfl, -⟩ := mlogMachine_cases (mlogMachine_owned hrun) ha hs
    · cases hline
    · cases hline
    · cases hline
    · cases hline
    · exact ⟨a, List.mem_singleton.mp hline⟩

/-- **The order of the lines.** The messages taken are the first ones logged, in order, each with
its text for a line, in the runs in which every message taken is the one pushed first and its
address reads like its text, and in no others. Where no text logged reads like an address, the lines
alone are texts logged, each at most once and in order, in these runs only, which then print nothing
at all. And whatever happens, the only step that goes wrong is making a message of a text that does
not fit. -/
theorem logger_order (h : (mlogMachine pl).Run (.init isPause cell) ins s outs) :
    (printed outs <+: logged outs ↔
      ((mlogMachine pl).restrict (Faithful pl)).Run (.init isPause cell) ins s outs) ∧
    ((∀ a, pl.writePointer a ∉ texts (logged outs)) →
      ((texts (printed outs)).Sublist (texts (logged outs)) ↔
        ((mlogMachine pl).restrict (Faithful pl)).Run (.init isPause cell) ins s outs)) ∧
    ∀ i, (mlogMachine pl).allowed s i → ((mlogMachine pl).step s i = none ↔
      ∃ a text, i = .new a text ∧ pl.sizeofPointer ≤ text.length) := by
  have hiff := prefix_iff_faithful h
  refine ⟨hiff, fun hno => ⟨fun hsub => hiff.mp ?_, ?_⟩,
    fun i ha => mlogMachine_safe (mlogMachine_owned h) ha⟩
  · have hnil : texts (printed outs) = [] := by
      refine List.eq_nil_iff_forall_not_mem.mpr ?_
      intro line hline
      obtain ⟨a, rfl⟩ := exists_of_mem_printed h line hline
      exact hno a (hsub.subset hline)
    rw [List.map_eq_nil_iff.mp hnil]
    exact List.nil_prefix
  · intro hfaithful
    exact ((hiff.mpr hfaithful).map Prod.snd).sublist

/-! ### On a 64-bit platform -/

/-- A number in hexadecimal, with as many digits as asked for. -/
def writeHex (digits n : ℕ) : Text :=
  (List.range digits).reverse.map fun k =>
    let d := n / 16 ^ k % 16
    if d < 10 then UInt8.ofNat (48 + d) else UInt8.ofNat (55 + d)

/-- Pointers of eight bytes, written as sixteen digits. -/
def Platform.x64 : Platform := ⟨8, writeHex 16⟩

theorem length_writeHex (digits n : ℕ) : (writeHex digits n).length = digits := by
  simp [writeHex]

instance (s : MLog) : (i : LogInput) → Decidable ((mlogMachine pl).allowed s i)
  | .new a _ => inferInstanceAs (Decidable (a ∉ s.heap.live))
  | .push a => inferInstanceAs (Decidable (a ∈ s.logging))
  | .pause | .resume | .wake => inferInstanceAs (Decidable True)

/-- A text logged while the logger is paused, and a writer that wakes up all the same. -/
theorem logger_order_sample : ∃ s outs,
    ((mlogMachine .x64).restrict (Faithful .x64)).Run (.init false fun _ => ⟨[]⟩)
      [.new 16 [98], .pause, .push 16, .wake] s outs ∧
    (texts (printed outs)).Sublist (texts (logged outs)) ∧ texts (logged outs) = [[98]] := by
  have hrun : (mlogMachine .x64).Run (.init false fun _ => ⟨[]⟩)
      [.new 16 [98], .pause, .push 16, .wake] _ _ := Machine.run_of_exec rfl
  obtain ⟨hfirst, hlines, -⟩ := logger_order hrun
  have hfaithful := hfirst.mp List.nil_prefix
  refine ⟨_, _, hfaithful, (hlines ?_).mpr hfaithful, rfl⟩
  intro a ha
  have hlen := congrArg List.length (List.mem_singleton.mp ha)
  rw [show Platform.x64.writePointer a = writeHex 16 a from rfl, length_writeHex] at hlen
  cases hlen

/-- The texts `b` and `a`, and an allocator that goes up: the writer prints two addresses, and the
second message comes first. -/
theorem not_logger_order : ∃ s outs,
    (mlogMachine .x64).Run (.init false fun _ => ⟨[]⟩)
      [.new 16 [98], .push 16, .new 32 [97], .push 32, .wake, .wake] s outs ∧
    texts (logged outs) = [[98], [97]] ∧
    texts (printed outs) = [writeHex 16 32, writeHex 16 16] ∧
    ¬ (texts (printed outs)).Sublist (texts (logged outs)) :=
  ⟨_, _, Machine.run_of_exec rfl, rfl, rfl, by decide⟩

end Exec02
