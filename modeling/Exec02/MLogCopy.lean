import Exec02.MLogger
import Exec02.MLogStream

/-!
# Copying a logger

The copy constructor and the assignment of an `MLog`, in `MLogger.cpp`. Both are to give the target
a copy of each message of the other logger. The constructor makes a copy of the other queue and
takes the addresses out of that one by one. The assignment looks at the other queue, which it never
changes, and copies the top of its own; so it cannot end once the other queue has anything in it.

## Reading the model

The two loggers are different objects on one heap. `new` always finds an address, of its choice,
that is not in use. Copying one message is a parameter, which for the code is `MLogMsg.copy`; taking
the top of an empty queue is undefined, and so is copying a message that is not there. The lock of
the assignment is left out: nobody else takes part.

## Main results

* `copy_spec` — the constructor copies every queue
* `assignLoop_eq_none` — the assignment copies none but the empty one
* `assign_copies_iff` — both, for every pair of loggers
-/

namespace Exec02

/-- `enum MLogLevel`. -/
inductive MLogLevel
  | error
  | warning
  | info
  | debug
  | debug1
  | debug2
  | debug3
  | debug4
  deriving DecidableEq

/-- What a copy reads and writes of an `MLog`. The addresses in the queue stand in the order they
were pushed. -/
structure MLogFields where
  logLevel : MLogLevel
  os : MLogStream
  queue : List Addr

/-- Two loggers on one heap. -/
structure MLogPair where
  target : MLogFields
  other : MLogFields
  heap : Heap Addr MLogMsg

/-- `MLogMsg(other)`: the new buffer has `sizeof(other.msg)` bytes, which is the size of a
pointer again. -/
def MLogMsg.copy (pl : Platform) (other : MLogMsg) : Option MLogMsg := MLogMsg.new pl other.msg

namespace MLogPair

variable (new : OperatorNew) (copyMsg : MLogMsg → Option MLogMsg)

/-- The text of the message at an address. -/
def text (s : MLogPair) (a : Addr) : Text := (s.heap.cell a).msg

/-- `queue.push(new MLogMsg(*a))`. -/
def pushCopy (s : MLogPair) (a : Addr) : Option MLogPair := do
  let msg ← s.heap.load a
  let msg ← copyMsg msg
  let b := new.addr s.heap.live
  let heap ← (s.heap.alloc b).store b msg
  return { s with heap, target := { s.target with queue := s.target.queue ++ [b] } }

/-- The loop of the copy constructor, with what is left in its variable `q`. -/
def copyLoop : ℕ → MLogPair → List Addr → Option MLogPair
  | 0, _, _ => none
  | fuel + 1, s, q =>
    if q.isEmpty then some s
    else do
      let top ← q.max?
      let s ← pushCopy new copyMsg s top
      copyLoop fuel s (q.erase top)

/-- The target as it is before the body of the copy constructor. -/
def construct (s : MLogPair) : MLogPair :=
  { s with target := ⟨s.other.logLevel, .empty, []⟩ }

/-- `MLog(other)`. -/
def copy (fuel : ℕ) (s : MLogPair) : Option MLogPair :=
  copyLoop new copyMsg fuel s.construct s.other.queue

/-- The loop of the assignment: what it tests is the queue of `logger`, and what it copies is the
top of its own. -/
def assignLoop : ℕ → MLogPair → Option MLogPair
  | 0, _ => none
  | fuel + 1, s =>
    if s.other.queue.isEmpty then some s
    else do
      let top ← s.target.queue.max?
      let s ← pushCopy new copyMsg s top
      assignLoop fuel s

/-- `operator=(logger)`, where `logger` is another object. -/
def assign (fuel : ℕ) (s : MLogPair) : Option MLogPair :=
  assignLoop new copyMsg fuel { s with
    target := { s.target with
      os := s.target.os.clearFlags.put s.other.os.buffer
      logLevel := s.other.logLevel } }

/-- What copying the messages at `q` is to make of `s`: they are copied to new blocks `qs`, whose
addresses are in the target's queue behind what was there; everything else in use stays. -/
structure Copied (q : List Addr) (s t : MLogPair) (qs : List Addr) : Prop where
  other : t.other = s.other
  queue : t.target.queue = s.target.queue ++ qs
  nodup : qs.Nodup
  fresh : ∀ b ∈ qs, b ∉ s.heap.live ∧ b ∈ t.heap.live
  texts : (qs.map t.text).Perm (q.map s.text)
  kept : ∀ a ∈ s.heap.live, a ∈ t.heap.live ∧ t.heap.cell a = s.heap.cell a

/-- The target holds a copy of every message of the other logger. -/
def Copies (s t : MLogPair) : Prop := ∃ qs, Copied s.other.queue s t qs

/-- The messages at `q` are there, and copying one of them keeps its text. -/
def Copyable (s : MLogPair) (q : List Addr) : Prop :=
  ∀ a ∈ q, a ∈ s.heap.live ∧ ∃ m, copyMsg (s.heap.cell a) = some m ∧ m.msg = s.text a

variable {new} {copyMsg} {s t : MLogPair} {q qs : List Addr} {a b : Addr} {fuel : ℕ}

/-! ### One message -/

theorem pushCopy_spec (ha : a ∈ s.heap.live) {m : MLogMsg}
    (hcopy : copyMsg (s.heap.cell a) = some m) :
    pushCopy new copyMsg s a = some { s with
      heap := ⟨Function.update s.heap.cell (new.addr s.heap.live) m,
        insert (new.addr s.heap.live) s.heap.live⟩
      target := { s.target with queue := s.target.queue ++ [new.addr s.heap.live] } } := by
  have hstore := Heap.store_of_mem (h := s.heap.alloc (new.addr s.heap.live)) (v := m)
    (Finset.mem_insert_self _ s.heap.live)
  rw [pushCopy, Heap.load_of_mem ha]
  simp only [Option.bind_eq_bind, Option.bind_some, hcopy, hstore]
  rfl

theorem other_of_pushCopy (h : pushCopy new copyMsg s a = some t) : t.other = s.other := by
  obtain ⟨msg, -, h⟩ := Option.bind_eq_some_iff.mp h
  obtain ⟨msg', -, h⟩ := Option.bind_eq_some_iff.mp h
  obtain ⟨heap, -, h⟩ := Option.bind_eq_some_iff.mp h
  rw [← Option.some.inj h]

/-- A new message overwrites none that is in use. -/
theorem cell_update (hb : b ∉ s.heap.live) (m : MLogMsg) {c : Addr} (hc : c ∈ s.heap.live) :
    Function.update s.heap.cell b m c = s.heap.cell c := by
  refine Function.update_of_ne ?_ m s.heap.cell
  rintro rfl
  exact hb hc

/-- Nothing to copy. -/
theorem Copied.nil (hother : t.other = s.other) (hqueue : t.target.queue = s.target.queue)
    (hheap : t.heap = s.heap) : Copied [] s t [] where
  other := hother
  queue := by rw [hqueue, List.append_nil]
  nodup := List.nodup_nil
  fresh _ hb := absurd hb List.not_mem_nil
  texts := .refl _
  kept a ha := by
    rw [hheap]
    exact ⟨ha, rfl⟩

/-- Copying one message, to an address that was not in use, and then the others. -/
theorem Copied.cons (hq : ∀ c ∈ q, c ∈ s.heap.live) (ha : a ∈ q) (hb : b ∉ s.heap.live)
    {m : MLogMsg} (hm : m.msg = s.text a)
    (h : Copied (q.erase a) { s with
      heap := ⟨Function.update s.heap.cell b m, insert b s.heap.live⟩
      target := { s.target with queue := s.target.queue ++ [b] } } t qs) :
    Copied q s t (b :: qs) := by
  obtain ⟨hblive, hbcell⟩ := h.kept b (Finset.mem_insert_self b _)
  refine ⟨h.other, ?_, ?_, ?_, ?_, ?_⟩
  · rw [h.queue, List.append_assoc, List.singleton_append]
  · exact List.nodup_cons.mpr
      ⟨fun hmem => (h.fresh b hmem).1 (Finset.mem_insert_self b _), h.nodup⟩
  · intro c hc
    rcases List.mem_cons.mp hc with rfl | hc
    · exact ⟨hb, hblive⟩
    · obtain ⟨hnew, hlive⟩ := h.fresh c hc
      exact ⟨fun hmem => hnew (Finset.mem_insert_of_mem hmem), hlive⟩
  · have htext : t.text b = s.text a := by
      rw [text, hbcell, ← hm]
      exact congrArg MLogMsg.msg (Function.update_self b m s.heap.cell)
    have hrest : (qs.map t.text).Perm ((q.erase a).map s.text) := by
      refine h.texts.trans (List.Perm.of_eq (List.map_congr_left ?_))
      intro c hc
      exact congrArg MLogMsg.msg (cell_update hb m (hq c (List.mem_of_mem_erase hc)))
    rw [List.map_cons, htext]
    refine (hrest.cons _).trans ?_
    rw [← List.map_cons]
    exact ((List.perm_cons_erase ha).map s.text).symm
  · intro c hc
    obtain ⟨hlive, hcell⟩ := h.kept c (Finset.mem_insert_of_mem hc)
    exact ⟨hlive, hcell.trans (cell_update hb m hc)⟩

/-- What can be copied can be copied after another message was. -/
theorem Copyable.pushCopy (h : Copyable copyMsg s q) (hb : b ∉ s.heap.live) (m : MLogMsg)
    (target : MLogFields) : Copyable copyMsg { s with
      heap := ⟨Function.update s.heap.cell b m, insert b s.heap.live⟩, target } (q.erase a) := by
  intro c hc
  obtain ⟨hlive, hcopy⟩ := h c (List.mem_of_mem_erase hc)
  refine ⟨Finset.mem_insert_of_mem hlive, ?_⟩
  simp only [text, cell_update hb m hlive]
  exact hcopy

/-! ### The two loops -/

/-- **The constructor's loop.** Each turn takes one address out of `q`, so it ends. -/
theorem copyLoop_spec (hq : Copyable copyMsg s q) (hfuel : q.length < fuel) :
    ∃ t qs, copyLoop new copyMsg fuel s q = some t ∧ Copied q s t qs := by
  induction fuel generalizing s q with
  | zero => omega
  | succ fuel ih =>
    rw [copyLoop]
    split_ifs with hempty
    · rw [List.isEmpty_iff] at hempty
      subst hempty
      exact ⟨s, [], rfl, .nil rfl rfl rfl⟩
    · have hne : q ≠ [] := fun h => hempty (List.isEmpty_iff.mpr h)
      obtain ⟨top, htop⟩ := Option.ne_none_iff_exists'.mp (mt List.max?_eq_none_iff.mp hne)
      have hmem : top ∈ q := List.max?_mem htop
      obtain ⟨hlive, m, hcopy, hm⟩ := hq top hmem
      have hfresh := new.fresh s.heap.live
      have hlen : (q.erase top).length < fuel := by
        rw [List.length_erase_of_mem hmem]
        have := List.length_pos_of_mem hmem
        omega
      obtain ⟨t, qs, hrun, hcopied⟩ := ih (hq.pushCopy hfresh m _) hlen
      refine ⟨t, _, ?_, hcopied.cons (fun c hc => (hq c hc).1) hmem hfresh hm⟩
      simp only [Option.bind_eq_bind, htop, Option.bind_some, pushCopy_spec hlive hcopy]
      exact hrun

/-- **The assignment's loop.** A turn leaves the queue it tests alone, so that it never ends, unless
it finds nothing to copy in its own. -/
theorem assignLoop_eq_none (hother : s.other.queue ≠ []) (fuel : ℕ) :
    assignLoop new copyMsg fuel s = none := by
  induction fuel generalizing s with
  | zero => rfl
  | succ fuel ih =>
    rw [assignLoop, if_neg (mt List.isEmpty_iff.mp hother)]
    refine Option.bind_eq_none_iff.mpr fun top _ => Option.bind_eq_none_iff.mpr ?_
    intro t hpush
    apply ih
    rw [other_of_pushCopy hpush]
    exact hother

/-! ### The two operations -/

theorem assign_eq_none (hother : s.other.queue ≠ []) (fuel : ℕ) :
    assign new copyMsg fuel s = none := by
  apply assignLoop_eq_none
  exact hother

theorem copy_spec (hq : Copyable copyMsg s s.other.queue) (hfuel : s.other.queue.length < fuel) :
    ∃ t, copy new copyMsg fuel s = some t ∧ Copies s.construct t := by
  obtain ⟨t, qs, hrun, hcopied⟩ := copyLoop_spec (s := s.construct) hq hfuel
  exact ⟨t, hrun, qs, hcopied⟩

theorem assign_of_empty (hother : s.other.queue = []) :
    ∃ t, assign new copyMsg 1 s = some t ∧ Copies s t := by
  refine ⟨_, if_pos (List.isEmpty_iff.mpr hother), [], ?_⟩
  rw [hother]
  exact .nil rfl rfl rfl

/-- **Copying a logger.** Where the messages of the other logger can be copied, the copy constructor
ends with a copy of each of them in the queue of the new logger; the assignment ends so exactly if
there is nothing to copy. -/
theorem assign_copies_iff (hq : Copyable copyMsg s s.other.queue) :
    (∀ fuel, s.other.queue.length < fuel →
      ∃ t, copy new copyMsg fuel s = some t ∧ Copies s.construct t) ∧
    ((∃ fuel t, assign new copyMsg fuel s = some t ∧ Copies s t) ↔ s.other.queue = []) := by
  refine ⟨fun fuel hfuel => copy_spec hq hfuel, ?_, fun hother => ⟨1, assign_of_empty hother⟩⟩
  rintro ⟨fuel, t, hrun, -⟩
  by_contra hother
  rw [assign_eq_none hother] at hrun
  contradiction

/-- Two messages to copy, `"a"` and `"bc"`, and one in the target. -/
def sample : MLogPair where
  target := ⟨.info, .empty, [7]⟩
  other := ⟨.debug, .empty, [2, 5]⟩
  heap := ⟨fun a => ⟨if a = 2 then [97] else if a = 5 then [98, 99] else []⟩, {2, 5, 7}⟩

theorem assign_copies_sample :
    (∃ t, copy OperatorNew.next (MLogMsg.copy ⟨8, fun _ => []⟩) 3 sample = some t ∧
      Copies sample.construct t) ∧
    ¬ ∃ fuel t, assign OperatorNew.next (MLogMsg.copy ⟨8, fun _ => []⟩) fuel sample = some t ∧
      Copies sample t := by
  have hq : Copyable (MLogMsg.copy ⟨8, fun _ => []⟩) sample sample.other.queue := by
    intro a ha
    rcases List.mem_pair.mp ha with rfl | rfl
    · exact ⟨by decide, _, rfl, rfl⟩
    · exact ⟨by decide, _, rfl, rfl⟩
  refine ⟨(assign_copies_iff hq).1 3 (by decide), ?_⟩
  intro h
  exact absurd ((assign_copies_iff hq).2.mp h) (by decide)

/-- Assigning a logger that has a message does not end. -/
theorem not_assign_copies :
    ¬ ∃ fuel t, assign OperatorNew.next (MLogMsg.copy ⟨8, fun _ => []⟩) fuel sample = some t ∧
      Copies sample t := by
  rintro ⟨fuel, t, hrun, -⟩
  rw [assign_eq_none (by decide)] at hrun
  contradiction

end MLogPair

end Exec02
