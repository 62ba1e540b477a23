import Exec02.Lib.Ledger
import Exec02.MyEvents

/-!
# Who owns the event copies

`receive_event` makes two allocations, the copy and the node that holds it, and either can fail.
`process_event` takes the copy out of the queue, and frees it when its callback has returned. Here
the calls are the steps of a machine, in which a call of `process_event` is two: the callback is
whatever happens between them, and the copies it was called for are `pending`.

A copy belongs to the queue or to a pending `process_event`, until it is freed. The exception is a
`receive_event` that has got memory for the copy and gets none for the node: it answers `-1` and
forgets the copy.

## Main results

* `processEvent_eq` — the two halves make `process_event`
* `eventMachine_step` — what one step does to the copies
* `event_copies_owned_iff` — after every run, there is no copy without an owner unless a node was
  refused
-/

namespace Exec02

variable {ε : Type}

/-! ### Steps -/

/-- `process_event` as far as the call of `dispatch`: what it answers if it does not come to that,
and otherwise the event that `dispatch` is called with. -/
def processEvent.enter (s : EventMem ε) : Option (ℤ × EventMem ε × Option Addr) :=
  if s.queue.list.size < 1 then some (-1, s, none)
  else do
    let (ret, queue, data) ← queueDequeue s.queue none
    if ret ≠ 0 then return (-1, { s with queue := queue }, none)
    else
      let event ← data
      return (0, { s with queue := queue }, some event)

/-- `process_event` behind the call of `dispatch`. -/
def processEvent.leave (s : EventMem ε) (event : Addr) : Option (EventMem ε) := do
  let events ← s.events.free event
  return { s with events := events }

/-- **The halves of `process_event`.** -/
theorem processEvent_eq (s : EventMem ε)
    (dispatch : Addr → EventMem ε → Except Stop (EventMem ε × EventLog ε)) :
    processEvent s dispatch = do
      let (ret, s, event) ← Stop.orUndefined (processEvent.enter s)
      match event with
      | none => return (ret, s, [])
      | some event =>
        let (s, log) ← dispatch event s
        let s ← Stop.orUndefined (processEvent.leave s event)
        return (ret, s, log) := by
  unfold processEvent processEvent.enter
  split
  · rfl
  · cases queueDequeue s.queue none with
    | none => rfl
    | some r =>
      obtain ⟨ret, queue, data⟩ := r
      by_cases hret : ret = 0
      · cases data with
        | none => simp [hret, Stop.orUndefined, bind, Except.bind]
        | some event =>
          subst hret
          cases hd : dispatch event { s with queue := queue } with
          | error stop => simp [hd, Stop.orUndefined, bind, Except.bind, pure]
          | ok r =>
            cases hf : r.1.events.free event with
            | none =>
              simp [hd, hf, processEvent.leave, Stop.orUndefined, bind, Except.bind, pure]
            | some events =>
              simp [hd, hf, processEvent.leave, Stop.orUndefined, bind, Except.bind, pure]
      · simp [hret, Stop.orUndefined, bind, Except.bind, pure, Except.pure]

/-- The queue with its memory, and the events whose `dispatch` has not returned, latest first. -/
structure EventRun (ε : Type) where
  mem : EventMem ε
  pending : List Addr

/-- A call of `receive_event` with what its two `malloc`s answer, a call of `process_event`, and the
return of the `dispatch` that was called last. -/
inductive EventCall
  | receive (event : Addr) (mallocEvent mallocNode : Option Addr)
  | process
  | dispatched

/-- The event to be copied exists, and memory handed out is not in use. -/
def EventCall.Allowed (s : EventRun ε) : EventCall → Prop
  | .receive event mallocEvent mallocNode => event ∈ s.mem.events.live ∧
      (∀ b ∈ mallocEvent, b ∉ s.mem.events.live) ∧ ∀ x ∈ mallocNode, x ∉ s.mem.queue.live
  | .process => True
  | .dispatched => s.pending ≠ []

instance (s : EventRun ε) : (c : EventCall) → Decidable (c.Allowed s)
  | .receive event mallocEvent mallocNode => inferInstanceAs (Decidable (event ∈ s.mem.events.live ∧
      (∀ b ∈ mallocEvent, b ∉ s.mem.events.live) ∧ ∀ x ∈ mallocNode, x ∉ s.mem.queue.live))
  | .process => inferInstanceAs (Decidable True)
  | .dispatched => inferInstanceAs (Decidable (s.pending ≠ []))

/-- The event loop, observed at the copies it makes and frees. -/
def eventMachine (ε : Type) : Machine (EventRun ε) EventCall (BlockEvent Addr) where
  allowed s c := c.Allowed s
  step s
    | .receive event mallocEvent mallocNode => do
      let (_, mem) ← receiveEvent s.mem event mallocEvent mallocNode
      return ({ s with mem := mem }, mallocEvent.toList.map .made)
    | .process => do
      let (_, mem, event) ← processEvent.enter s.mem
      return (⟨mem, event.toList ++ s.pending⟩, [])
    | .dispatched =>
      match s.pending with
      | [] => none
      | event :: pending => do
        let mem ← processEvent.leave s.mem event
        return (⟨mem, pending⟩, [.freed event])

instance (s : EventRun ε) (c : EventCall) : Decidable ((eventMachine ε).allowed s c) :=
  inferInstanceAs (Decidable (c.Allowed s))

/-- Where there is memory for the copy there is some for the node. -/
def EventCall.GetsNode : EventCall → Prop
  | .receive _ mallocEvent mallocNode => mallocEvent.isSome → mallocNode.isSome
  | _ => True

/-- In front of the first call: the queue is initialised, and no callback runs. -/
def EventRun.start (s : EventMem ε) (destroy : Option Addr) : EventRun ε :=
  ⟨{ s with queue := listInit s.queue destroy }, []⟩

/-- Every copy is freed, or is in the queue once, or is being dispatched. `base` are the blocks that
others own. -/
def EventRun.Owned (base : Finset Addr) (s : EventRun ε) (evs : List (BlockEvent Addr)) : Prop :=
  s.mem.queue.WellFormed ∧ ∃ w : List Addr, s.mem.queue.contents = w.map some ∧
    Ledger base s.mem.events.live evs (w ++ s.pending)

/-! ### One step -/

section Step

variable {s : EventRun ε} {base : Finset Addr} {evs : List (BlockEvent Addr)}
  {w : List (Addr × Event ε)} {leaked : List Addr}

/-- Where the copies are: in the queue, being dispatched, or lost. -/
structure EventRun.Accounted (base : Finset Addr) (s : EventRun ε) (evs : List (BlockEvent Addr))
    (w : List (Addr × Event ε)) (leaked : List Addr) : Prop where
  waiting : s.mem.Waiting w
  ledger : Ledger base s.mem.events.live evs (w.map Prod.fst ++ s.pending ++ leaked)

/-- The copies are owned where none is lost. -/
theorem EventRun.Accounted.owned_iff (h : s.Accounted base evs w leaked) :
    s.Owned base evs ↔ leaked = [] := by
  obtain ⟨ns, hns, hdata⟩ := h.waiting.queue
  have hcontents : s.mem.queue.contents = (w.map Prod.fst).map some := by
    rw [hns.contents_eq, hdata, List.map_map]
    rfl
  constructor
  · rintro ⟨-, w', hw', hledger⟩
    rw [hcontents] at hw'
    have := List.map_injective_iff.mpr (Option.some_injective _) hw'
    subst this
    have hlen := (hledger.perm_of_live h.ledger).length_eq
    simpa using hlen
  · rintro rfl
    refine ⟨hns.wellFormed, _, hcontents, ?_⟩
    simpa using h.ledger

/-- `receive_event` without memory for the node: the copy is live, and in nobody's hands. -/
theorem receiveEvent_noNode {m : EventMem ε} {event block : Addr} (hm : m.Waiting w)
    (he : event ∈ m.events.live) (hb : block ∉ m.events.live) :
    ∃ m', receiveEvent m event (some block) none = some (-1, m') ∧ m'.Waiting w ∧
      m'.queue = m.queue ∧ m'.events.live = insert block m.events.live := by
  have hload : (m.events.alloc block).load event = some (m.events.cell event) :=
    Heap.load_of_mem (Finset.mem_insert_of_mem he)
  have hstore := Heap.store_of_mem (h := m.events.alloc block)
    (Finset.mem_insert_self ..) (m.events.cell event)
  have hne : ∀ p ∈ w, p.1 ≠ block := fun p hp hpb => hb (hpb ▸ hm.live p hp)
  refine ⟨⟨m.queue, ⟨Function.update m.events.cell block (m.events.cell event),
    insert block m.events.live⟩⟩, ?_, ?_, rfl, rfl⟩
  · simp only [receiveEvent, hload, hstore, Option.bind_eq_bind, Option.bind_some]
    rfl
  · exact ⟨hm.queue, hm.nodup, fun p hp => Finset.mem_insert_of_mem (hm.live p hp),
      fun p hp => (Function.update_of_ne (hne p hp) ..).trans (hm.cell p hp)⟩

/-- `process_event` takes out the oldest copy, if there is one. -/
theorem processEvent.enter_spec {m : EventMem ε} (hm : m.Waiting w) :
    (w = [] ∧ processEvent.enter m = some (-1, m, none)) ∨
      ∃ p w' queue, w = p :: w' ∧
        processEvent.enter m = some (0, { m with queue := queue }, some p.1) ∧
        EventMem.Waiting { m with queue := queue } w' := by
  cases w with
  | nil =>
    obtain ⟨ns, hns, hdata⟩ := hm.queue
    obtain rfl : ns = [] := by simpa using hdata
    exact Or.inl ⟨rfl, by rw [processEvent.enter, if_pos (by rw [hns.size]; simp)]⟩
  | cons p w =>
    obtain ⟨hsize, queue, hret, hq⟩ := hm.dequeue
    refine Or.inr ⟨p, w, queue, rfl, ?_, hq⟩
    rw [processEvent.enter, if_neg (by omega), hret]
    rfl

/-- `receive_event`, whatever its two `malloc`s answer. -/
theorem eventMachine_receive {event : Addr} {mallocEvent mallocNode : Option Addr}
    (h : s.Accounted base evs w leaked)
    (hc : (eventMachine ε).allowed s (.receive event mallocEvent mallocNode)) :
    ∃ t o w' leaked',
      (eventMachine ε).step s (.receive event mallocEvent mallocNode) = some (t, o) ∧
        t.Accounted base (evs ++ o) w' leaked' ∧
        (leaked' = [] ↔ leaked = [] ∧ (mallocEvent.isSome → mallocNode.isSome)) := by
  obtain ⟨he, hblock, hnode⟩ := hc
  cases mallocEvent with
  | none =>
    refine ⟨s, [], w, leaked, rfl, ?_, by simp⟩
    rwa [List.append_nil]
  | some block =>
    have hb := hblock block rfl
    have hmade := h.ledger.make hb
    cases mallocNode with
    | none =>
      obtain ⟨m', hret, hm', -, hlive⟩ := receiveEvent_noNode h.waiting he hb
      refine ⟨⟨m', s.pending⟩, [.made block], w, block :: leaked, ?_, ⟨hm', ?_⟩, by simp⟩
      · simp only [eventMachine, hret]
        rfl
      · rw [hlive]
        exact hmade.perm List.perm_middle.symm
    | some node =>
      obtain ⟨m', hret, hm', hlive⟩ := receiveEvent_spec h.waiting he hb (hnode node rfl)
      refine ⟨⟨m', s.pending⟩, [.made block], _, leaked, ?_, ⟨hm', ?_⟩, by simp⟩
      · simp only [eventMachine, hret]
        rfl
      · rw [hlive]
        refine hmade.perm ?_
        simp only [List.map_append, List.map_cons, List.map_nil, List.append_assoc]
        exact List.perm_middle.symm

/-- **One step.** Nothing goes wrong, the copies stay accounted for, and a copy is lost only by a
`receive_event` that gets it and no node. -/
theorem eventMachine_step {c : EventCall} (h : s.Accounted base evs w leaked)
    (hc : (eventMachine ε).allowed s c) :
    ∃ t o w' leaked', (eventMachine ε).step s c = some (t, o) ∧
      t.Accounted base (evs ++ o) w' leaked' ∧ (leaked' = [] ↔ leaked = [] ∧ c.GetsNode) := by
  cases c with
  | receive event mallocEvent mallocNode => exact eventMachine_receive h hc
  | process =>
    rcases processEvent.enter_spec h.waiting with ⟨rfl, hret⟩ | ⟨p, w', queue, rfl, hret, hq⟩
    · refine ⟨s, [], [], leaked, ?_, by rwa [List.append_nil], by simp [EventCall.GetsNode]⟩
      simp only [eventMachine, hret]
      rfl
    · refine ⟨⟨{ s.mem with queue := queue }, p.1 :: s.pending⟩, [], w', leaked, ?_, ⟨hq, ?_⟩,
        by simp [EventCall.GetsNode]⟩
      · simp only [eventMachine, hret]
        rfl
      · rw [List.append_nil]
        refine h.ledger.perm ?_
        simp only [List.map_cons, List.append_assoc, List.cons_append]
        exact List.perm_middle.symm
  | dispatched =>
    obtain ⟨m, pending⟩ := s
    cases pending with
    | nil => exact absurd rfl hc
    | cons event pending =>
      have hheld : (w.map Prod.fst ++ event :: pending ++ leaked).Perm
          (event :: (w.map Prod.fst ++ pending ++ leaked)) := by
        simp only [List.append_assoc, List.cons_append]
        exact List.perm_middle
      have hledger := h.ledger.perm hheld
      have hlive : event ∈ m.events.live := hledger.live_iff.mpr (Or.inr (List.mem_cons_self ..))
      have hqueued : event ∉ w.map Prod.fst := by
        intro hmem
        refine (List.nodup_cons.mp hledger.nodup).1 ?_
        exact List.mem_append_left _ (List.mem_append_left _ hmem)
      refine ⟨⟨{ m with events := ⟨m.events.cell, m.events.live.erase event⟩ }, pending⟩,
        [.freed event], w, leaked, ?_, ⟨h.waiting.erase hqueued, hledger.free⟩,
        by simp [EventCall.GetsNode]⟩
      simp only [eventMachine, processEvent.leave, Heap.free_of_mem hlive]
      rfl

end Step

/-! ### Whole runs -/

/-- A moment of a run: the copies are accounted for, and none is lost as long as every copy has got
a node. -/
theorem eventMachine_run {s₀ : EventMem ε} {destroy : Option Addr} {calls : List EventCall}
    {t : EventRun ε} {evs : List (BlockEvent Addr)}
    (h : (eventMachine ε).Run (.start s₀ destroy) calls t evs) :
    ∃ w leaked, t.Accounted s₀.events.live evs w leaked ∧
      (leaked = [] ↔ ((eventMachine ε).restrict fun _ c => c.GetsNode).Run (.start s₀ destroy) calls
        t evs) := by
  have hrecord := h.exists_record_iff (C := fun _ c => c.GetsNode)
    (I := fun _ t evs leaked => ∃ w, t.Accounted s₀.events.live evs w leaked)
    (Q := fun _ _ _ leaked => leaked = [])
    ⟨[], ⟨[], waiting_listInit s₀ destroy, .nil _⟩, rfl⟩ ?_
  · obtain ⟨leaked, ⟨w, hacc⟩, hlost⟩ := hrecord
    exact ⟨w, leaked, hacc, hlost⟩
  · rintro calls t evs c u o leaked hrun ⟨w, hacc⟩ ha hstep
    obtain ⟨u', o', w', leaked', hstep', hacc', hlost'⟩ := eventMachine_step hacc ha
    obtain ⟨rfl, rfl⟩ : u' = u ∧ o' = o := by simpa [hstep] using hstep'.symm
    exact ⟨leaked', ⟨w', hacc'⟩, hlost'⟩

/-- **Ownership.** After every run, nested as the callbacks like, every copy ever made has been
freed once, or is in one node of the queue or with the `process_event` that dispatches it, exactly
if no `receive_event` of the run got memory for its copy and none for the node. Nothing goes wrong
in any case; and a `receive_event` that answers `-1` changes nothing unless it is such a one. -/
theorem event_copies_owned_iff {s₀ : EventMem ε} {destroy : Option Addr} {calls : List EventCall}
    {t : EventRun ε} {evs : List (BlockEvent Addr)}
    (h : (eventMachine ε).Run (.start s₀ destroy) calls t evs) :
    (t.Owned s₀.events.live evs ↔
        ((eventMachine ε).restrict fun _ c => c.GetsNode).Run (.start s₀ destroy) calls t evs) ∧
      (∀ c, (eventMachine ε).allowed t c → ∃ u o, (eventMachine ε).step t c = some (u, o)) ∧
      ∀ event mallocEvent mallocNode,
        (eventMachine ε).allowed t (.receive event mallocEvent mallocNode) →
        ∃ ret m, receiveEvent t.mem event mallocEvent mallocNode = some (ret, m) ∧
          (ret = -1 ↔ mallocEvent = none ∨ mallocNode = none) ∧
          ((ret = -1 → m.queue = t.mem.queue ∧ m.events.live = t.mem.events.live) ↔
            EventCall.GetsNode (.receive event mallocEvent mallocNode)) := by
  obtain ⟨w, leaked, hacc, hlost⟩ := eventMachine_run h
  refine ⟨hacc.owned_iff.trans hlost, ?_, ?_⟩
  · intro c hc
    obtain ⟨u, o, -, -, hstep, -, -⟩ := eventMachine_step hacc hc
    exact ⟨u, o, hstep⟩
  · intro event mallocEvent mallocNode hc
    obtain ⟨he, hblock, hnode⟩ := hc
    cases mallocEvent with
    | none => exact ⟨-1, t.mem, rfl, by simp, by simp [EventCall.GetsNode]⟩
    | some block =>
      have hb := hblock block rfl
      cases mallocNode with
      | none =>
        obtain ⟨m, hret, -, -, hlive⟩ := receiveEvent_noNode hacc.waiting he hb
        refine ⟨-1, m, hret, by simp, iff_of_false ?_ (by simp [EventCall.GetsNode])⟩
        intro hsame
        rw [← (hsame rfl).2, hlive] at hb
        exact hb (Finset.mem_insert_self ..)
      | some node =>
        obtain ⟨m, hret, -, -⟩ := receiveEvent_spec hacc.waiting he hb (hnode node rfl)
        exact ⟨0, m, hret, by simp, by simp [EventCall.GetsNode]⟩

/-- A queue, and one event of its user. -/
def EventMem.sample : EventMem ℕ := ⟨.blank Addr, ⟨fun _ => ⟨some 7⟩, {0}⟩⟩

/-- A callback that receives the event it dispatches once more. -/
theorem event_copies_owned_nested : ∃ t evs,
    (eventMachine ℕ).Run (.start .sample none)
        [.receive 0 (some 1) (some 1), .process, .receive 1 (some 2) (some 2), .dispatched,
          .receive 0 none none] t evs ∧
      evs = [.made 1, .made 2, .freed 1] ∧ t.mem.queue.contents = [some 2] ∧
      (t.Owned {0} evs ↔ ((eventMachine ℕ).restrict fun _ c => c.GetsNode).Run (.start .sample none)
        [.receive 0 (some 1) (some 1), .process, .receive 1 (some 2) (some 2), .dispatched,
          .receive 0 none none] t evs) := by
  have hrun : (eventMachine ℕ).Run (.start .sample none)
      [.receive 0 (some 1) (some 1), .process, .receive 1 (some 2) (some 2), .dispatched,
        .receive 0 none none] _ _ :=
    Machine.run_of_exec rfl
  exact ⟨_, _, hrun, rfl, rfl, (event_copies_owned_iff hrun).1⟩

/-- A copy is made, its node is refused, and the copy stays. -/
theorem not_event_copies_owned : ∃ t evs,
    (eventMachine ℕ).Run (.start .sample none) [.receive 0 (some 1) none] t evs ∧
      (∃ m, receiveEvent (EventRun.start .sample none).mem 0 (some 1) none = some (-1, m) ∧
        m = t.mem) ∧
      t.mem.queue.contents = [] ∧ t.mem.events.live = {1, 0} ∧ ¬ t.Owned {0} evs := by
  have hrun : (eventMachine ℕ).Run (.start .sample none) [.receive 0 (some 1) none] _ _ :=
    Machine.run_of_exec rfl
  refine ⟨_, _, hrun, ⟨_, rfl, rfl⟩, rfl, rfl, ?_⟩
  rintro ⟨-, w, hw, hledger⟩
  obtain rfl : w = [] := List.map_eq_nil_iff.mp hw.symm
  rcases hledger.live_iff.mp (show 1 ∈ _ from by decide) with hmem | hmem
  · exact absurd hmem (by decide)
  · cases hmem

end Exec02
