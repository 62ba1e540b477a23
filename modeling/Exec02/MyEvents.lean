import Exec02.MyQueue

/-!
# The event loop

`MyEvents.c` on top of `MyQueue.c`. `receive_event` queues a copy of the caller's event;
`process_event` takes the oldest copy, hands it to a callback and frees it. The callback is
arbitrary code, and it may call both functions again on the same queue.

## Re-entrancy

What a callback does during one run is a finite tree: a sequence of calls, each `process_event`
among them carrying what its own callback does. `Script` is that tree, and quantifying over
scripts quantifies over all callbacks, whatever they compute and however deeply they nest. The
order inside `process_event` is what makes this safe: the copy leaves the queue before the
callback runs, and is freed only afterwards, so nothing the callback does can reach it again.

A script also fixes what `malloc` answers and which events the caller overwrites, and `exec`
tells apart the two ways it can stop early: `refused` is an environment that broke its word (memory
handed out twice, a queued copy overwritten from outside), `undefined` is the code going wrong.

## Main results

* `receiveEvent_spec`, `processEvent_empty`, `processEvent_cons` — one call
* `Script.exec_spec` — the induction over call trees
* `event_loop_run` — delivery for every run
-/

namespace Exec02

variable {ε : Type}

/-- `struct Event_`: one opaque pointer, copied as it is. -/
structure Event (ε : Type) where
  data : Option ε

/-- The queue, and the memory the events live in: the callers' own and the copies. -/
structure EventMem (ε : Type) where
  queue : ListMem Addr
  events : Heap Addr (Event ε)

/-- Why a run stops early. -/
inductive Stop
  /-- The environment did something it may not do. -/
  | refused
  /-- The program did something undefined. -/
  | undefined
  deriving DecidableEq

/-- A memory access that fails is undefined behaviour. -/
def Stop.orUndefined {α : Type} : Option α → Except Stop α
  | some a => .ok a
  | none => .error .undefined

/-- What an observer sees: copies accepted and dispatched, with their contents. -/
abbrev EventLog (ε : Type) := List (DequeEvent (Addr × Event ε))

/-! ### The two functions -/

/-- `receive_event`, with the answers of its two `malloc`s: the copy's and the node's. -/
def receiveEvent (s : EventMem ε) (event : Addr) (mallocEvent mallocNode : Option Addr) :
    Option (ℤ × EventMem ε) :=
  match mallocEvent with
  | none => some (-1, s)
  | some newEvent => do
    let events := s.events.alloc newEvent
    let events ← events.store newEvent (← events.load event)
    let (ret, queue) ← queueEnqueue s.queue (some newEvent) mallocNode
    if ret ≠ 0 then return (-1, ⟨queue, events⟩)
    return (0, ⟨queue, events⟩)

/-- `process_event`. The callback is given the state it runs in, and answers with the state it
leaves and what was observed meanwhile. -/
def processEvent (s : EventMem ε)
    (dispatch : Addr → EventMem ε → Except Stop (EventMem ε × EventLog ε)) :
    Except Stop (ℤ × EventMem ε × EventLog ε) :=
  if s.queue.list.size < 1 then .ok (-1, s, [])
  else do
    let (ret, queue, data) ← Stop.orUndefined (queueDequeue s.queue none)
    if ret ≠ 0 then return (-1, { s with queue := queue }, [])
    else
      let event ← Stop.orUndefined data
      let (s, log) ← dispatch event { s with queue := queue }
      let events ← Stop.orUndefined (s.events.free event)
      return (0, { s with events := events }, log)

/-! ### Call trees -/

/-- What a caller, or a callback, does: a sequence of calls and of stores to its own events. The
`handler` of a `process` is what the callback does if this `process_event` dispatches. -/
inductive Script (ε : Type)
  | done
  | receive (event block node : Addr) (rest : Script ε)
  | write (event : Addr) (value : Event ε) (rest : Script ε)
  | process (handler rest : Script ε)

/-- Run a script. -/
def Script.exec : Script ε → EventMem ε → Except Stop (EventMem ε × EventLog ε)
  | .done, s => .ok (s, [])
  | .receive event block node rest, s =>
    -- the caller's event exists, and both blocks handed out are fresh
    if event ∈ s.events.live ∧ block ∉ s.events.live ∧ node ∉ s.queue.live then do
      let (ret, t) ← Stop.orUndefined (receiveEvent s event (some block) (some node))
      let (u, log) ← rest.exec t
      let entry := (block, s.events.cell event)
      return (u, (if ret = 0 then .pushBack entry else .full entry) :: log)
    else .error .refused
  | .write event value rest, s =>
    -- any event may be overwritten but a copy that is still queued
    if event ∈ s.events.live ∧ some event ∉ s.queue.contents then do
      let events ← Stop.orUndefined (s.events.store event value)
      rest.exec { s with events := events }
    else .error .refused
  | .process handler rest, s => do
    let (ret, t, log) ← processEvent s fun event s => do
      let content ← Stop.orUndefined (s.events.load event)
      let (t, log) ← handler.exec s
      return (t, .take (event, content) :: log)
    let (u, log') ← rest.exec t
    return (u, (if ret = -1 then [.empty] else log) ++ log')

/-! ### One call -/

/-- `s.Waiting w`: the queue holds exactly the copies `w`, oldest first, each in a live block of its
own with the contents given. -/
structure EventMem.Waiting (s : EventMem ε) (w : List (Addr × Event ε)) : Prop where
  /-- The queue is a list of pointers to the copies. -/
  queue : ∃ ns, s.queue.Represents ns ∧ ns.map s.queue.data = w.map fun p => some p.1
  /-- No copy is queued twice. -/
  nodup : (w.map Prod.fst).Nodup
  /-- Each copy is live. -/
  live : ∀ p ∈ w, p.1 ∈ s.events.live
  /-- Each copy still has its contents. -/
  cell : ∀ p ∈ w, s.events.cell p.1 = p.2

section Calls

variable {s : EventMem ε} {w : List (Addr × Event ε)} {event block node : Addr}

theorem waiting_listInit (s : EventMem ε) (destroy : Option Addr) :
    EventMem.Waiting { s with queue := listInit s.queue destroy } [] :=
  ⟨⟨[], ListMem.represents_listInit s.queue destroy, rfl⟩, List.nodup_nil, by simp, by simp⟩

/-- `receive_event` queues a copy of the event as it is now. -/
theorem receiveEvent_spec (hs : s.Waiting w) (he : event ∈ s.events.live)
    (hb : block ∉ s.events.live) (hn : node ∉ s.queue.live) :
    ∃ s', receiveEvent s event (some block) (some node) = some (0, s') ∧
      s'.Waiting (w ++ [(block, s.events.cell event)]) ∧
      s'.events.live = insert block s.events.live := by
  obtain ⟨ns, hns, hdata⟩ := hs.queue
  obtain ⟨queue, hret, hns', hdata', -⟩ := queueEnqueue_spec hns hn (some block)
  have hload : (s.events.alloc block).load event = some (s.events.cell event) :=
    Heap.load_of_mem (Finset.mem_insert_of_mem he)
  have hstore := Heap.store_of_mem (h := s.events.alloc block)
    (Finset.mem_insert_self ..) (s.events.cell event)
  have hne : ∀ p ∈ w, p.1 ≠ block := fun p hp hpb => hb (hpb ▸ hs.live p hp)
  refine ⟨_, by simp [receiveEvent, hload, hstore, hret]; rfl, ⟨⟨_, hns', ?_⟩, ?_, ?_, ?_⟩, rfl⟩
  · rw [List.map_append, hdata', hns.map_update hn, hdata]
    simp
  · rw [List.map_append, List.nodup_append]
    refine ⟨hs.nodup, List.nodup_singleton _, ?_⟩
    intro a ha b hb'
    obtain ⟨p, hp, rfl⟩ := List.mem_map.mp ha
    obtain rfl : b = block := by simpa using hb'
    exact hne p hp
  · intro p hp
    rcases List.mem_append.mp hp with hp | hp
    · exact Finset.mem_insert_of_mem (hs.live p hp)
    · obtain rfl : p = _ := by simpa using hp
      exact Finset.mem_insert_self ..
  · intro p hp
    rcases List.mem_append.mp hp with hp | hp
    · exact (Function.update_of_ne (hne p hp) ..).trans (hs.cell p hp)
    · obtain rfl : p = _ := by simpa using hp
      exact Function.update_self ..

/-- What `process_event` takes out of the queue is the oldest copy. -/
theorem EventMem.Waiting.dequeue {c : Event ε} (hs : s.Waiting ((block, c) :: w)) :
    s.queue.list.size ≥ 1 ∧ ∃ queue, queueDequeue s.queue none = some (0, queue, some block) ∧
      EventMem.Waiting { s with queue := queue } w := by
  obtain ⟨ns, hns, hdata⟩ := hs.queue
  cases ns with
  | nil => simp at hdata
  | cons a ns =>
    simp only [List.map_cons, List.cons.injEq] at hdata
    obtain ⟨queue, hret, hns', hdata', -⟩ := listRemNext_front hns none
    have ha := (List.nodup_cons.mp hns.nodup).1
    refine ⟨by rw [hns.size]; simp, queue, by rw [queueDequeue, hret, hdata.1],
      ⟨ns, hns', ?_⟩, (List.nodup_cons.mp hs.nodup).2,
      fun p hp => hs.live p (List.mem_cons_of_mem _ hp),
      fun p hp => hs.cell p (List.mem_cons_of_mem _ hp)⟩
    rw [← hdata.2]
    exact List.map_congr_left fun b hb => hdata' b (by rintro rfl; exact ha hb)

variable (dispatch : Addr → EventMem ε → Except Stop (EventMem ε × EventLog ε))

/-- `process_event` on an empty queue. -/
theorem processEvent_empty (hs : s.Waiting []) :
    processEvent s dispatch = .ok (-1, s, []) := by
  obtain ⟨ns, hns, hdata⟩ := hs.queue
  obtain rfl : ns = [] := by simpa using hdata
  rw [processEvent, if_pos (by rw [hns.size]; simp)]

/-- `process_event` on a non-empty queue: the oldest copy is out of the queue when the callback
starts, and freed when it has returned. -/
theorem processEvent_cons {c : Event ε} (hs : s.Waiting ((block, c) :: w)) :
    ∃ queue, EventMem.Waiting { s with queue := queue } w ∧
      processEvent s dispatch = do
        let (t, log) ← dispatch block { s with queue := queue }
        let events ← Stop.orUndefined (t.events.free block)
        return (0, { t with events := events }, log) := by
  obtain ⟨hsize, queue, hret, hq⟩ := hs.dequeue
  refine ⟨queue, hq, ?_⟩
  rw [processEvent, if_neg (by omega), hret]
  rfl

/-- Freeing a block that is not queued leaves the queue as it is. -/
theorem EventMem.Waiting.erase (hs : s.Waiting w) (hb : block ∉ w.map Prod.fst) :
    EventMem.Waiting { s with events := ⟨s.events.cell, s.events.live.erase block⟩ } w := by
  refine ⟨hs.queue, hs.nodup, fun p hp => Finset.mem_erase_of_ne_of_mem ?_ (hs.live p hp), hs.cell⟩
  rintro rfl
  exact hb (List.mem_map_of_mem hp)

/-- Overwriting an event that is not queued leaves the queue as it is. -/
theorem EventMem.Waiting.store (hs : s.Waiting w) (hb : some block ∉ s.queue.contents)
    (value : Event ε) :
    EventMem.Waiting { s with events := ⟨Function.update s.events.cell block value, s.events.live⟩ }
      w := by
  obtain ⟨ns, hns, hdata⟩ := hs.queue
  rw [hns.contents_eq, hdata] at hb
  refine ⟨⟨ns, hns, hdata⟩, hs.nodup, hs.live, ?_⟩
  intro p hp
  refine (Function.update_of_ne ?_ ..).trans (hs.cell p hp)
  rintro rfl
  exact hb (List.mem_map.mpr ⟨p, hp, rfl⟩)

end Calls

/-! ### Whole runs -/

/-- What a run from `s`, with the copies `w` queued, may come to: it is refused by its environment,
or it ends with the queue its log accounts for. Either way no block that was live and not queued
has been touched by the queue, which is what a pending `process_event` relies on for the copy it
is about to free. -/
def Delivers (s : EventMem ε) (w : List (Addr × Event ε)) :
    Except Stop (EventMem ε × EventLog ε) → Prop
  | .error stop => stop = .refused
  | .ok (t, log) => ∃ w', t.Waiting w' ∧ Trace (DequeStep ⊤) w log w' ∧
      (∀ e ∈ log, e.IsQueue) ∧
      ∀ b ∈ s.events.live, b ∉ w.map Prod.fst → b ∈ t.events.live ∧ b ∉ w'.map Prod.fst

/-- A run that starts where another one stopped delivers on top of it. -/
theorem Delivers.after {s t : EventMem ε} {w v : List (Addr × Event ε)} {log : EventLog ε}
    {r : Except Stop (EventMem ε × EventLog ε)} (hrest : Delivers t v r)
    (htrace : Trace (DequeStep ⊤) w log v) (hqueue : ∀ e ∈ log, e.IsQueue)
    (hframe : ∀ b ∈ s.events.live, b ∉ w.map Prod.fst → b ∈ t.events.live ∧ b ∉ v.map Prod.fst) :
    Delivers s w (do
      let (u, log') ← r
      return (u, log ++ log')) := by
  cases r with
  | error stop => exact hrest
  | ok r =>
    obtain ⟨u, log'⟩ := r
    obtain ⟨w', hu, htrace', hqueue', hframe'⟩ := hrest
    refine ⟨w', hu, htrace.append htrace', List.forall_mem_append.mpr ⟨hqueue, hqueue'⟩, ?_⟩
    intro b hb hw
    obtain ⟨hbt, hbv⟩ := hframe b hb hw
    exact hframe' b hbt hbv

/-- **Call trees.** By induction on the script: the callback of a `process_event` is a subtree, and
finds the queue in order without the copy it was given. -/
theorem Script.exec_spec (script : Script ε) :
    ∀ {s : EventMem ε} {w : List (Addr × Event ε)}, s.Waiting w →
      Delivers s w (script.exec s) := by
  induction script with
  | done => exact fun {s w} hs => ⟨w, hs, .nil w, by simp, fun b hb hw => ⟨hb, hw⟩⟩
  | receive event block node rest ih =>
    intro s w hs
    rw [exec]
    split
    · next h =>
      obtain ⟨he, hb, hn⟩ := h
      obtain ⟨t, hret, ht, hlive⟩ := receiveEvent_spec hs he hb hn
      rw [hret]
      refine (ih ht).after (.cons (.pushBack (by simp)) (.nil _)) (by simp [DequeEvent.IsQueue])
        fun b hb' hw => ⟨?_, ?_⟩
      · rw [hlive]
        exact Finset.mem_insert_of_mem hb'
      · have hne : b ≠ block := by rintro rfl; exact hb hb'
        simpa [hne] using hw
    · rfl
  | write event value rest ih =>
    intro s w hs
    rw [exec]
    split
    · next h =>
      obtain ⟨he, hq⟩ := h
      rw [Heap.store_of_mem he]
      exact ih (hs.store hq value)
    · rfl
  | process handler rest ihh ihr =>
    intro s w hs
    rw [exec]
    cases w with
    | nil =>
      rw [processEvent_empty _ hs]
      exact (ihr hs).after (.cons .empty (.nil _)) (by simp [DequeEvent.IsQueue])
        fun b hb hw => ⟨hb, hw⟩
    | cons p w =>
      obtain ⟨block, c⟩ := p
      have hnd := List.nodup_cons.mp hs.nodup
      have hlive : block ∈ s.events.live := hs.live (block, c) (List.mem_cons_self ..)
      have hcell : s.events.cell block = c := hs.cell (block, c) (List.mem_cons_self ..)
      obtain ⟨queue, hq, hproc⟩ := processEvent_cons (fun event s => do
        let content ← Stop.orUndefined (s.events.load event)
        let (t, log) ← handler.exec s
        return (t, .take (event, content) :: log)) hs
      rw [hproc]
      have hhandler := ihh hq
      simp only [Heap.load_of_mem hlive, hcell, Stop.orUndefined, bind, Except.bind, pure,
        Except.pure]
      cases hexec : handler.exec { s with queue := queue } with
      | error stop => rw [hexec] at hhandler; exact hhandler
      | ok r =>
        obtain ⟨t, log⟩ := r
        rw [hexec] at hhandler
        obtain ⟨w₁, ht, htrace, hqueue, hframe⟩ := hhandler
        -- the copy being dispatched is still live and still not queued, so it can be freed
        obtain ⟨hbt, hbw⟩ := hframe block hlive hnd.1
        simp only [Heap.free_of_mem hbt]
        refine (ihr (ht.erase hbw)).after (.cons .take htrace)
          (List.forall_mem_cons.mpr ⟨trivial, hqueue⟩) ?_
        intro b hb hw
        simp only [List.map_cons, List.mem_cons, not_or] at hw
        obtain ⟨hbt', hbw'⟩ := hframe b hb hw.2
        exact ⟨Finset.mem_erase_of_ne_of_mem hw.1 hbt', hbw'⟩

/-- `process_event` answers `-1` exactly on an empty queue, whatever its callback would do. -/
theorem processEvent_refuses_iff {s : EventMem ε} {w : List (Addr × Event ε)} (hs : s.Waiting w)
    (dispatch : Addr → EventMem ε → Except Stop (EventMem ε × EventLog ε)) :
    (∃ t log, processEvent s dispatch = .ok (-1, t, log)) ↔ w = [] := by
  cases w with
  | nil => exact iff_of_true ⟨s, [], processEvent_empty dispatch hs⟩ rfl
  | cons p w =>
    refine iff_of_false ?_ (List.cons_ne_nil p w)
    rintro ⟨t, log, hproc⟩
    obtain ⟨queue, -, hcons⟩ := processEvent_cons dispatch hs
    rw [hcons] at hproc
    cases hd : dispatch p.1 { s with queue := queue } with
    | error stop => simp [hd, bind, Except.bind] at hproc
    | ok r =>
      cases hf : r.1.events.free p.1 with
      | none => simp [hd, hf, bind, Except.bind, Stop.orUndefined] at hproc
      | some events =>
        simp [hd, hf, bind, Except.bind, Stop.orUndefined, pure, Except.pure] at hproc

/-- **Delivery.** Whatever callers and callbacks do with one queue, nested as deep as they like, the
loop itself never goes wrong, and at every moment of the run the copies dispatched are the first
of the copies accepted, in order, each with the contents its event had when it was received.
`process_event` refuses exactly when every accepted event has been dispatched. -/
theorem event_loop_run (script : Script ε) (s₀ : EventMem ε) (destroy : Option Addr) :
    script.exec { s₀ with queue := listInit s₀.queue destroy } ≠ .error .undefined ∧
      ∀ t log, script.exec { s₀ with queue := listInit s₀.queue destroy } = .ok (t, log) →
        (∀ earlier later, log = earlier ++ later → taken earlier <+: accepted earlier) ∧
        (∀ earlier x later, log = earlier ++ .take x :: later →
          taken earlier ++ [x] <+: accepted earlier) ∧
        (∀ earlier later, log = earlier ++ .empty :: later → taken earlier = accepted earlier) ∧
        ∀ dispatch, (∃ u l, processEvent t dispatch = .ok (-1, u, l)) ↔
          taken log = accepted log := by
  have hspec := script.exec_spec (waiting_listInit s₀ destroy)
  refine ⟨?_, ?_⟩
  · intro hundef
    rw [hundef] at hspec
    cases hspec
  · intro t log hok
    rw [hok] at hspec
    obtain ⟨w, hw, htrace, hqueue, -⟩ := hspec
    -- a moment of the run is a way to cut its log in two
    have hcut : ∀ earlier later, log = earlier ++ later → ∃ v,
        Trace (DequeStep ⊤) [] earlier v ∧ Trace (DequeStep ⊤) v later w ∧
          accepted earlier = taken earlier ++ v := by
      intro earlier later hlog
      rw [hlog] at htrace hqueue
      obtain ⟨v, h₁, h₂⟩ := htrace.split
      exact ⟨v, h₁, h₂, by simpa using h₁.fifo fun e he => hqueue e (List.mem_append_left _ he)⟩
    refine ⟨?_, ?_, ?_, ?_⟩
    · intro earlier later hlog
      obtain ⟨v, -, -, hacc⟩ := hcut earlier later hlog
      exact ⟨v, hacc.symm⟩
    · intro earlier x later hlog
      obtain ⟨v, -, hlater, hacc⟩ := hcut earlier _ hlog
      cases hlater with
      | cons step _ =>
        cases step
        simp [hacc]
    · intro earlier later hlog
      obtain ⟨v, -, hlater, hacc⟩ := hcut earlier _ hlog
      cases hlater with
      | cons step _ =>
        cases step
        simpa using hacc.symm
    · intro dispatch
      obtain ⟨v, -, hnil, hacc⟩ := hcut log [] (by simp)
      cases hnil
      rw [processEvent_refuses_iff hw, hacc]
      simp

/-- A callback that receives a second event, overwrites its caller's and processes what it received:
the first event's contents are those it had when it was received. -/
example :
    let s₀ : EventMem ℕ := ⟨listInit (.blank Addr) none, ⟨fun _ => ⟨some 7⟩, {0}⟩⟩
    let callback : Script ℕ := .write 0 ⟨some 8⟩ (.receive 0 2 2 (.process .done .done))
    ((Script.receive 0 1 1 (.process callback (.process .done .done))).exec s₀).toOption.map
        (fun r => (taken r.2, r.1.queue.contents, r.1.events.live)) =
      some ([(1, ⟨some 7⟩), (2, ⟨some 8⟩)], [], {0}) := by
  rfl

end Exec02
