import Exec02.ChatRoom
import Exec02.Lib.SerialWriter

/-!
# The outgoing queue

The writing half of a `chat_session` (`MyTCPChatSrv01.cpp`) and of a `chat_client`
(`MyTCPChatCli01.cpp`): the deque `write_msgs_`, and the `async_write` whose buffer is the message
at its front. The two have the same code. They differ in what a failed write does, leaving the room
or closing the socket, and in whether the socket may be anything but connected, so both are
parameters here.

The deque never says whether a write is under way. The code reads it off `write_msgs_.empty()`, in
`push` before it appends and in `onWrite` after it pops, and `Outbox.Represents` is what makes both
readings right.

## Reading the model

A buffer names its message by its place, counted from the first message ever queued: `push_back`
leaves places alone, `pop_front` takes the first one away, and a place that is gone, like `front`
or `pop_front` of an empty deque, makes a step answer `none`. A write completes when its handler
runs, in a step of its own.

## Main results

* `Outbox.push_refines`, `Outbox.complete_refines` — both operations are traces of the
  one-at-a-time writer, and neither goes wrong
* `write_discipline` — what holds of sessions and clients at every moment of every run
-/

namespace Exec02

variable {μ ρ : Type}

/-- An `async_write` under way: the place of its message in the deque, what the message was when the
write was started, and whether the socket was connected then. -/
structure WriteOp (μ : Type) where
  place : ℕ
  msg : μ
  connected : Bool

/-- `write_msgs_`, of which `popped` messages have been popped so far, and the writes under way. -/
structure Outbox (μ : Type) where
  popped : ℕ
  writeMsgs : List μ
  writes : List (WriteOp μ)

/-- What the handler of a write asks of its owner besides writing on: nothing, or to give up. -/
inductive WriteAction
  | proceed
  | stop

namespace Outbox

/-- The outbox of a new session or client. -/
def empty : Outbox μ := ⟨0, [], []⟩

/-- The message at a place of the deque, where it is still there. -/
def lookup (out : Outbox μ) (place : ℕ) : Option μ :=
  if out.popped ≤ place then out.writeMsgs[place - out.popped]? else none

/-- `do_write`. -/
def doWrite (connected : Bool) (out : Outbox μ) : Option (Outbox μ × List (WriteEvent μ)) :=
  match out.writeMsgs with
  | [] => none
  | msg :: _ =>
    some ({ out with writes := out.writes ++ [⟨out.popped, msg, connected⟩] }, [.started msg])

/-- The body of `chat_session::deliver`, and of the handler that `chat_client::write` posts. -/
def push (connected : Bool) (out : Outbox μ) (msg : μ) :
    Option (Outbox μ × List (WriteEvent μ)) := do
  let writeInProgress := !out.writeMsgs.isEmpty
  let out := { out with writeMsgs := out.writeMsgs ++ [msg] }
  if !writeInProgress then
    let (out, evs) ← doWrite connected out
    return (out, .enqueued msg :: evs)
  else return (out, [.enqueued msg])

/-- The handler of `do_write`. -/
def onWrite (connected : Bool) (out : Outbox μ) (ok : Bool) :
    Option (Outbox μ × List (WriteEvent μ) × WriteAction) :=
  if ok then
    match out.writeMsgs with
    | [] => none
    | _ :: rest => do
      let out := { out with popped := out.popped + 1, writeMsgs := rest }
      if !rest.isEmpty then
        let (out, evs) ← doWrite connected out
        return (out, evs, .proceed)
      else return (out, [], .proceed)
  else some (out, [], .stop)

/-- After a write that succeeds there is nothing for the owner to do. -/
theorem onWrite_true {connected : Bool} {out out' : Outbox μ} {evs : List (WriteEvent μ)}
    {action : WriteAction} (h : out.onWrite connected true = some (out', evs, action)) :
    action = .proceed := by
  rw [onWrite, if_pos rfl] at h
  cases hmsgs : out.writeMsgs with
  | nil => simp [hmsgs] at h
  | cons msg rest =>
    cases rest with
    | nil =>
      obtain ⟨-, -, haction⟩ : _ = out' ∧ [] = evs ∧ .proceed = action := by simpa [hmsgs] using h
      exact haction.symm
    | cons next rest =>
      obtain ⟨-, -, haction⟩ : _ = out' ∧ [.started next] = evs ∧ .proceed = action := by
        simpa [hmsgs, doWrite] using h
      exact haction.symm

/-- The `k`-th write outstanding completes: what it sent is what is in its buffer. -/
def complete (connected : Bool) (out : Outbox μ) (k : ℕ) (ok : Bool) :
    Option (Outbox μ × List (WriteEvent μ) × WriteAction) := do
  let op ← out.writes[k]?
  let msg ← out.lookup op.place
  let (out, evs, action) ← onWrite connected { out with writes := out.writes.eraseIdx k } ok
  return (out, (if ok then .written msg else .failed msg) :: evs, action)

/-! ### The writer an outbox is -/

/-- What an outbox has to do with a writer. Either there is nothing to write, or the one write
outstanding is of the message at the front, or that message has failed and none is outstanding. -/
inductive Represents : Outbox μ → SerialWriter μ → Prop
  | idle (popped : ℕ) : Represents ⟨popped, [], []⟩ .idle
  | busy (popped : ℕ) (msg : μ) (rest : List μ) (connected : Bool) :
    Represents ⟨popped, msg :: rest, [⟨popped, msg, connected⟩]⟩ ⟨msg :: rest, true, false⟩
  | failed (popped : ℕ) (msg : μ) (rest : List μ) :
    Represents ⟨popped, msg :: rest, []⟩ ⟨msg :: rest, false, true⟩

theorem Represents.pending {out : Outbox μ} {w : SerialWriter μ} (h : Represents out w) :
    w.pending = out.writeMsgs := by
  cases h <;> rfl

/-- **Enqueueing.** The message joins the queue, and is started if the queue was empty. -/
theorem push_refines {out : Outbox μ} {w : SerialWriter μ} (h : Represents out w)
    (connected : Bool) (msg : μ) :
    ∃ out' evs w', out.push connected msg = some (out', evs) ∧ enqueued evs = [msg] ∧
      Trace WriteStep w evs w' ∧ Represents out' w' := by
  cases h with
  | idle popped =>
    exact ⟨_, _, _, rfl, rfl, .cons (.enqueue _ msg) (.single (.start msg [])),
      .busy popped msg [] connected⟩
  | busy popped front rest _ =>
    exact ⟨_, _, _, rfl, rfl, .single (.enqueue _ msg), .busy popped front (rest ++ [msg]) _⟩
  | failed popped front rest =>
    exact ⟨_, _, _, rfl, rfl, .single (.enqueue _ msg), .failed popped front (rest ++ [msg])⟩

/-- **Completion.** The message that was under way leaves the queue and the next one is started, or
it stays and nothing is. -/
theorem complete_refines {out : Outbox μ} {w : SerialWriter μ} (h : Represents out w)
    (connected : Bool) {k : ℕ} (hk : k < out.writes.length) (ok : Bool) :
    ∃ out' evs action w', out.complete connected k ok = some (out', evs, action) ∧
      enqueued evs = [] ∧ Trace WriteStep w evs w' ∧ Represents out' w' := by
  cases h with
  | idle popped => cases hk
  | failed popped front rest => cases hk
  | busy popped front rest started =>
    obtain rfl : k = 0 := by simpa using hk
    have hlookup : (⟨popped, front :: rest, [⟨popped, front, started⟩]⟩ : Outbox μ).lookup popped =
        some front := by
      simp [lookup]
    cases ok with
    | false =>
      refine ⟨⟨popped, front :: rest, []⟩, [.failed front], .stop, ⟨front :: rest, false, true⟩, ?_,
        rfl, .single (.fail front rest false), .failed popped front rest⟩
      simp [complete, hlookup, onWrite]
    | true =>
      cases rest with
      | nil =>
        refine ⟨⟨popped + 1, [], []⟩, [.written front], .proceed, .idle, ?_, rfl,
          .single (.written front [] false), .idle (popped + 1)⟩
        simp [complete, hlookup, onWrite]
      | cons next rest =>
        refine ⟨⟨popped + 1, next :: rest, [⟨popped + 1, next, connected⟩]⟩,
          [.written front, .started next], .proceed, ⟨next :: rest, true, false⟩, ?_,
          rfl, .cons (.written front (next :: rest) false) (.single (.start next rest)),
          .busy (popped + 1) next rest connected⟩
        simp [complete, hlookup, onWrite, doWrite]

end Outbox

/-! ### Sessions and clients -/

/-- The object an outbox is a member of: whether its socket is connected, and what it does when a
write fails. -/
structure WriteOwner (ρ : Type) where
  connected : ρ → Bool
  stop : ρ → ρ

/-- What can happen to an outbox: a message is enqueued, or the `k`-th write outstanding completes,
with or without an error. -/
inductive WriteInput (μ : Type)
  | enqueue (msg : μ)
  | complete (k : ℕ) (ok : Bool)

namespace WriteOwner

/-- Enqueue a message. -/
def push (own : WriteOwner ρ) (r : ρ) (out : Outbox μ) (msg : μ) :
    Option ((ρ × Outbox μ) × List (WriteEvent μ)) := do
  let (out, evs) ← out.push (own.connected r) msg
  return ((r, out), evs)

/-- Run the handler of a write, and give up where it says so. -/
def complete (own : WriteOwner ρ) (r : ρ) (out : Outbox μ) (k : ℕ) (ok : Bool) :
    Option ((ρ × Outbox μ) × List (WriteEvent μ)) := do
  let (out, evs, action) ← out.complete (own.connected r) k ok
  match action with
  | .proceed => return ((r, out), evs)
  | .stop => return ((own.stop r, out), evs)

theorem push_nil (own : WriteOwner ρ) (r : ρ) (popped : ℕ) (ws : List (WriteOp μ)) (msg : μ) :
    own.push r ⟨popped, [], ws⟩ msg =
      some ((r, ⟨popped, [msg], ws ++ [⟨popped, msg, own.connected r⟩]⟩),
        [.enqueued msg, .started msg]) := rfl

theorem push_cons (own : WriteOwner ρ) (r : ρ) (popped : ℕ) (front : μ) (rest : List μ)
    (ws : List (WriteOp μ)) (msg : μ) :
    own.push r ⟨popped, front :: rest, ws⟩ msg =
      some ((r, ⟨popped, front :: (rest ++ [msg]), ws⟩), [.enqueued msg]) := rfl

/-- The write of a message has failed, and stays in the queue. -/
theorem complete_front_false (own : WriteOwner ρ) (r : ρ) (popped : ℕ) (front : μ) (rest : List μ)
    (connected : Bool) :
    own.complete r ⟨popped, front :: rest, [⟨popped, front, connected⟩]⟩ 0 false =
      some ((own.stop r, ⟨popped, front :: rest, []⟩), [.failed front]) := by
  simp [complete, Outbox.complete, Outbox.lookup, Outbox.onWrite]

/-- The write of the last message has succeeded. -/
theorem complete_last (own : WriteOwner ρ) (r : ρ) (popped : ℕ) (front : μ) (connected : Bool) :
    own.complete r ⟨popped, [front], [⟨popped, front, connected⟩]⟩ 0 true =
      some ((r, ⟨popped + 1, [], []⟩), [.written front]) := by
  simp [complete, Outbox.complete, Outbox.lookup, Outbox.onWrite]

/-- The write of a message has succeeded, and the next one is begun. -/
theorem complete_next (own : WriteOwner ρ) (r : ρ) (popped : ℕ) (front next : μ) (rest : List μ)
    (connected : Bool) :
    own.complete r ⟨popped, front :: next :: rest, [⟨popped, front, connected⟩]⟩ 0 true =
      some ((r, ⟨popped + 1, next :: rest, [⟨popped + 1, next, own.connected r⟩]⟩),
        [.written front, .started next]) := by
  simp [complete, Outbox.complete, Outbox.lookup, Outbox.onWrite, Outbox.doWrite]

/-- A write that fails leaves the queue as it is, and its owner gives up. -/
theorem complete_false (own : WriteOwner ρ) {r r' : ρ} {out out' : Outbox μ} {k : ℕ}
    {evs : List (WriteEvent μ)} (h : own.complete r out k false = some ((r', out'), evs)) :
    r' = own.stop r ∧ out' = { out with writes := out.writes.eraseIdx k } := by
  obtain ⟨⟨out₁, evs₁, action⟩, hout, h⟩ := Option.bind_eq_some_iff.mp h
  obtain ⟨op, -, hout⟩ := Option.bind_eq_some_iff.mp hout
  obtain ⟨msg, -, hout⟩ := Option.bind_eq_some_iff.mp hout
  obtain ⟨rfl, -, rfl⟩ : { out with writes := out.writes.eraseIdx k } = out₁ ∧
      [.failed msg] = evs₁ ∧ WriteAction.stop = action := by
    simpa [Outbox.onWrite] using hout
  obtain ⟨⟨hr, hout⟩, -⟩ : (own.stop r = r' ∧ _ = out') ∧ evs₁ = evs := by simpa using h
  exact ⟨hr.symm, hout.symm⟩

/-- A write that succeeds is none of its owner's business. -/
theorem complete_true (own : WriteOwner ρ) {r r' : ρ} {out out' : Outbox μ} {k : ℕ}
    {evs : List (WriteEvent μ)} (h : own.complete r out k true = some ((r', out'), evs)) :
    r' = r := by
  obtain ⟨⟨out₁, evs₁, action⟩, hout, h⟩ := Option.bind_eq_some_iff.mp h
  obtain ⟨op, -, hout⟩ := Option.bind_eq_some_iff.mp hout
  obtain ⟨msg, -, hout⟩ := Option.bind_eq_some_iff.mp hout
  obtain ⟨⟨out₂, evs₂, action'⟩, hwrite, hout⟩ := Option.bind_eq_some_iff.mp hout
  obtain rfl := Outbox.onWrite_true hwrite
  obtain ⟨-, -, rfl⟩ : out₂ = out₁ ∧ .written msg :: evs₂ = evs₁ ∧
      WriteAction.proceed = action := by
    simpa using hout
  obtain ⟨⟨hr, -⟩, -⟩ : (r = r' ∧ out₁ = out') ∧ evs₁ = evs := by simpa using h
  exact hr.symm

theorem push_refines (own : WriteOwner ρ) {out : Outbox μ} {w : SerialWriter μ}
    (h : out.Represents w) (r : ρ) (msg : μ) :
    ∃ out' evs w', own.push r out msg = some ((r, out'), evs) ∧ enqueued evs = [msg] ∧
      Trace WriteStep w evs w' ∧ out'.Represents w' := by
  obtain ⟨out', evs, w', hpush, hevs, htrace, hrep⟩ := Outbox.push_refines h (own.connected r) msg
  exact ⟨out', evs, w', by simp [push, hpush], hevs, htrace, hrep⟩

theorem complete_refines (own : WriteOwner ρ) {out : Outbox μ} {w : SerialWriter μ}
    (h : out.Represents w) (r : ρ) {k : ℕ} (hk : k < out.writes.length) (ok : Bool) :
    ∃ r' out' evs w', own.complete r out k ok = some ((r', out'), evs) ∧ enqueued evs = [] ∧
      Trace WriteStep w evs w' ∧ out'.Represents w' := by
  obtain ⟨out', evs, action, w', hcomplete, hevs, htrace, hrep⟩ :=
    Outbox.complete_refines h (own.connected r) hk ok
  cases action with
  | proceed => exact ⟨r, out', evs, w', by simp [complete, hcomplete], hevs, htrace, hrep⟩
  | stop => exact ⟨own.stop r, out', evs, w', by simp [complete, hcomplete], hevs, htrace, hrep⟩

/-- An owner with its outbox, as a machine. -/
def machine (own : WriteOwner ρ) : Machine (ρ × Outbox μ) (WriteInput μ) (WriteEvent μ) where
  allowed s
    | .enqueue _ => True
    | .complete k _ => k < s.2.writes.length
  step s
    | .enqueue msg => own.push s.1 s.2 msg
    | .complete k ok => own.complete s.1 s.2 k ok

instance (own : WriteOwner ρ) (s : ρ × Outbox μ) (i : WriteInput μ) :
    Decidable (own.machine.allowed s i) :=
  match i with
  | .enqueue _ => inferInstanceAs (Decidable True)
  | .complete k _ => inferInstanceAs (Decidable (k < s.2.writes.length))

/-- **The outbox refines the one-at-a-time writer**, whoever owns it. -/
theorem machine_refines (own : WriteOwner ρ) :
    (own.machine : Machine (ρ × Outbox μ) _ _).Refines WriteStep fun s w => s.2.Represents w where
  step := by
    intro s w i h ha
    cases i with
    | enqueue msg =>
      obtain ⟨out, evs, w', hpush, -, htrace, hrep⟩ := own.push_refines h s.1 msg
      exact ⟨(s.1, out), evs, w', hpush, htrace, hrep⟩
    | complete k ok =>
      obtain ⟨r, out, evs, w', hcomplete, -, htrace, hrep⟩ := own.complete_refines h s.1 ha ok
      exact ⟨(r, out), evs, w', hcomplete, htrace, hrep⟩

end WriteOwner

/-! ### The discipline -/

/-- What holds of an outbox after the observations `evs`. -/
structure WriteDiscipline (out : Outbox μ) (evs : List (WriteEvent μ)) : Prop where
  /-- At most one write is outstanding. -/
  one : out.writes.length ≤ 1
  /-- Its buffer is the message at the front, which is still what it was when the write began. -/
  front : ∀ op ∈ out.writes, op.place = out.popped ∧ out.writeMsgs.head? = some op.msg ∧
    out.lookup op.place = some op.msg
  /-- Until a write fails, one is outstanding exactly when there is something to write. -/
  busy : (∀ msg, .failed msg ∉ evs) → (out.writes ≠ [] ↔ out.writeMsgs ≠ [])
  /-- What has been written is the first of what has been enqueued, in order. -/
  order : written evs <+: enqueued evs
  /-- After a failure nothing is started. -/
  silence : ∀ before after msg, evs = before ++ .failed msg :: after →
    ∀ msg', .started msg' ∉ after

/-- An outbox that represents a writer keeps the discipline. -/
theorem Outbox.Represents.discipline {out : Outbox μ} {w : SerialWriter μ}
    {evs : List (WriteEvent μ)} (h : out.Represents w) (htrace : Trace WriteStep .idle evs w) :
    WriteDiscipline out evs where
  one := by cases h <;> simp
  front := by
    cases h with
    | idle popped => simp
    | busy popped msg rest connected => simp [Outbox.lookup]
    | failed popped msg rest => simp
  busy hok := by
    cases h with
    | idle popped => simp
    | busy popped msg rest connected => simp
    | failed popped msg rest =>
      obtain h | ⟨msg, hmem⟩ := htrace.failed_iff.mp rfl
      · cases h
      · exact absurd hmem (hok msg)
  order := ⟨w.pending, htrace.enqueued_eq.symm⟩
  silence := by
    rintro before after msg rfl msg'
    obtain ⟨w₁, -, hafter⟩ := htrace.split
    cases hafter with
    | cons step rest => cases step with
      | fail _ _ _ => exact rest.not_started rfl msg'

/-- What a run of an owner comes to: the discipline, and that the next step cannot go wrong. -/
theorem WriteOwner.run_discipline (own : WriteOwner ρ) {r : ρ} {s : ρ × Outbox μ}
    {ins : List (WriteInput μ)} {evs : List (WriteEvent μ)}
    (h : own.machine.Run (r, .empty) ins s evs) :
    WriteDiscipline s.2 evs ∧ ∀ i, own.machine.allowed s i → (own.machine.step s i).isSome := by
  obtain ⟨w, htrace, hrep⟩ := own.machine_refines.run (Outbox.Represents.idle 0) h
  refine ⟨hrep.discipline htrace, ?_⟩
  intro i hi
  obtain ⟨t, o, -, hstep, -⟩ := own.machine_refines.step hrep hi
  rw [hstep]
  rfl

/-- The state of a client's socket. -/
inductive Socket
  | unconnected
  | connected
  | closed
  deriving DecidableEq

section

variable {π : Type} [LinearOrder π]

/-- A `chat_session`: its socket is connected from the start, and it leaves the room when a write
fails. -/
def chatSession (participant : π) : WriteOwner (ChatRoom π μ) where
  connected _ := true
  stop room := room.leave participant

/-- A `chat_client`: it closes its socket when a write fails. -/
def chatClient : WriteOwner Socket where
  connected socket := socket = .connected
  stop _ := .closed

/-- **Write discipline.** At every moment of every run, of a session or of a client on a connected
socket: at most one write is outstanding, of the message at the front, which stays there until it
completes; until one fails, a write is outstanding exactly when the queue is not empty; what is
written is the first of what is enqueued; and after a failure nothing is started. Nor can the next
step go wrong. -/
theorem write_discipline (participant : π) :
    (∀ (room : ChatRoom π μ) ins (s : ChatRoom π μ × Outbox μ) evs,
      (chatSession participant).machine.Run (room, .empty) ins s evs →
        WriteDiscipline s.2 evs ∧ ∀ i, (chatSession participant).machine.allowed s i →
          ((chatSession participant).machine.step s i).isSome) ∧
    ∀ ins (s : Socket × Outbox μ) evs, chatClient.machine.Run (.connected, .empty) ins s evs →
      WriteDiscipline s.2 evs ∧ ∀ i, chatClient.machine.allowed s i →
        (chatClient.machine.step s i).isSome :=
  ⟨fun _ _ _ _ h => (chatSession participant).run_discipline h,
    fun _ _ _ h => chatClient.run_discipline h⟩

/-- Three messages, of which the second fails and the third is never started. The session has left
its room by then, and the client has closed its socket. -/
theorem write_discipline_sample :
    let room : ChatRoom ℕ ℕ := ⟨⟨[1], by simp⟩, []⟩
    let ins : List (WriteInput ℕ) :=
      [.enqueue 7, .enqueue 8, .complete 0 true, .complete 0 false, .enqueue 9]
    let out : Outbox ℕ := ⟨1, [8, 9], []⟩
    let evs : List (WriteEvent ℕ) := [.enqueued 7, .started 7, .enqueued 8, .written 7, .started 8,
      .failed 8, .enqueued 9]
    (chatSession 1).machine.Run (room, .empty) ins (.empty, out) evs ∧
      chatClient.machine.Run (.connected, .empty) ins (.closed, out) evs ∧
      WriteDiscipline out evs := by
  intro room ins out evs
  have hsession : (chatSession 1).machine.Run (room, .empty) ins (.empty, out) evs :=
    Machine.run_of_exec rfl
  have hclient : chatClient.machine.Run (.connected, .empty) ins (.closed, out) evs :=
    Machine.run_of_exec rfl
  obtain ⟨hdiscipline, -⟩ := (write_discipline 1).1 room ins _ evs hsession
  exact ⟨hsession, hclient, hdiscipline⟩

end

end Exec02
