import Exec02.ChatMessage
import Exec02.ChatOutbox

/-!
# The chat client

`MyTCPChatCli01.cpp` as a whole: the thread of `main`, which reads lines and calls `write` for each
and `close` at the end, and the thread of the `io_context`, which runs what those calls post and the
handlers of the connection.

`close` is posted behind the writes, and `main` waits for the `io_context` to run dry. But the
handler that `write` posts only queues its message and starts the first write; the socket may not be
connected by then, and the rest of the queue is written from the handlers of later completions.
`close` runs before those. `shutdown_iff` says when that costs no message.

## Reading the model

One step is one call of `main` or one handler; handlers run one at a time, the posted ones in
order. A write that was started before the socket was connected, or whose socket has been
closed, cannot succeed. `NetworkOk` is an environment in which nothing else goes wrong.

## Main results

* `clientMachine_account` — every message passed to `write` is written, queued or still posted
* `timely_or_stuck` — a run meets its deadlines, or a message at the front can never be written
* `shutdown_iff` — exactly which shutdowns lose nothing
-/

namespace Exec02

/-- A handler posted to the `io_context`. -/
inductive Posted
  | write (msg : ChatMessage)
  | close

/-- `class chat_client` with what is outstanding on its `io_context`: whether the connection is
being made, the handlers posted, and whether `main` has called `close`. -/
structure ChatClient where
  socket : Socket
  reader : Reader
  outbox : Outbox ChatMessage
  connecting : Bool
  posted : List Posted
  closing : Bool

/-- What an observer sees of a client: a message passed to `write`, what becomes of its queue, and a
body printed. -/
inductive ClientEvent
  | passed (msg : ChatMessage)
  | queue (e : WriteEvent ChatMessage)
  | printed (body : List UInt8)

/-- What can happen to a client: the two calls of `main`, the next posted handler, and the
completions of the connection, of the `k`-th write outstanding, and of a read. -/
inductive ClientInput
  | write (msg : ChatMessage)
  | close
  | runPosted
  | connect (ok : Bool)
  | complete (k : ℕ) (ok : Bool)
  | read (op : ReadOp) (bytes : Option (List UInt8))

namespace ChatClient

/-- The constructor, over storage that held `readMsg`. -/
def new (readMsg : ChatMessage) : ChatClient :=
  ⟨.unconnected, ⟨readMsg, none⟩, .empty, true, [], false⟩

/-- `write(msg)`. -/
def write (c : ChatClient) (msg : ChatMessage) : ChatClient :=
  { c with posted := c.posted ++ [.write msg] }

/-- `close()`. -/
def close (c : ChatClient) : ChatClient :=
  { c with posted := c.posted ++ [.close], closing := true }

/-- The next posted handler. -/
def runPosted (c : ChatClient) : Option (ChatClient × List ClientEvent) :=
  match c.posted with
  | [] => none
  | .write msg :: posted => do
    let ((socket, outbox), evs) ← chatClient.push c.socket c.outbox msg
    return ({ c with socket, outbox, posted }, evs.map .queue)
  | .close :: posted => some ({ c with socket := .closed, posted }, [])

/-- The handler of `do_connect`. -/
def onConnect (c : ChatClient) (ok : Bool) : ChatClient :=
  if ok then
    { c with connecting := false, socket := .connected, reader := c.reader.doReadHeader }
  else { c with connecting := false }

/-- The handler of `do_write`. -/
def onWrite (c : ChatClient) (k : ℕ) (ok : Bool) : Option (ChatClient × List ClientEvent) := do
  let ((socket, outbox), evs) ← chatClient.complete c.socket c.outbox k ok
  return ({ c with socket, outbox }, evs.map .queue)

/-- The handlers of `do_read_header` and `do_read_body`. -/
def onRead (crt : InvalidParameter) (c : ChatClient) (op : ReadOp) (bytes : Option (List UInt8)) :
    Option (ChatClient × List ClientEvent) := do
  let (reader, action) ← c.reader.onRead crt op bytes
  match action with
  | .proceed => return ({ c with reader }, [])
  | .deliver msg => return ({ c with reader }, [.printed msg.body])
  | .stop => return ({ c with reader, socket := .closed }, [])

/-- Whether a write can succeed. -/
def Sound (c : ChatClient) (op : WriteOp ChatMessage) : Prop :=
  op.connected ∧ c.socket = .connected

instance (c : ChatClient) (op : WriteOp ChatMessage) : Decidable (c.Sound op) :=
  inferInstanceAs (Decidable (_ ∧ _))

/-- Whether the handler of a read reads on. -/
def accepts (crt : InvalidParameter) (c : ChatClient) (op : ReadOp)
    (bytes : Option (List UInt8)) : Bool :=
  match c.reader.onRead crt op bytes with
  | some (_, .proceed) | some (_, .deliver _) => true
  | _ => false

end ChatClient

/-- The client as a machine. -/
def clientMachine (crt : InvalidParameter) : Machine ChatClient ClientInput ClientEvent where
  allowed c
    | .write _ | .close => c.closing = false
    | .runPosted => c.posted ≠ []
    | .connect ok => c.connecting ∧ (ok → c.socket ≠ .closed)
    | .complete k ok => ∃ op ∈ c.outbox.writes[k]?, ok → c.Sound op
    | .read op bytes => c.reader.Awaits op bytes ∧ (c.socket = .closed → bytes = none)
  step c
    | .write msg => some (c.write msg, [.passed msg])
    | .close => some (c.close, [])
    | .runPosted => c.runPosted
    | .connect ok => some (c.onConnect ok, [])
    | .complete k ok => c.onWrite k ok
    | .read op bytes => c.onRead crt op bytes

instance (crt : InvalidParameter) (c : ChatClient) :
    (i : ClientInput) → Decidable ((clientMachine crt).allowed c i)
  | .write _ | .close => inferInstanceAs (Decidable (c.closing = false))
  | .runPosted => decidable_of_iff (¬ c.posted.isEmpty) (by simp [clientMachine])
  | .connect _ => inferInstanceAs (Decidable (_ ∧ _))
  | .complete k ok => inferInstanceAs (Decidable (∃ op ∈ c.outbox.writes[k]?, ok → c.Sound op))
  | .read _ _ => inferInstanceAs (Decidable (_ ∧ _))

/-- The network reports no error of its own: on a socket that is not closed the connection is made
and reads bring what the client accepts, and a write that can succeed does. -/
def NetworkOk (crt : InvalidParameter) (c : ChatClient) : ClientInput → Prop
  | .connect ok => ok ∨ c.socket = .closed
  | .complete k ok => ∀ op ∈ c.outbox.writes[k]?, c.Sound op → ok
  | .read op bytes => c.accepts crt op bytes ∨ c.socket = .closed
  | _ => True

instance (crt : InvalidParameter) (c : ChatClient) :
    (i : ClientInput) → Decidable (NetworkOk crt c i)
  | .write _ | .close | .runPosted => inferInstanceAs (Decidable True)
  | .connect _ => inferInstanceAs (Decidable (_ ∨ _))
  | .complete k ok => inferInstanceAs (Decidable (∀ op ∈ c.outbox.writes[k]?, c.Sound op → ok))
  | .read _ _ => inferInstanceAs (Decidable (_ ∨ _))

/-- A posted handler runs in time: a write once the socket is connected, and the close once there is
nothing left to write. -/
def Timely (c : ChatClient) : ClientInput → Prop
  | .runPosted =>
    match c.posted with
    | .write _ :: _ => c.socket = .connected
    | .close :: _ => c.outbox.writeMsgs.isEmpty
    | [] => True
  | _ => True

/-! ### The account of the messages -/

/-- The messages passed to `write`. -/
def passed : List ClientEvent → List ChatMessage :=
  List.filterMap fun
    | .passed msg => some msg
    | _ => none

/-- What became of the queue. -/
def queueEvents : List ClientEvent → List (WriteEvent ChatMessage) :=
  List.filterMap fun
    | .queue e => some e
    | _ => none

/-- The messages whose handlers have not run. -/
def postedMsgs : List Posted → List ChatMessage :=
  List.filterMap fun
    | .write msg => some msg
    | .close => none

theorem passed_append (outs outs' : List ClientEvent) :
    passed (outs ++ outs') = passed outs ++ passed outs' := List.filterMap_append

theorem queueEvents_append (outs outs' : List ClientEvent) :
    queueEvents (outs ++ outs') = queueEvents outs ++ queueEvents outs' := List.filterMap_append

theorem postedMsgs_append (posted posted' : List Posted) :
    postedMsgs (posted ++ posted') = postedMsgs posted ++ postedMsgs posted' :=
  List.filterMap_append

theorem queueEvents_map (evs : List (WriteEvent ChatMessage)) :
    queueEvents (evs.map .queue) = evs := by
  induction evs with
  | nil => rfl
  | cons e evs ih => exact congrArg (e :: ·) ih

theorem passed_map (evs : List (WriteEvent ChatMessage)) :
    passed (evs.map .queue) = [] := by
  induction evs with
  | nil => rfl
  | cons e evs ih => exact ih

/-- What the handler of a read leaves alone, and when it closes the socket. -/
theorem ChatClient.onRead_frame {crt : InvalidParameter} {c t : ChatClient} {op : ReadOp}
    {bytes : Option (List UInt8)} {o : List ClientEvent} (h : c.onRead crt op bytes = some (t, o)) :
    t.outbox = c.outbox ∧ t.posted = c.posted ∧ t.closing = c.closing ∧
      (t.socket = c.socket ∨ t.socket = .closed ∧ ¬ c.accepts crt op bytes) ∧
      queueEvents o = [] ∧ passed o = [] := by
  rw [onRead] at h
  rw [accepts]
  cases hr : c.reader.onRead crt op bytes with
  | none => simp [hr] at h
  | some r =>
    obtain ⟨reader, action⟩ := r
    cases action with
    | proceed =>
      obtain ⟨rfl, rfl⟩ : { c with reader } = t ∧ [] = o := by simpa [hr] using h
      exact ⟨rfl, rfl, rfl, Or.inl rfl, rfl, rfl⟩
    | deliver msg =>
      obtain ⟨rfl, rfl⟩ : { c with reader } = t ∧ [.printed msg.body] = o := by
        simpa [hr] using h
      exact ⟨rfl, rfl, rfl, Or.inl rfl, rfl, rfl⟩
    | stop =>
      obtain ⟨rfl, rfl⟩ : { c with reader, socket := .closed } = t ∧ [] = o := by
        simpa [hr] using h
      exact ⟨rfl, rfl, rfl, Or.inr ⟨rfl, by simp⟩, rfl, rfl⟩

/-- What a step does, with the variables it changes. -/
theorem clientMachine_cases {crt : InvalidParameter} {c t : ChatClient} {i : ClientInput}
    {o : List ClientEvent} (hs : (clientMachine crt).step c i = some (t, o)) :
    (∃ msg, i = .write msg ∧ t = c.write msg ∧ o = [.passed msg]) ∨
    (i = .close ∧ t = c.close ∧ o = []) ∨
    (∃ msg posted socket outbox evs, i = .runPosted ∧ c.posted = .write msg :: posted ∧
      chatClient.push c.socket c.outbox msg = some ((socket, outbox), evs) ∧
      t = { c with socket, outbox, posted } ∧ o = evs.map .queue) ∨
    (∃ posted, i = .runPosted ∧ c.posted = .close :: posted ∧
      t = { c with socket := .closed, posted } ∧ o = []) ∨
    (∃ ok, i = .connect ok ∧ t = c.onConnect ok ∧ o = []) ∨
    (∃ k ok socket outbox evs, i = .complete k ok ∧
      chatClient.complete c.socket c.outbox k ok = some ((socket, outbox), evs) ∧
      t = { c with socket, outbox } ∧ o = evs.map .queue) ∨
    ∃ op bytes, i = .read op bytes ∧ c.onRead crt op bytes = some (t, o) := by
  cases i with
  | write msg =>
    obtain ⟨rfl, rfl⟩ := Prod.mk.inj (Option.some.inj hs)
    exact Or.inl ⟨msg, rfl, rfl, rfl⟩
  | close =>
    obtain ⟨rfl, rfl⟩ := Prod.mk.inj (Option.some.inj hs)
    exact Or.inr (Or.inl ⟨rfl, rfl, rfl⟩)
  | runPosted =>
    have hrun : c.runPosted = some (t, o) := hs
    rw [ChatClient.runPosted] at hrun
    split at hrun
    · cases hrun
    · next msg posted hposted =>
      obtain ⟨⟨⟨socket, outbox⟩, evs⟩, hpush, hrun⟩ := Option.bind_eq_some_iff.mp hrun
      obtain ⟨rfl, rfl⟩ := Prod.mk.inj (Option.some.inj hrun)
      exact Or.inr (Or.inr (Or.inl
        ⟨msg, posted, socket, outbox, evs, rfl, hposted, hpush, rfl, rfl⟩))
    · next posted hposted =>
      obtain ⟨rfl, rfl⟩ := Prod.mk.inj (Option.some.inj hrun)
      exact Or.inr (Or.inr (Or.inr (Or.inl ⟨posted, rfl, hposted, rfl, rfl⟩)))
  | connect ok =>
    obtain ⟨rfl, rfl⟩ := Prod.mk.inj (Option.some.inj hs)
    exact Or.inr (Or.inr (Or.inr (Or.inr (Or.inl ⟨ok, rfl, rfl, rfl⟩))))
  | complete k ok =>
    have hwrite : c.onWrite k ok = some (t, o) := hs
    obtain ⟨⟨⟨socket, outbox⟩, evs⟩, hcomplete, hwrite⟩ := Option.bind_eq_some_iff.mp hwrite
    obtain ⟨rfl, rfl⟩ := Prod.mk.inj (Option.some.inj hwrite)
    exact Or.inr (Or.inr (Or.inr (Or.inr (Or.inr (Or.inl
      ⟨k, ok, socket, outbox, evs, rfl, hcomplete, rfl, rfl⟩)))))
  | read op bytes =>
    exact Or.inr (Or.inr (Or.inr (Or.inr (Or.inr (Or.inr ⟨op, bytes, rfl, hs⟩)))))

/-- The account of one step: the queue takes a step of its writer, and what was posted or is passed
to `write` now is enqueued or still posted. -/
theorem clientMachine_step_account {crt : InvalidParameter} {c t : ChatClient} {i : ClientInput}
    {o : List ClientEvent} {w : SerialWriter ChatMessage} (hrep : c.outbox.Represents w)
    (ha : (clientMachine crt).allowed c i) (hs : (clientMachine crt).step c i = some (t, o)) :
    ∃ w', Trace WriteStep w (queueEvents o) w' ∧ t.outbox.Represents w' ∧
      postedMsgs c.posted ++ passed o = enqueued (queueEvents o) ++ postedMsgs t.posted := by
  obtain ⟨msg, rfl, rfl, rfl⟩ | ⟨rfl, rfl, rfl⟩ |
    ⟨msg, posted, socket, outbox, evs, rfl, hposted, hpush, rfl, rfl⟩ |
    ⟨posted, rfl, hposted, rfl, rfl⟩ | ⟨ok, rfl, rfl, rfl⟩ |
    ⟨k, ok, socket, outbox, evs, rfl, hcomplete, rfl, rfl⟩ | ⟨op, bytes, rfl, hread⟩ :=
    clientMachine_cases hs
  · exact ⟨w, .nil w, hrep, (postedMsgs_append c.posted [.write msg]).symm⟩
  · exact ⟨w, .nil w, hrep, (postedMsgs_append c.posted [.close]).symm⟩
  · obtain ⟨_, _, w', hpush', hevs, htrace, hrep'⟩ := chatClient.push_refines hrep c.socket msg
    cases hpush.symm.trans hpush'
    rw [queueEvents_map, passed_map, hevs, List.append_nil, hposted]
    exact ⟨w', htrace, hrep', rfl⟩
  · rw [hposted]
    exact ⟨w, .nil w, hrep, List.append_nil _⟩
  · cases ok with
    | false => exact ⟨w, .nil w, hrep, List.append_nil _⟩
    | true => exact ⟨w, .nil w, hrep, List.append_nil _⟩
  · obtain ⟨op, hop, -⟩ := ha
    obtain ⟨hk, -⟩ := List.getElem?_eq_some_iff.mp hop
    obtain ⟨_, _, _, w', hcomplete', hevs, htrace, hrep'⟩ :=
      chatClient.complete_refines hrep c.socket hk ok
    cases hcomplete.symm.trans hcomplete'
    rw [queueEvents_map, passed_map, hevs, List.append_nil]
    exact ⟨w', htrace, hrep', rfl⟩
  · obtain ⟨hout, hposted, -, -, hqueue, hpassed⟩ := ChatClient.onRead_frame hread
    rw [hout, hposted, hqueue, hpassed, List.append_nil]
    exact ⟨w, .nil w, hrep, rfl⟩

/-- **Account.** In every run, whatever the network does, the messages passed to `write` are those
written, those in the queue and those still posted, in order. -/
theorem clientMachine_account {crt : InvalidParameter} {readMsg : ChatMessage} {c : ChatClient}
    {ins : List ClientInput} {outs : List ClientEvent}
    (h : (clientMachine crt).Run (.new readMsg) ins c outs) :
    passed outs = written (queueEvents outs) ++ (c.outbox.writeMsgs ++ postedMsgs c.posted) := by
  obtain ⟨w, htrace, hrep, hpassed⟩ : ∃ w, Trace WriteStep .idle (queueEvents outs) w ∧
      c.outbox.Represents w ∧
      passed outs = enqueued (queueEvents outs) ++ postedMsgs c.posted := by
    refine h.invariant (P := fun _ c outs => ∃ w, Trace WriteStep .idle (queueEvents outs) w ∧
      c.outbox.Represents w ∧
      passed outs = enqueued (queueEvents outs) ++ postedMsgs c.posted)
      ⟨.idle, .nil _, .idle 0, rfl⟩ ?_
    rintro ins c outs i t o - ⟨w, htrace, hrep, hpassed⟩ ha hs
    obtain ⟨w', htrace', hrep', hstep⟩ := clientMachine_step_account hrep ha hs
    refine ⟨w', ?_, hrep', ?_⟩
    · rw [queueEvents_append]
      exact htrace.append htrace'
    · rw [passed_append, hpassed, List.append_assoc, hstep, queueEvents_append, enqueued_append,
        List.append_assoc]
  have henqueued : enqueued (queueEvents outs) = written (queueEvents outs) ++ w.pending :=
    htrace.enqueued_eq
  rw [hpassed, henqueued, hrep.pending, List.append_assoc]

/-! ### In time, or stuck -/

/-- The handlers posted: writes, and behind them the close once `main` has called it, until that has
run. -/
inductive PostedShape : Bool → List Posted → Prop
  | writing (msgs : List ChatMessage) : PostedShape false (msgs.map .write)
  | closing (msgs : List ChatMessage) : PostedShape true (msgs.map .write ++ [.close])
  | closed : PostedShape true []

theorem PostedShape.write {posted : List Posted} (h : PostedShape false posted)
    (msg : ChatMessage) : PostedShape false (posted ++ [.write msg]) := by
  cases h with
  | writing msgs =>
    have hshape := PostedShape.writing (msgs ++ [msg])
    rwa [List.map_append] at hshape

theorem PostedShape.close {posted : List Posted} (h : PostedShape false posted) :
    PostedShape true (posted ++ [.close]) := by
  cases h with
  | writing msgs => exact .closing msgs

theorem PostedShape.of_write {closing : Bool} {msg : ChatMessage} {posted : List Posted}
    (h : PostedShape closing (.write msg :: posted)) : PostedShape closing posted := by
  generalize hall : Posted.write msg :: posted = all at h
  cases h with
  | writing msgs =>
    cases msgs with
    | nil => cases hall
    | cons m msgs =>
      obtain ⟨-, rfl⟩ := List.cons_eq_cons.mp hall
      exact .writing msgs
  | closing msgs =>
    cases msgs with
    | nil => cases hall
    | cons m msgs =>
      obtain ⟨-, rfl⟩ := List.cons_eq_cons.mp hall
      exact .closing msgs
  | closed => cases hall

theorem PostedShape.of_close {closing : Bool} {posted : List Posted}
    (h : PostedShape closing (.close :: posted)) : closing = true ∧ posted = [] := by
  generalize hall : Posted.close :: posted = all at h
  cases h with
  | writing msgs => cases msgs <;> cases hall
  | closing msgs =>
    cases msgs with
    | nil => exact ⟨rfl, (List.cons_eq_cons.mp hall).2⟩
    | cons m msgs => cases hall
  | closed => cases hall

/-- A client in which nothing can be lost: its queue is empty, or the write under way can succeed;
and its socket is closed only after everything else. -/
structure Sane (c : ChatClient) : Prop where
  posted : PostedShape c.closing c.posted
  outbox : (∃ popped, c.outbox = ⟨popped, [], []⟩) ∨ c.socket = .connected ∧
    ∃ popped msg rest, c.outbox = ⟨popped, msg :: rest, [⟨popped, msg, true⟩]⟩
  closed : c.socket = .closed → c.closing ∧ c.posted = []

/-- A client whose queue is not empty and will never be: no write outstanding can succeed. -/
structure Stuck (c : ChatClient) : Prop where
  pending : c.outbox.writeMsgs ≠ []
  doomed : ∀ op ∈ c.outbox.writes, op.connected = false ∨ c.socket = .closed

theorem Stuck.not_sound {c : ChatClient} (h : Stuck c) {op : WriteOp ChatMessage}
    (hop : op ∈ c.outbox.writes) : ¬ c.Sound op := by
  rintro ⟨hconnected, hsocket⟩
  rcases h.doomed op hop with hop | hclosed
  · rw [hconnected] at hop
    cases hop
  · rw [hsocket] at hclosed
    cases hclosed

/-- A client that is stuck stays stuck. -/
theorem Stuck.step {crt : InvalidParameter} {c t : ChatClient} {i : ClientInput}
    {o : List ClientEvent} (h : Stuck c) (ha : (clientMachine crt).allowed c i)
    (hs : (clientMachine crt).step c i = some (t, o)) : Stuck t := by
  obtain ⟨msg, rfl, rfl, rfl⟩ | ⟨rfl, rfl, rfl⟩ |
    ⟨msg, posted, socket, outbox, evs, rfl, -, hpush, rfl, rfl⟩ | ⟨posted, rfl, -, rfl, rfl⟩ |
    ⟨ok, rfl, rfl, rfl⟩ | ⟨k, ok, socket, outbox, evs, rfl, hcomplete, rfl, rfl⟩ |
    ⟨op, bytes, rfl, hread⟩ := clientMachine_cases hs
  · exact ⟨h.pending, h.doomed⟩
  · exact ⟨h.pending, h.doomed⟩
  · rcases hout : c.outbox with ⟨popped, writeMsgs, writes⟩
    cases writeMsgs with
    | nil => exact absurd (by rw [hout]) h.pending
    | cons front rest =>
      -- the message joins a queue that is not empty, and nothing is started
      rw [hout, chatClient.push_cons] at hpush
      cases hpush
      refine ⟨List.cons_ne_nil _ _, fun op hop => h.doomed op ?_⟩
      rw [hout]
      exact hop
  · exact ⟨h.pending, fun _ _ => Or.inr rfl⟩
  · cases ok with
    | false => exact ⟨h.pending, h.doomed⟩
    | true =>
      refine ⟨h.pending, fun op hop => Or.inl ?_⟩
      exact (h.doomed op hop).resolve_right (ha.2 rfl)
  · obtain ⟨op, hop, hok⟩ := ha
    cases ok with
    | true => exact absurd (hok rfl) (h.not_sound (List.mem_of_getElem? hop))
    | false =>
      obtain ⟨rfl, rfl⟩ := chatClient.complete_false hcomplete
      exact ⟨h.pending, fun _ _ => Or.inr rfl⟩
  · obtain ⟨hout, -, -, hsocket, -⟩ := ChatClient.onRead_frame hread
    refine ⟨by rw [hout]; exact h.pending, ?_⟩
    intro op hop
    rw [hout] at hop
    rcases hsocket with hsame | ⟨hclosed, -⟩
    · rw [hsame]
      exact h.doomed op hop
    · exact Or.inr hclosed

/-- Until `main` has called `close`, only writes are posted. -/
theorem Sane.posted_of_open {c : ChatClient} (h : Sane c) (hopen : c.closing = false) :
    PostedShape false c.posted :=
  hopen ▸ h.posted

/-- A connected client with a queue that flows takes a message. -/
theorem Sane.push {c : ChatClient} (h : Sane c) (hconnected : c.socket = .connected)
    (msg : ChatMessage) :
    ∃ popped front rest evs, chatClient.push c.socket c.outbox msg =
      some ((c.socket, ⟨popped, front :: rest, [⟨popped, front, true⟩]⟩), evs) := by
  rcases h.outbox with ⟨popped, hout⟩ | ⟨-, popped, front, rest, hout⟩
  · rw [hout, chatClient.push_nil, hconnected]
    exact ⟨popped, msg, [], _, rfl⟩
  · rw [hout, chatClient.push_cons]
    exact ⟨popped, front, rest ++ [msg], _, rfl⟩

/-- A connected socket writes the message at the front, and goes on to the next. -/
theorem Socket.complete_front (socket : Socket) (hconnected : socket = .connected) (popped : ℕ)
    (front : ChatMessage) (rest : List ChatMessage) :
    ∃ out evs, chatClient.complete socket ⟨popped, front :: rest, [⟨popped, front, true⟩]⟩ 0 true =
        some ((socket, out), evs) ∧
      ((∃ popped, out = ⟨popped, [], []⟩) ∨
        ∃ popped msg rest, out = ⟨popped, msg :: rest, [⟨popped, msg, true⟩]⟩) := by
  subst hconnected
  have hlookup : (⟨popped, front :: rest, [⟨popped, front, true⟩]⟩ : Outbox ChatMessage).lookup
      popped = some front := by
    simp [Outbox.lookup]
  cases rest with
  | nil =>
    refine ⟨⟨popped + 1, [], []⟩, [.written front], ?_, Or.inl ⟨popped + 1, rfl⟩⟩
    simp [WriteOwner.complete, Outbox.complete, hlookup, Outbox.onWrite]
  | cons next rest =>
    refine ⟨⟨popped + 1, next :: rest, [⟨popped + 1, next, true⟩]⟩, [.written front, .started next],
      ?_, Or.inr ⟨popped + 1, next, rest, rfl⟩⟩
    simp [WriteOwner.complete, Outbox.complete, hlookup, Outbox.onWrite, Outbox.doWrite, chatClient]

/-- A client in which nothing can be lost stays so, as long as posted handlers run in time. -/
theorem Sane.step {crt : InvalidParameter} {c t : ChatClient} {i : ClientInput}
    {o : List ClientEvent} (h : Sane c) (ha : (clientMachine crt).allowed c i)
    (hnet : NetworkOk crt c i) (htime : Timely c i)
    (hs : (clientMachine crt).step c i = some (t, o)) : Sane t := by
  obtain ⟨msg, rfl, rfl, rfl⟩ | ⟨rfl, rfl, rfl⟩ |
    ⟨msg, posted, socket, outbox, evs, rfl, hposted, hpush, rfl, rfl⟩ |
    ⟨posted, rfl, hposted, rfl, rfl⟩ | ⟨ok, rfl, rfl, rfl⟩ |
    ⟨k, ok, socket, outbox, evs, rfl, hcomplete, rfl, rfl⟩ | ⟨op, bytes, rfl, hread⟩ :=
    clientMachine_cases hs
  · have hopen : c.closing = false := ha
    have hshape := h.posted_of_open hopen
    refine ⟨?_, h.outbox, ?_⟩
    · show PostedShape c.closing (c.posted ++ [.write msg])
      rw [hopen]
      exact hshape.write msg
    · intro hclosed
      rw [(h.closed hclosed).1] at hopen
      cases hopen
  · have hopen : c.closing = false := ha
    have hshape := h.posted_of_open hopen
    refine ⟨hshape.close, h.outbox, ?_⟩
    intro hclosed
    rw [(h.closed hclosed).1] at hopen
    cases hopen
  · have hshape := h.posted
    rw [hposted] at hshape
    have hconnected : c.socket = .connected := by simpa [Timely, hposted] using htime
    obtain ⟨popped, front, rest, _, hpush'⟩ := h.push hconnected msg
    cases hpush.symm.trans hpush'
    refine ⟨hshape.of_write, Or.inr ⟨hconnected, popped, front, rest, rfl⟩, ?_⟩
    intro hclosed
    rw [show c.socket = .closed from hclosed] at hconnected
    cases hconnected
  · have hshape := h.posted
    rw [hposted] at hshape
    have hempty : c.outbox.writeMsgs = [] := by simpa [Timely, hposted] using htime
    obtain ⟨hclosing, hlast⟩ := hshape.of_close
    refine ⟨?_, Or.inl ?_, fun _ => ⟨hclosing, hlast⟩⟩
    · show PostedShape c.closing posted
      rw [hclosing, hlast]
      exact .closed
    · rcases h.outbox with hidle | ⟨-, popped, front, rest, hout⟩
      · exact hidle
      · rw [hout] at hempty
        cases hempty
  · cases ok with
    | false => exact ⟨h.posted, h.outbox, h.closed⟩
    | true =>
      refine ⟨h.posted, ?_, fun hclosed => by cases hclosed⟩
      exact h.outbox.imp_right fun hbusy => ⟨rfl, hbusy.2⟩
  · obtain ⟨op, hop, -⟩ := ha
    rcases h.outbox with ⟨popped, hout⟩ | ⟨hconnected, popped, front, rest, hout⟩
    · simp [hout] at hop
    · obtain ⟨rfl, rfl⟩ : k = 0 ∧ op = ⟨popped, front, true⟩ := by
        rw [hout] at hop
        cases k with
        | zero => exact ⟨rfl, (Option.some.inj hop).symm⟩
        | succ k => cases hop
      have hok : ok = true := hnet _ hop ⟨rfl, hconnected⟩
      obtain ⟨_, _, hcomplete', hflow⟩ := c.socket.complete_front hconnected popped front rest
      rw [hout, hok] at hcomplete
      cases hcomplete.symm.trans hcomplete'
      exact ⟨h.posted, hflow.imp_right fun hbusy => ⟨hconnected, hbusy⟩, h.closed⟩
  · obtain ⟨hout, hsame, hclosing, hsocket, -⟩ := ChatClient.onRead_frame hread
    have hsocket : t.socket = c.socket := by
      rcases hsocket with hsocket | ⟨hclosed, hrejects⟩
      · exact hsocket
      · rw [hclosed, hnet.resolve_left hrejects]
    refine ⟨?_, ?_, ?_⟩
    · rw [hclosing, hsame]
      exact h.posted
    · rw [hout, hsocket]
      exact h.outbox
    · rw [hsocket, hclosing, hsame]
      exact h.closed

/-- A posted handler that runs too early leaves the client stuck. -/
theorem Sane.stuck {crt : InvalidParameter} {c t : ChatClient} {i : ClientInput}
    {o : List ClientEvent} (h : Sane c) (hlate : ¬ Timely c i)
    (hs : (clientMachine crt).step c i = some (t, o)) : Stuck t := by
  obtain ⟨msg, rfl, -⟩ | ⟨rfl, -⟩ |
    ⟨msg, posted, socket, outbox, evs, rfl, hposted, hpush, rfl, -⟩ |
    ⟨posted, rfl, hposted, rfl, -⟩ | ⟨ok, rfl, -⟩ | ⟨k, ok, _, _, _, rfl, -⟩ |
    ⟨op, bytes, rfl, -⟩ := clientMachine_cases hs
  · exact absurd trivial hlate
  · exact absurd trivial hlate
  · have hsocket : c.socket ≠ .connected := by simpa [Timely, hposted] using hlate
    obtain ⟨popped, hout⟩ := h.outbox.resolve_right fun hbusy => hsocket hbusy.1
    have hdoomed : chatClient.connected c.socket = false := by simpa [chatClient] using hsocket
    rw [hout, chatClient.push_nil, hdoomed] at hpush
    cases hpush
    refine ⟨List.cons_ne_nil _ _, fun op hop => Or.inl ?_⟩
    rw [List.mem_singleton.mp hop]
  · have hpending : c.outbox.writeMsgs ≠ [] := by simpa [Timely, hposted] using hlate
    exact ⟨hpending, fun _ _ => Or.inr rfl⟩
  · exact absurd trivial hlate
  · exact absurd trivial hlate
  · exact absurd trivial hlate

/-! ### Shutdown -/

/-- The client on a network that reports no error of its own. -/
def orderlyClient (crt : InvalidParameter) : Machine ChatClient ClientInput ClientEvent :=
  (clientMachine crt).restrict (NetworkOk crt)

instance (crt : InvalidParameter) (c : ChatClient) (i : ClientInput) :
    Decidable ((orderlyClient crt).allowed c i) :=
  inferInstanceAs (Decidable (((clientMachine crt).restrict (NetworkOk crt)).allowed c i))

theorem sane_new (readMsg : ChatMessage) : Sane (.new readMsg) where
  posted := .writing []
  outbox := Or.inl ⟨0, rfl⟩
  closed := fun hclosed => by cases hclosed

/-- Where every posted handler runs in time nothing can be lost. -/
theorem sane_of_timely {crt : InvalidParameter} {readMsg : ChatMessage} {c : ChatClient}
    {ins : List ClientInput} {outs : List ClientEvent}
    (h : ((orderlyClient crt).restrict Timely).Run (.new readMsg) ins c outs) : Sane c :=
  h.invariant (P := fun _ c _ => Sane c) (sane_new readMsg)
    fun _ hsane ha hs => hsane.step ha.1.1 ha.1.2 ha.2 hs

/-- **In time, or stuck.** Every run meets its deadlines, or leads to a client that is stuck. -/
theorem timely_or_stuck {crt : InvalidParameter} {readMsg : ChatMessage} {c : ChatClient}
    {ins : List ClientInput} {outs : List ClientEvent}
    (h : (orderlyClient crt).Run (.new readMsg) ins c outs) :
    ((orderlyClient crt).restrict Timely).Run (.new readMsg) ins c outs ∨ Stuck c := by
  refine h.invariant (P := fun ins c outs =>
    ((orderlyClient crt).restrict Timely).Run (.new readMsg) ins c outs ∨ Stuck c) (Or.inl .nil) ?_
  rintro ins c outs i t o - (hrun | hstuck) ha hs
  · by_cases htime : Timely c i
    · exact Or.inl (hrun.snoc ⟨ha, htime⟩ hs)
    · exact Or.inr ((sane_of_timely hrun).stuck htime hs)
  · exact Or.inr (hstuck.step ha.1 hs)

/-- **Shutdown.** In a run that ends with the socket closed, on a network that reports no error of
its own, every message passed to `write` has been written, in order, exactly when each posted write
ran with the socket connected and the posted close ran with nothing left to write. -/
theorem shutdown_iff (crt : InvalidParameter) (readMsg : ChatMessage) {c : ChatClient}
    {ins : List ClientInput} {outs : List ClientEvent}
    (h : (orderlyClient crt).Run (.new readMsg) ins c outs) (hclosed : c.socket = .closed) :
    written (queueEvents outs) = passed outs ↔
      ((orderlyClient crt).restrict Timely).Run (.new readMsg) ins c outs := by
  have haccount := clientMachine_account h.of_restrict
  constructor
  · intro hall
    refine (timely_or_stuck h).resolve_right fun hstuck => hstuck.pending ?_
    rw [← hall] at haccount
    have hrest := List.self_eq_append_right.mp haccount
    exact (List.append_eq_nil_iff.mp hrest).1
  · intro htimely
    have hsane := sane_of_timely htimely
    obtain ⟨-, hposted⟩ := hsane.closed hclosed
    rcases hsane.outbox with ⟨popped, hout⟩ | ⟨hconnected, -⟩
    · rw [haccount, hout, hposted]
      exact (List.append_nil _).symm
    · rw [hclosed] at hconnected
      cases hconnected

/-- One line, written before the close runs. -/
theorem shutdown_iff_sample : ∃ c outs,
    ((orderlyClient .terminates).restrict Timely).Run (.new .blank)
      [.connect true, .write .blank, .close, .runPosted, .complete 0 true, .runPosted] c outs ∧
    c.socket = .closed ∧ passed outs = [.blank] ∧ written (queueEvents outs) = [.blank] := by
  have hrun : (orderlyClient .terminates).Run (.new .blank)
      [.connect true, .write .blank, .close, .runPosted, .complete 0 true, .runPosted] _ _ :=
    Machine.run_of_exec rfl
  exact ⟨_, _, (shutdown_iff .terminates .blank hrun rfl).mp rfl, rfl, rfl, rfl⟩

/-- One line, and a connection made before it. `close` is posted behind the write and runs before it
completes, so that it fails. -/
theorem not_shutdown : ∃ c outs,
    (orderlyClient .terminates).Run (.new .blank)
      [.connect true, .write .blank, .close, .runPosted, .runPosted, .complete 0 false] c outs ∧
    c.socket = .closed ∧ passed outs = [.blank] ∧ written (queueEvents outs) = [] :=
  ⟨_, _, Machine.run_of_exec rfl, rfl, rfl, rfl⟩

end Exec02
