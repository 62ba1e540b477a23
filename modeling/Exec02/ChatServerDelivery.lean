import Exec02.ChatServer

/-!
# What the chat server sends

From the room to the sockets. `chat_room` says whom a message is handed to, and an outbox says in
which order a session writes what it is handed; here the two meet in the whole server of
`MyTCPChatSrv01.cpp`, with any number of sessions whose handlers come in any order. What is written
on the socket of a session is the first of what the room has handed to it, and all the rest is in
its queue.

That no handler of a write goes wrong is a part of this. `front` and `pop_front` are called on a
queue that is not empty, and `deliver` on a session that is there, because whoever is in the room
has a session and every queue is that of a one-at-a-time writer.

## Main results

* `ChatServer.deliver_spec` — delivering to sessions hands each of them what is meant for it
* `serverMachine_delivers` — the room, the queues and the sessions agree after every run
* `chat_delivery` — what the socket of a session is given, from its accept to the end
-/

namespace Exec02

variable {π : Type} [LinearOrder π]

/-! ### What an observer sees, by session and by room -/

/-- What is seen of the queue of `p`. -/
def queueOf (p : π) : List (ServerEvent π) → List (WriteEvent ChatMessage) :=
  List.filterMap fun
    | .queue q e => if q = p then some e else none
    | _ => none

/-- The calls of the room that are seen. -/
def roomCalls : List (ServerEvent π) → List (RoomCall π ChatMessage) :=
  List.filterMap fun
    | .joined p => some (.join p)
    | .left p => some (.leave p)
    | .spoke _ _ msg => some (.deliver msg)
    | .queue _ _ => none

variable {p q : π} {outs outs' : List (ServerEvent π)}

theorem queueOf_append (p : π) (outs outs' : List (ServerEvent π)) :
    queueOf p (outs ++ outs') = queueOf p outs ++ queueOf p outs' := List.filterMap_append

theorem roomCalls_append (outs outs' : List (ServerEvent π)) :
    roomCalls (outs ++ outs') = roomCalls outs ++ roomCalls outs' := List.filterMap_append

theorem queueOf_queue (p q : π) (evs : List (WriteEvent ChatMessage)) :
    queueOf p (evs.map (.queue q)) = if q = p then evs else [] := by
  by_cases h : q = p
  · simp [queueOf, List.filterMap_map, h]
  · simp [queueOf, List.filterMap_map, h]

theorem roomCalls_queue (q : π) (evs : List (WriteEvent ChatMessage)) :
    roomCalls (evs.map (.queue q)) = [] := by
  simp [roomCalls, List.filterMap_map]

@[simp] theorem queueOf_cons_joined : queueOf p (.joined q :: outs) = queueOf p outs := rfl
@[simp] theorem queueOf_cons_left : queueOf p (.left q :: outs) = queueOf p outs := rfl
@[simp] theorem queueOf_cons_spoke {members : SortedSet π} {msg : ChatMessage} :
    queueOf p (.spoke q members msg :: outs) = queueOf p outs := rfl
@[simp] theorem roomCalls_cons_joined :
    roomCalls (.joined q :: outs) = .join q :: roomCalls outs := rfl
@[simp] theorem roomCalls_cons_left :
    roomCalls (.left q :: outs) = .leave q :: roomCalls outs := rfl
@[simp] theorem roomCalls_cons_spoke {members : SortedSet π} {msg : ChatMessage} :
    roomCalls (.spoke q members msg :: outs) = .deliver msg :: roomCalls outs := rfl

theorem mem_joined_roomCalls : p ∈ joined (roomCalls outs) ↔ .joined p ∈ outs := by
  induction outs with
  | nil => simp [roomCalls, joined]
  | cons e outs ih =>
    cases e with
    | joined q => simp [ih]
    | left q =>
      show p ∈ joined (roomCalls outs) ↔ _
      simp [ih]
    | spoke q members msg =>
      show p ∈ joined (roomCalls outs) ↔ _
      simp [ih]
    | queue q e =>
      show p ∈ joined (roomCalls outs) ↔ _
      simp [ih]

namespace ChatServer

variable {s t : ChatServer π}

/-- The queue of every session is that of a writer, of which `outs` has shown so much. -/
def Faithful (s : ChatServer π) (outs : List (ServerEvent π)) : Prop :=
  ∀ p, ∀ session ∈ s.sessions p,
    ∃ w, Trace WriteStep .idle (queueOf p outs) w ∧ session.outbox.Represents w

theorem mem_setSession {session session' : ChatSession} :
    session' ∈ (s.setSession p session).sessions q ↔
      if q = p then session' = session else session' ∈ s.sessions q := by
  by_cases h : q = p
  · subst h
    simp [setSession, eq_comm]
  · simp [setSession, h]

theorem setSession_eq_none_iff {session : ChatSession} (hp : s.sessions p ≠ none) :
    (s.setSession p session).sessions q = none ↔ s.sessions q = none := by
  by_cases h : q = p
  · subst h
    simp [setSession, hp]
  · simp [setSession, h]

/-- What does not concern the queues leaves them as they are. -/
theorem Faithful.append (h : s.Faithful outs) (houts : ∀ p, queueOf p outs' = []) :
    s.Faithful (outs ++ outs') := by
  intro p session hsession
  rw [queueOf_append, houts, List.append_nil]
  exact h p session hsession

/-- The queue of one session has gone on. -/
theorem Faithful.set (h : s.Faithful outs) {session : ChatSession}
    {evs : List (WriteEvent ChatMessage)} {w : SerialWriter ChatMessage}
    (htrace : Trace WriteStep .idle (queueOf p outs ++ evs) w)
    (hrep : session.outbox.Represents w) :
    (s.setSession p session).Faithful (outs ++ evs.map (.queue p)) := by
  intro q session' hsession'
  rw [mem_setSession] at hsession'
  rw [queueOf_append, queueOf_queue]
  by_cases hq : q = p
  · subst hq
    obtain rfl : session' = session := by simpa using hsession'
    rw [if_pos rfl]
    exact ⟨w, htrace, hrep⟩
  · rw [if_neg (Ne.symm hq), List.append_nil]
    rw [if_neg hq] at hsession'
    exact h q session' hsession'

/-- **Delivering to sessions.** If they are there it does not go wrong, it concerns no room, and
each is handed what is meant for it, one message after the other. -/
theorem deliver_spec {calls : List (π × ChatMessage)} (h : s.Faithful outs)
    (hcalls : ∀ c ∈ calls, s.sessions c.1 ≠ none) :
    ∃ t outs', s.deliver calls = some (t, outs') ∧ t.room = s.room ∧ roomCalls outs' = [] ∧
      (∀ q, t.sessions q = none → s.sessions q = none ∧ queueOf q outs' = []) ∧
      (∀ q, enqueued (queueOf q outs') = handed q calls) ∧ t.Faithful (outs ++ outs') := by
  induction calls generalizing s outs with
  | nil =>
    exact ⟨s, [], rfl, rfl, rfl, fun _ hq => ⟨hq, rfl⟩, fun _ => rfl, h.append fun _ => rfl⟩
  | cons call calls ih =>
    obtain ⟨p, msg⟩ := call
    have hp : s.sessions p ≠ none := hcalls (p, msg) List.mem_cons_self
    obtain ⟨session, hsession⟩ := Option.ne_none_iff_exists'.mp hp
    obtain ⟨w, htrace, hrep⟩ := h p session hsession
    obtain ⟨outbox, evs, w', hpush, henqueued, htrace', hrep'⟩ :=
      (chatSession p).push_refines hrep s.room msg
    have hfaithful :
        (s.setSession p { session with outbox }).Faithful (outs ++ evs.map (.queue p)) :=
      h.set (htrace.append htrace') hrep'
    have hthere : ∀ c ∈ calls, (s.setSession p { session with outbox }).sessions c.1 ≠ none := by
      intro c hc
      rw [ne_eq, setSession_eq_none_iff hp]
      exact hcalls c (List.mem_cons_of_mem _ hc)
    obtain ⟨t, outs', hdeliver, hroom, hcalls', hnone, hhanded, ht⟩ := ih hfaithful hthere
    refine ⟨t, evs.map (.queue p) ++ outs', ?_, hroom, ?_, ?_, ?_, ?_⟩
    · have hdeliver : ({ s with room := s.room }.setSession p
          { session with outbox }).deliver calls = some (t, outs') := hdeliver
      simp only [deliver, hsession, hpush, Option.bind_eq_bind, Option.bind_some, hdeliver]
      rfl
    · rw [roomCalls_append, roomCalls_queue, hcalls', List.nil_append]
    · intro q hq
      obtain ⟨hq, hnil⟩ := hnone q hq
      rw [setSession_eq_none_iff hp] at hq
      rw [queueOf_append, hnil, queueOf_queue, if_neg fun hpq : p = q => hp (hpq ▸ hq)]
      exact ⟨hq, rfl⟩
    · intro q
      rw [queueOf_append, enqueued_append, queueOf_queue, hhanded, ← List.singleton_append,
        handed_append]
      by_cases hq : p = q
      · rw [if_pos hq, henqueued]
        simp [handed, hq]
      · simp [handed, hq, enqueued]
    · rw [← List.append_assoc]
      exact ht

/-! ### Room, queues and sessions -/

/-- What holds of a server that has shown `outs`. -/
structure Delivers (s : ChatServer π) (outs : List (ServerEvent π)) : Prop where
  /-- The room is what the calls have made of it. -/
  room : s.room = ((ChatRoom.empty : ChatRoom π ChatMessage).calls (roomCalls outs)).1
  /-- What the room has handed to a session is what has been put in its queue. -/
  handed : ∀ p, enqueued (queueOf p outs) = received p (roomCalls outs)
  /-- Every queue is that of a writer. -/
  queues : s.Faithful outs
  /-- Nothing is known of a session that is not there. -/
  unknown : ∀ p, s.sessions p = none →
    queueOf p outs = [] ∧ p ∉ joined (roomCalls outs) ∧ p ∉ s.room.participants
  /-- Nobody joins twice. -/
  once : (joined (roomCalls outs)).Nodup

theorem delivers_empty : Delivers (empty : ChatServer π) [] where
  room := rfl
  handed _ := rfl
  queues _ _ h := absurd h (Option.not_mem_none _)
  unknown p _ := ⟨rfl, List.not_mem_nil, SortedSet.notMem_empty p⟩
  once := List.nodup_nil

variable {o : List (ServerEvent π)}

/-- A step keeps what holds if it hands to the queues what the room says. -/
theorem Delivers.go_on (h : s.Delivers outs)
    (hroom : t.room = (s.room.calls (roomCalls o)).1)
    (hhanded : ∀ q, enqueued (queueOf q o) = Exec02.handed q (s.room.calls (roomCalls o)).2)
    (hqueues : t.Faithful (outs ++ o))
    (hunknown : ∀ q, t.sessions q = none →
      s.sessions q = none ∧ q ∉ joined (roomCalls o) ∧ queueOf q o = [])
    (honce : (joined (roomCalls o)).Nodup)
    (hnew : ∀ q ∈ joined (roomCalls o), s.sessions q = none) : t.Delivers (outs ++ o) := by
  refine ⟨?_, ?_, hqueues, ?_, ?_⟩
  · rw [hroom, roomCalls_append, ChatRoom.calls_append, ← h.room]
  · intro q
    rw [queueOf_append, enqueued_append, h.handed, hhanded, roomCalls_append, received, received,
      ChatRoom.calls_append, handed_append, ← h.room]
  · intro q hq
    obtain ⟨hs, hnot, hnil⟩ := hunknown q hq
    obtain ⟨hqueue, hjoined, hmem⟩ := h.unknown q hs
    rw [queueOf_append, hqueue, hnil, roomCalls_append, joined_append, hroom]
    refine ⟨rfl, ?_, (ChatRoom.handed_of_notMem hnot s.room hmem).2⟩
    exact fun hmem => (List.mem_append.mp hmem).elim hjoined hnot
  · rw [roomCalls_append, joined_append]
    refine h.once.append honce ?_
    intro q hq hq'
    exact (h.unknown q (hnew q hq')).2.1 hq

/-- Whoever is in the room has a session. -/
theorem Delivers.there (h : s.Delivers outs) (hp : p ∈ s.room.participants) :
    s.sessions p ≠ none := fun hnone => (h.unknown p hnone).2.2 hp

/-- **Accepting.** The replay is put in the queue of the new session. -/
theorem Delivers.accept (h : s.Delivers outs) (hp : s.sessions p = none) (readMsg : ChatMessage) :
    ∃ t o, s.onAccept p readMsg = some (t, o) ∧ t.Delivers (outs ++ o) := by
  let session : ChatSession := ⟨Reader.doReadHeader ⟨readMsg, none⟩, .empty⟩
  let s₁ : ChatServer π := { s.setSession p session with room := (s.room.join p).1 }
  have hmem {q : π} {session' : ChatSession} : session' ∈ s₁.sessions q ↔
      if q = p then session' = session else session' ∈ s.sessions q := mem_setSession
  have hnone (q : π) : s₁.sessions q = none → q ≠ p ∧ s.sessions q = none := by
    intro hq
    have hqp : q ≠ p := by
      rintro rfl
      simp [s₁, setSession] at hq
    exact ⟨hqp, by simpa [s₁, setSession, hqp] using hq⟩
  have hfaithful : s₁.Faithful (outs ++ [.joined p]) := by
    intro q session' hsession'
    rw [queueOf_append, queueOf_cons_joined]
    rw [hmem] at hsession'
    by_cases hq : q = p
    · subst hq
      obtain rfl : session' = session := by simpa using hsession'
      rw [(h.unknown q hp).1]
      exact ⟨.idle, .nil _, .idle 0⟩
    · rw [if_neg hq] at hsession'
      rw [show queueOf q [] = [] from rfl, List.append_nil]
      exact h.queues q session' hsession'
  have hthere : ∀ c ∈ (s.room.join p).2, s₁.sessions c.1 ≠ none := by
    intro c hc
    obtain ⟨msg, -, rfl⟩ := List.mem_map.mp hc
    exact fun hnil => (hnone p hnil).1 rfl
  obtain ⟨t, o, hdeliver, hroom, hcalls, hsame, hhanded, ht⟩ := deliver_spec hfaithful hthere
  refine ⟨t, .joined p :: o, ?_, ?_⟩
  · exact Option.bind_eq_some_iff.mpr ⟨(t, o), hdeliver, rfl⟩
  rw [List.append_assoc, List.singleton_append] at ht
  refine h.go_on ?_ ?_ ht ?_ ?_ ?_
  · rw [roomCalls_cons_joined, hcalls, hroom]
    rfl
  · intro q
    rw [queueOf_cons_joined, roomCalls_cons_joined, hcalls, hhanded]
    simp [ChatRoom.calls, ChatRoom.call]
  · intro q hq
    obtain ⟨hq, hnil⟩ := hsame q hq
    obtain ⟨hqp, hs⟩ := hnone q hq
    exact ⟨hs, by simp [hcalls, hqp, joined], hnil⟩
  · simp [hcalls, joined]
  · simp [hcalls, joined, hp]

/-- A handler that only concerns its session's reading changes no queue. -/
theorem Faithful.set_reader (h : s.Faithful outs) {session : ChatSession}
    (hsession : session ∈ s.sessions p) (reader : Reader) :
    (s.setSession p { session with reader }).Faithful outs := by
  intro q session' hsession'
  rw [mem_setSession] at hsession'
  by_cases hq : q = p
  · subst hq
    obtain rfl : session' = { session with reader } := by simpa using hsession'
    exact h q session hsession
  · rw [if_neg hq] at hsession'
    exact h q session' hsession'

/-- **Reading.** What the room does with a message goes into the queues, and nothing goes wrong
unless the runtime ends the process over the header. -/
theorem Delivers.read (h : s.Delivers outs) {crt : InvalidParameter} {op : ReadOp}
    {bytes : Option (List UInt8)} {session : ChatSession} (hsession : session ∈ s.sessions p)
    {reader : Reader} {action : ReadAction}
    (hread : session.reader.onRead crt op bytes = some (reader, action)) :
    ∃ t o, s.onRead crt p op bytes = some (t, o) ∧ t.Delivers (outs ++ o) := by
  have hp : s.sessions p ≠ none := Option.ne_none_iff_exists'.mpr ⟨session, hsession⟩
  have hset := h.queues.set_reader hsession reader
  have hnone (q : π) : (s.setSession p { session with reader }).sessions q = none ↔
      s.sessions q = none := setSession_eq_none_iff hp
  cases action with
  | proceed =>
    refine ⟨s.setSession p { session with reader }, [], ?_, ?_⟩
    · simp [onRead, Option.mem_def.mp hsession, hread]
    · refine h.go_on rfl (fun _ => rfl) (hset.append fun _ => rfl) ?_ List.nodup_nil
        fun q hq => absurd hq List.not_mem_nil
      intro q hq
      exact ⟨(hnone q).mp hq, List.not_mem_nil, rfl⟩
  | stop =>
    refine ⟨{ s.setSession p { session with reader } with room := s.room.leave p }, [.left p], ?_,
      ?_⟩
    · simp [onRead, Option.mem_def.mp hsession, hread, setSession]
    · refine h.go_on rfl (fun _ => rfl) (hset.append fun _ => rfl) ?_ List.nodup_nil
        fun q hq => absurd hq List.not_mem_nil
      intro q hq
      exact ⟨(hnone q).mp hq, List.not_mem_nil, rfl⟩
  | deliver msg =>
    have hfaithful : ({ s.setSession p { session with reader } with
        room := (s.room.deliver msg).1 } : ChatServer π).Faithful
          (outs ++ [.spoke p s.members msg]) := hset.append fun _ => rfl
    have hthere : ∀ c ∈ (s.room.deliver msg).2,
        (s.setSession p { session with reader }).sessions c.1 ≠ none := by
      intro c hc
      obtain ⟨q, hq, rfl⟩ := List.mem_map.mp hc
      rw [ne_eq, hnone]
      exact h.there hq
    obtain ⟨t, o, hdeliver, hroom, hcalls, hsame, hhanded, ht⟩ := deliver_spec hfaithful hthere
    refine ⟨t, .spoke p s.members msg :: o, ?_, ?_⟩
    · simp only [onRead, Option.mem_def.mp hsession, hread, Option.bind_eq_bind, Option.bind_some]
      rw [show (s.setSession p { session with reader }).room = s.room from rfl, hdeliver]
      rfl
    rw [List.append_assoc, List.singleton_append] at ht
    refine h.go_on ?_ ?_ ht ?_ ?_ ?_
    · rw [roomCalls_cons_spoke, hcalls, hroom]
      rfl
    · intro q
      rw [queueOf_cons_spoke, roomCalls_cons_spoke, hcalls, hhanded]
      simp [ChatRoom.calls, ChatRoom.call]
    · intro q hq
      obtain ⟨hq, hnil⟩ := hsame q hq
      exact ⟨(hnone q).mp hq, by simp [hcalls, joined], hnil⟩
    · simp [hcalls, joined]
    · simp [hcalls, joined]

/-- **Writing.** The queue of the session goes on, and a write that fails takes it out of the
room. -/
theorem Delivers.complete (h : s.Delivers outs) {session : ChatSession}
    (hsession : session ∈ s.sessions p) {k : ℕ} (hk : k < session.outbox.writes.length)
    (ok : Bool) : ∃ t o, s.onWrite p k ok = some (t, o) ∧ t.Delivers (outs ++ o) := by
  have hp : s.sessions p ≠ none := Option.ne_none_iff_exists'.mpr ⟨session, hsession⟩
  obtain ⟨w, htrace, hrep⟩ := h.queues p session hsession
  obtain ⟨room, outbox, evs, w', hcomplete, hevs, htrace', hrep'⟩ :=
    (chatSession p).complete_refines hrep s.room hk ok
  have hset : (s.setSession p { session with outbox }).Faithful (outs ++ evs.map (.queue p)) :=
    h.queues.set (htrace.append htrace') hrep'
  have henqueued (q : π) : enqueued (queueOf q (evs.map (.queue p))) = [] := by
    rw [queueOf_queue]
    split_ifs
    · exact hevs
    · rfl
  refine ⟨{ s with room }.setSession p { session with outbox },
    evs.map (.queue p) ++ if ok then [] else [.left p], ?_, ?_⟩
  · simp [onWrite, Option.mem_def.mp hsession, hcomplete]
  have hunknown : ∀ q, (({ s with room } : ChatServer π).setSession p
      { session with outbox }).sessions q = none →
        s.sessions q = none ∧ queueOf q (evs.map (.queue p)) = [] := by
    intro q hq
    have hq := (setSession_eq_none_iff (s := { s with room }) hp).mp hq
    rw [queueOf_queue, if_neg fun hpq : p = q => hp (hpq ▸ hq)]
    exact ⟨hq, rfl⟩
  cases ok with
  | true =>
    obtain rfl := (chatSession p).complete_true hcomplete
    rw [if_pos rfl, List.append_nil]
    refine h.go_on ?_ ?_ hset ?_ ?_ ?_
    · rw [roomCalls_queue]
      rfl
    · intro q
      rw [henqueued, roomCalls_queue]
      rfl
    · intro q hq
      obtain ⟨hs, hnil⟩ := hunknown q hq
      exact ⟨hs, by simp [roomCalls_queue, joined], hnil⟩
    · simp [roomCalls_queue, joined]
    · simp [roomCalls_queue, joined]
  | false =>
    obtain ⟨rfl, -⟩ := (chatSession p).complete_false hcomplete
    rw [if_neg Bool.false_ne_true]
    refine h.go_on ?_ ?_ ?_ ?_ ?_ ?_
    · rw [roomCalls_append, roomCalls_queue]
      rfl
    · intro q
      rw [queueOf_append, enqueued_append, henqueued, roomCalls_append, roomCalls_queue]
      rfl
    · rw [← List.append_assoc]
      exact hset.append fun _ => rfl
    · intro q hq
      obtain ⟨hs, hnil⟩ := hunknown q hq
      rw [queueOf_append, hnil]
      exact ⟨hs, by simp [joined, roomCalls], rfl⟩
    · simp [joined, roomCalls]
    · simp [joined, roomCalls]

end ChatServer

open ChatServer in
/-- **A step.** An allowed step keeps what holds, and the only one that does not get that far is a
read over whose bytes the runtime ends the process. -/
theorem ChatServer.Delivers.step {crt : InvalidParameter} {s : ChatServer π} (h : s.Delivers outs)
    {i : ServerInput π} (hi : (serverMachine crt).allowed s i) :
    (∃ t o, (serverMachine crt).step s i = some (t, o) ∧ t.Delivers (outs ++ o)) ∨
      (serverMachine crt).step s i = none ∧ ∃ p op bytes, i = .read p op bytes ∧
        ∃ session ∈ s.sessions p, session.reader.onRead crt op bytes = none := by
  cases i with
  | accept p readMsg => exact Or.inl (h.accept hi readMsg)
  | complete p k ok =>
    obtain ⟨session, hsession, hk⟩ := hi
    exact Or.inl (h.complete hsession hk ok)
  | read p op bytes =>
    obtain ⟨session, hsession, -⟩ := hi
    cases hread : session.reader.onRead crt op bytes with
    | some r => exact Or.inl (h.read hsession hread)
    | none =>
      refine Or.inr ⟨?_, p, op, bytes, rfl, session, hsession, hread⟩
      simp [serverMachine, onRead, Option.mem_def.mp hsession, hread]

variable {crt : InvalidParameter} {ins : List (ServerInput π)} {s : ChatServer π}

theorem serverMachine_delivers (h : (serverMachine crt).Run .empty ins s outs) :
    s.Delivers outs := by
  refine h.invariant (P := fun _ s outs => s.Delivers outs) ChatServer.delivers_empty ?_
  intro ins s outs i t o _ hs hi hstep
  rcases hs.step hi with ⟨t', o', hstep', ht⟩ | ⟨hnone, -⟩
  · obtain ⟨rfl, rfl⟩ : t = t' ∧ o = o' := by simpa [hstep] using hstep'
    exact ht
  · rw [hstep] at hnone
    cases hnone

/-- The messages that the room is told. -/
def spoken (outs : List (ServerEvent π)) : List ChatMessage := delivered (roomCalls outs)

/-- Those before `p` leaves. -/
def spokenUntilLeft (p : π) (outs : List (ServerEvent π)) : List ChatMessage :=
  delivered ((roomCalls outs).takeWhile (·.stays p))

namespace ChatServer.Delivers

/-- The queue of a session is given the last messages spoken before it joined, and every one until
it leaves. -/
theorem enqueued_of_joined {before after : List (ServerEvent π)}
    (h : s.Delivers (before ++ .joined p :: after)) :
    enqueued (queueOf p (before ++ .joined p :: after)) =
      (spoken before).rtake maxRecentMsgs ++ spokenUntilLeft p after := by
  have hcalls : roomCalls (before ++ .joined p :: after) =
      roomCalls before ++ .join p :: roomCalls after := by
    rw [roomCalls_append, roomCalls_cons_joined]
  have honce := h.once
  rw [hcalls, joined_append, joined_cons_join, List.nodup_append] at honce
  obtain ⟨-, hafter, hdisjoint⟩ := honce
  rw [h.handed, hcalls]
  exact received_of_join (fun hmem => hdisjoint p hmem p List.mem_cons_self rfl)
    (List.nodup_cons.mp hafter).1

theorem enqueued_of_notMem (h : s.Delivers outs) (hp : .joined p ∉ outs) :
    enqueued (queueOf p outs) = [] := by
  rw [h.handed]
  refine received_of_notMem ?_
  intro hmem
  exact hp (mem_joined_roomCalls.mp hmem)

theorem enqueued_eq (h : s.Delivers outs) {session : ChatSession}
    (hsession : session ∈ s.sessions p) :
    enqueued (queueOf p outs) = written (queueOf p outs) ++ session.outbox.writeMsgs := by
  obtain ⟨w, htrace, hrep⟩ := h.queues p session hsession
  rw [← hrep.pending]
  exact htrace.enqueued_eq

theorem written_prefix (h : s.Delivers outs) (p : π) :
    written (queueOf p outs) <+: enqueued (queueOf p outs) := by
  by_cases hp : s.sessions p = none
  · rw [(h.unknown p hp).1]
    exact List.prefix_rfl
  · obtain ⟨session, hsession⟩ := Option.ne_none_iff_exists'.mp hp
    rw [h.enqueued_eq hsession]
    exact List.prefix_append _ _

theorem started_prefix (h : s.Delivers outs) (p : π) :
    started (queueOf p outs) <+: enqueued (queueOf p outs) := by
  by_cases hp : s.sessions p = none
  · rw [(h.unknown p hp).1]
    exact List.prefix_rfl
  · obtain ⟨session, hsession⟩ := Option.ne_none_iff_exists'.mp hp
    obtain ⟨w, htrace, -⟩ := h.queues p session hsession
    exact htrace.started_prefix

end ChatServer.Delivers

/-- **Delivery.** In every run, for every session: its queue is given the last hundred messages
spoken before it joined and then every message until it leaves, in order, each once; what is written
on its socket is the first of them, and the others are in its queue; before it joins there is
nothing. No step goes wrong but a read over whose bytes the runtime ends the process. -/
theorem chat_delivery (h : (serverMachine crt).Run .empty ins s outs) :
    (∀ p before after, outs = before ++ .joined p :: after → enqueued (queueOf p outs) =
      (spoken before).rtake maxRecentMsgs ++ spokenUntilLeft p after) ∧
    (∀ p, .joined p ∉ outs → enqueued (queueOf p outs) = []) ∧
    (∀ p, written (queueOf p outs) <+: enqueued (queueOf p outs)) ∧
    (∀ p, ∀ session ∈ s.sessions p,
      enqueued (queueOf p outs) = written (queueOf p outs) ++ session.outbox.writeMsgs) ∧
    ∀ i, (serverMachine crt).allowed s i → ((serverMachine crt).step s i = none ↔
      ∃ p op bytes, i = .read p op bytes ∧
        ∃ session ∈ s.sessions p, session.reader.onRead crt op bytes = none) := by
  have hd := serverMachine_delivers h
  refine ⟨?_, fun p => hd.enqueued_of_notMem, fun p => hd.written_prefix p,
    fun p session hsession => hd.enqueued_eq hsession, ?_⟩
  · rintro p before after rfl
    exact hd.enqueued_of_joined
  · intro i hi
    constructor
    · intro hnone
      rcases hd.step hi with ⟨t, o, hstep, -⟩ | ⟨-, hread⟩
      · rw [hstep] at hnone
        cases hnone
      · exact hread
    · rintro ⟨p, op, bytes, rfl, session, hsession, hread⟩
      simp [serverMachine, ChatServer.onRead, Option.mem_def.mp hsession, hread]

/-- One session says `A`, and a second one comes late and is told. -/
def ServerInput.late : List (ServerInput ℕ) :=
  [.accept 0 .blank, .read 0 .header (some [49, 0, 0, 0]), .read 0 .body (some [65]),
    .complete 0 0 true, .accept 1 .blank]

theorem chat_delivery_late : ∃ s outs, (serverMachine .terminates).Run .empty ServerInput.late s
    outs ∧ ∃ session ∈ s.sessions 1, session.outbox.writeMsgs.length = 1 ∧
      enqueued (queueOf 1 outs) = written (queueOf 1 outs) ++ session.outbox.writeMsgs := by
  have hrun : (serverMachine .terminates).Run .empty ServerInput.late _ _ :=
    Machine.run_of_exec rfl
  exact ⟨_, _, hrun, _, rfl, rfl, (chat_delivery hrun).2.2.2.1 1 _ rfl⟩

end Exec02
