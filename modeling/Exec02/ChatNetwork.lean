import Exec02.ChatFraming
import Exec02.Lib.View

/-!
# The chat as a whole

`MyTCPChatSrv01.cpp` and any number of `MyTCPChatCli01.cpp`, connected: what the main threads of the
clients type, the handlers of all the programs, and the bytes on their way, in any order.

## Reading the model

A client and the session that the server has for it have the same name. The bytes of a message are
on their way as soon as its `async_write` has been started on a connected socket, and a read takes
the first bytes that are on their way to it, or fails. So it does not matter to the model in what
pieces the bytes travel, and a write that fails may still have sent all of its bytes, some or
none. A client whose connection could not be made is not accepted.

## Main results

* `serverView`, `clientView` — the programs, as parts of the whole
* `network_up`, `network_down` — what is read at one end of a connection and what is on its way to
  it are what the other end has sent
-/

namespace Exec02

variable {π : Type} [LinearOrder π]

/-- The server, the clients, and the bytes on their way from each client to the server and back. -/
structure ChatNetwork (π : Type) [LinearOrder π] where
  server : ChatServer π
  clients : π → ChatClient
  up : π → List UInt8
  down : π → List UInt8

/-- A step of the server, or of a client. -/
inductive NetworkInput (π : Type)
  | server (i : ServerInput π)
  | client (p : π) (i : ClientInput)

/-- What an observer sees of the server, or of a client. -/
inductive NetworkEvent (π : Type) [LinearOrder π]
  | server (e : ServerEvent π)
  | client (p : π) (e : ClientEvent)

/-- The bytes of the messages whose writing has begun. -/
def sentBytes (evs : List (WriteEvent ChatMessage)) : List UInt8 :=
  (started evs).flatMap ChatMessage.wire

theorem sentBytes_append (evs evs' : List (WriteEvent ChatMessage)) :
    sentBytes (evs ++ evs') = sentBytes evs ++ sentBytes evs' := by
  rw [sentBytes, started_append, List.flatMap_append, sentBytes, sentBytes]

namespace ChatNetwork

/-- Before anything has happened, with clients whose constructors found `storage`. -/
def start (storage : π → ChatMessage) : ChatNetwork π :=
  ⟨.empty, fun p => .new (storage p), fun _ => [], fun _ => []⟩

/-- A step of the server, which reads what has come up and sends down. -/
def onServer (crt : InvalidParameter) (s : ChatNetwork π) (i : ServerInput π) :
    Option (ChatNetwork π × List (NetworkEvent π)) := do
  let (server, outs) ← (serverMachine crt).step s.server i
  let up p := (s.up p).drop (bytesRead p [i]).length
  let down p := s.down p ++ sentBytes (queueOf p outs)
  return ({ s with server, up, down }, outs.map .server)

/-- A step of a client, which reads what has come down, and sends up on a connected socket. -/
def onClient (crt : InvalidParameter) (s : ChatNetwork π) (p : π) (i : ClientInput) :
    Option (ChatNetwork π × List (NetworkEvent π)) := do
  let (client, outs) ← (clientMachine crt).step (s.clients p) i
  let sent := if (s.clients p).socket = .connected then sentBytes (queueEvents outs) else []
  let clients := Function.update s.clients p client
  let up := Function.update s.up p (s.up p ++ sent)
  let down := Function.update s.down p ((s.down p).drop (clientBytes [i]).length)
  return ({ s with clients, up, down }, outs.map (.client p))

/-- Whether the network offers an input to the server: a read has its bytes from the client, and a
connection is that of a client which has not failed to make it. -/
def Offers (s : ChatNetwork π) : ServerInput π → Prop
  | .read p _ bytes => bytes.getD [] <+: s.up p
  | .accept p _ => (s.clients p).connecting ∨ (s.clients p).socket ≠ .unconnected
  | .complete _ _ _ => True

instance (s : ChatNetwork π) : (i : ServerInput π) → Decidable (s.Offers i)
  | .read p _ bytes => inferInstanceAs (Decidable (bytes.getD [] <+: s.up p))
  | .accept _ _ => inferInstanceAs (Decidable (_ ∨ _))
  | .complete _ _ _ => inferInstanceAs (Decidable True)

end ChatNetwork

/-- The chat as a machine. -/
def networkMachine (crt : InvalidParameter) :
    Machine (ChatNetwork π) (NetworkInput π) (NetworkEvent π) where
  allowed s
    | .server i => (serverMachine crt).allowed s.server i ∧ s.Offers i
    | .client p i =>
      (clientMachine crt).allowed (s.clients p) i ∧ clientBytes [i] <+: s.down p
  step s
    | .server i => s.onServer crt i
    | .client p i => s.onClient crt p i

instance (crt : InvalidParameter) (s : ChatNetwork π) :
    (i : NetworkInput π) → Decidable ((networkMachine crt).allowed s i)
  | .server i => inferInstanceAs (Decidable ((serverMachine crt).allowed s.server i ∧ s.Offers i))
  | .client p i => inferInstanceAs (Decidable
      ((clientMachine crt).allowed (s.clients p) i ∧ clientBytes [i] <+: s.down p))

/-! ### Its parts -/

variable {crt : InvalidParameter} {s t : ChatNetwork π} {i : NetworkInput π}
  {o : List (NetworkEvent π)}

/-- A step of the server, and what it does on the way. -/
theorem ChatNetwork.onServer_spec {j : ServerInput π} (h : s.onServer crt j = some (t, o)) :
    ∃ outs, (serverMachine crt).step s.server j = some (t.server, outs) ∧ o = outs.map .server ∧
      t.clients = s.clients ∧ (∀ p, t.up p = (s.up p).drop (bytesRead p [j]).length) ∧
      ∀ p, t.down p = s.down p ++ sentBytes (queueOf p outs) := by
  obtain ⟨⟨server, outs⟩, hstep, h⟩ := Option.bind_eq_some_iff.mp h
  obtain ⟨rfl, rfl⟩ := Prod.mk.inj (Option.some.inj h)
  exact ⟨outs, hstep, rfl, rfl, fun _ => rfl, fun _ => rfl⟩

/-- A step of a client, and what it does on the way. -/
theorem ChatNetwork.onClient_spec {p : π} {j : ClientInput} (h : s.onClient crt p j = some (t, o)) :
    ∃ client outs, (clientMachine crt).step (s.clients p) j = some (client, outs) ∧
      o = outs.map (.client p) ∧ t.server = s.server ∧
      t.clients = Function.update s.clients p client ∧
      t.up = Function.update s.up p (s.up p ++
        if (s.clients p).socket = .connected then sentBytes (queueEvents outs) else []) ∧
      t.down = Function.update s.down p ((s.down p).drop (clientBytes [j]).length) := by
  obtain ⟨⟨client, outs⟩, hstep, h⟩ := Option.bind_eq_some_iff.mp h
  obtain ⟨rfl, rfl⟩ := Prod.mk.inj (Option.some.inj h)
  exact ⟨client, outs, hstep, rfl, rfl, rfl, rfl, rfl⟩

def NetworkInput.toServer : NetworkInput π → Option (ServerInput π)
  | .server i => some i
  | .client _ _ => none

def NetworkEvent.ofServer : NetworkEvent π → Option (ServerEvent π)
  | .server e => some e
  | .client _ _ => none

def NetworkInput.toClient (p : π) : NetworkInput π → Option ClientInput
  | .server _ => none
  | .client q i => if q = p then some i else none

def NetworkEvent.ofClient (p : π) : NetworkEvent π → Option ClientEvent
  | .server _ => none
  | .client q e => if q = p then some e else none

/-- What the server is offered, and what is seen of it. -/
def serverInputs (ins : List (NetworkInput π)) : List (ServerInput π) :=
  ins.filterMap NetworkInput.toServer

def serverEvents (outs : List (NetworkEvent π)) : List (ServerEvent π) :=
  outs.filterMap NetworkEvent.ofServer

/-- What a client is offered, and what is seen of it. -/
def clientInputs (p : π) (ins : List (NetworkInput π)) : List ClientInput :=
  ins.filterMap (NetworkInput.toClient p)

def clientEvents (p : π) (outs : List (NetworkEvent π)) : List ClientEvent :=
  outs.filterMap (NetworkEvent.ofClient p)

theorem serverEvents_append (outs outs' : List (NetworkEvent π)) :
    serverEvents (outs ++ outs') = serverEvents outs ++ serverEvents outs' := List.filterMap_append

theorem clientInputs_snoc (p : π) (ins : List (NetworkInput π)) (i : NetworkInput π) :
    clientInputs p (ins ++ [i]) = clientInputs p ins ++ clientInputs p [i] := List.filterMap_append

theorem clientEvents_append (p : π) (outs outs' : List (NetworkEvent π)) :
    clientEvents p (outs ++ outs') = clientEvents p outs ++ clientEvents p outs' :=
  List.filterMap_append

theorem serverEvents_server (outs : List (ServerEvent π)) :
    serverEvents (outs.map .server) = outs := by
  rw [serverEvents, List.filterMap_map]
  exact List.filterMap_some

theorem serverEvents_client (p : π) (outs : List ClientEvent) :
    serverEvents (outs.map (.client p)) = [] := by
  simp [serverEvents, List.filterMap_map, NetworkEvent.ofServer]

theorem clientEvents_client (p q : π) (outs : List ClientEvent) :
    clientEvents p (outs.map (.client q)) = if q = p then outs else [] := by
  rw [clientEvents, List.filterMap_map]
  by_cases hq : q = p
  · subst hq
    have hsome : NetworkEvent.ofClient q ∘ NetworkEvent.client q = some := by
      funext e
      exact if_pos rfl
    rw [hsome, List.filterMap_some, if_pos rfl]
  · simp [NetworkEvent.ofClient, hq]

theorem clientEvents_server (p : π) (outs : List (ServerEvent π)) :
    clientEvents p (outs.map .server) = [] := by
  simp [clientEvents, List.filterMap_map, NetworkEvent.ofClient]

theorem clientInputs_client (p q : π) (i : ClientInput) :
    clientInputs p [.client q i] = if q = p then [i] else [] := by
  by_cases hq : q = p
  · simp [clientInputs, NetworkInput.toClient, hq]
  · simp [clientInputs, NetworkInput.toClient, hq]

/-- The server is a part of the chat, -/
def serverView (crt : InvalidParameter) :
    (networkMachine crt : Machine (ChatNetwork π) (NetworkInput π) (NetworkEvent π)).View
      (serverMachine crt : Machine (ChatServer π) (ServerInput π) (ServerEvent π)) where
  inv _ := True
  state := ChatNetwork.server
  input := NetworkInput.toServer
  output := NetworkEvent.ofServer
  keep _ _ _ := trivial
  own := by
    rintro s t (j | ⟨p, j⟩) o k - ha hs hi
    · obtain rfl : j = k := Option.some.inj hi
      obtain ⟨outs, hstep, rfl, -⟩ := ChatNetwork.onServer_spec hs
      exact ⟨ha.1, hstep.trans (by rw [← serverEvents, serverEvents_server])⟩
    · cases hi
  other := by
    rintro s t (j | ⟨p, j⟩) o - ha hs hi
    · cases hi
    · obtain ⟨client, outs, -, rfl, hserver, -⟩ := ChatNetwork.onClient_spec hs
      exact ⟨hserver, serverEvents_client p outs⟩

/-- and so is every client. -/
def clientView (crt : InvalidParameter) (p : π) :
    (networkMachine crt : Machine (ChatNetwork π) (NetworkInput π) (NetworkEvent π)).View
      (clientMachine crt) where
  inv _ := True
  state s := s.clients p
  input := NetworkInput.toClient p
  output := NetworkEvent.ofClient p
  keep _ _ _ := trivial
  own := by
    rintro s t (j | ⟨q, j⟩) o k - ha hs hi
    · cases hi
    · by_cases hq : q = p
      · subst hq
        obtain rfl : j = k := by simpa [NetworkInput.toClient] using hi
        obtain ⟨client, outs, hstep, rfl, -, hclients, -⟩ := ChatNetwork.onClient_spec hs
        rw [hclients, Function.update_self, ← clientEvents, clientEvents_client, if_pos rfl]
        exact ⟨ha.1, hstep⟩
      · simp [NetworkInput.toClient, hq] at hi
  other := by
    rintro s t (j | ⟨q, j⟩) o - ha hs hi
    · obtain ⟨outs, -, rfl, hclients, -⟩ := ChatNetwork.onServer_spec hs
      exact ⟨by rw [hclients], clientEvents_server p outs⟩
    · by_cases hq : q = p
      · simp [NetworkInput.toClient, hq] at hi
      · obtain ⟨client, outs, -, rfl, -, hclients, -⟩ := ChatNetwork.onClient_spec hs
        rw [hclients, Function.update_of_ne (Ne.symm hq), ← clientEvents, clientEvents_client,
          if_neg hq]
        exact ⟨rfl, rfl⟩

variable {storage : π → ChatMessage} {ins : List (NetworkInput π)} {outs : List (NetworkEvent π)}

theorem server_run (h : (networkMachine crt).Run (.start storage) ins s outs) :
    (serverMachine crt).Run .empty (serverInputs ins) s.server (serverEvents outs) :=
  (serverView crt).run trivial h

theorem client_run (h : (networkMachine crt).Run (.start storage) ins s outs) (p : π) :
    (clientMachine crt).Run (.new (storage p)) (clientInputs p ins) (s.clients p)
      (clientEvents p outs) :=
  (clientView crt p).run trivial h

/-! ### What comes down -/

/-- **Down.** What a client has read and what is on its way to it are the bytes of the messages
whose writing its session has begun. -/
theorem network_down (h : (networkMachine crt).Run (.start storage) ins s outs) (p : π) :
    clientBytes (clientInputs p ins) ++ s.down p = sentBytes (queueOf p (serverEvents outs)) := by
  refine h.invariant (P := fun ins s outs => clientBytes (clientInputs p ins) ++ s.down p =
    sentBytes (queueOf p (serverEvents outs))) rfl ?_
  rintro ins s outs (i | ⟨q, i⟩) t o - hdown ha hs
  · obtain ⟨outs', -, rfl, -, -, ht⟩ := ChatNetwork.onServer_spec hs
    have hinputs : clientInputs p (ins ++ [.server i]) = clientInputs p ins := by
      rw [clientInputs_snoc]
      exact List.append_nil _
    rw [hinputs, ht, ← List.append_assoc, hdown, serverEvents_append, serverEvents_server,
      queueOf_append, sentBytes_append]
  · obtain ⟨client, outs', -, rfl, -, -, -, ht⟩ := ChatNetwork.onClient_spec hs
    rw [serverEvents_append, serverEvents_client, List.append_nil, ← hdown, ht, clientInputs_snoc,
      clientInputs_client]
    by_cases hq : q = p
    · subst hq
      have htake := List.prefix_iff_eq_append.mp ha.2
      rw [Function.update_self, if_pos rfl, clientBytes_snoc, List.append_assoc, htake]
    · rw [Function.update_of_ne (Ne.symm hq), if_neg hq, List.append_nil]

/-! ### What goes up -/

/-- What has been sent after the observations `evs`: all that has been written, and the message at
the front as well if its write was begun on a connected socket. -/
structure Carries (out : Outbox ChatMessage) (evs : List (WriteEvent ChatMessage))
    (sent : List UInt8) : Prop where
  sent_isPrefix : sent <+: (written evs ++ out.writeMsgs).flatMap ChatMessage.wire
  idle : out.writeMsgs = [] → sent = (written evs).flatMap ChatMessage.wire
  busy : ∀ op ∈ out.writes, op.connected →
    sent = (written evs ++ out.writeMsgs.take 1).flatMap ChatMessage.wire

section Carries

variable {out out' : Outbox ChatMessage} {evs evs' : List (WriteEvent ChatMessage)}
  {sent : List UInt8} {w : SerialWriter ChatMessage} {socket socket' : Socket} {msg : ChatMessage}

theorem carries_empty : Carries .empty [] [] :=
  ⟨List.nil_prefix, fun _ => rfl, by simp [Outbox.empty]⟩

/-- A message behind others is not on its way yet. -/
theorem Carries.behind {popped : ℕ} {front : ChatMessage} {rest : List ChatMessage}
    {ws : List (WriteOp ChatMessage)} (h : Carries ⟨popped, front :: rest, ws⟩ evs sent)
    (msg : ChatMessage) :
    Carries ⟨popped, front :: (rest ++ [msg]), ws⟩ (evs ++ [.enqueued msg]) sent := by
  have hwritten : written (evs ++ [.enqueued msg]) = written evs := by
    rw [written_append]
    exact List.append_nil _
  refine ⟨?_, by simp, fun op hop hconnected => ?_⟩
  · rw [hwritten]
    exact h.sent_isPrefix.trans (List.IsPrefix.flatMap ⟨[msg], List.append_assoc ..⟩ _)
  · rw [hwritten]
    exact h.busy op hop hconnected

/-- A message that finds the queue empty is on its way if the socket is connected. -/
theorem Carries.push (h : Carries out evs sent) (hrep : out.Represents w)
    (hpush : chatClient.push socket out msg = some ((socket', out'), evs')) :
    Carries out' (evs ++ evs') (sent ++ if socket = .connected then sentBytes evs' else []) := by
  cases hrep with
  | idle popped =>
    rw [chatClient.push_nil] at hpush
    cases hpush
    have hsent := h.idle rfl
    have hwritten : written (evs ++ [.enqueued msg, .started msg]) = written evs := by
      rw [written_append]
      exact List.append_nil _
    rw [show sentBytes [.enqueued msg, .started msg] = msg.wire by simp [sentBytes, started]]
    split_ifs with hsocket
    · have hfront : sent ++ msg.wire = (written evs ++ [msg]).flatMap ChatMessage.wire := by
        simp [hsent]
      exact ⟨by rw [hfront, hwritten], by simp, fun _ _ _ => by rw [hfront, hwritten]; rfl⟩
    · refine ⟨?_, by simp, ?_⟩
      · rw [List.append_nil, hsent, hwritten]
        exact (List.prefix_append _ _).flatMap _
      · intro op hop hconnected
        obtain rfl := List.mem_singleton.mp hop
        exact absurd (by simpa [chatClient] using hconnected) hsocket
  | busy popped front rest connected =>
    rw [chatClient.push_cons] at hpush
    cases hpush
    rw [show sentBytes [.enqueued msg] = [] from rfl, ite_self, List.append_nil]
    exact h.behind msg
  | failed popped front rest =>
    rw [chatClient.push_cons] at hpush
    cases hpush
    rw [show sentBytes [.enqueued msg] = [] from rfl, ite_self, List.append_nil]
    exact h.behind msg

/-- When the write of a message has succeeded the next one is on its way. -/
theorem Carries.complete (h : Carries out evs sent) (hrep : out.Represents w) {k : ℕ} {ok : Bool}
    (hop : ∃ op ∈ out.writes[k]?, ok → op.connected ∧ socket = .connected)
    (hcomplete : chatClient.complete socket out k ok = some ((socket', out'), evs')) :
    Carries out' (evs ++ evs') (sent ++ if socket = .connected then sentBytes evs' else []) := by
  obtain ⟨op, hop, hsound⟩ := hop
  cases hrep with
  | idle popped => simp at hop
  | failed popped front rest => simp at hop
  | busy popped front rest connected =>
    obtain ⟨hk, hget⟩ := List.getElem?_eq_some_iff.mp hop
    obtain rfl : k = 0 := by simpa using hk
    obtain rfl : ⟨popped, front, connected⟩ = op := by simpa using hget
    cases ok with
    | false =>
      rw [chatClient.complete_front_false] at hcomplete
      cases hcomplete
      have hwritten : written (evs ++ [.failed front]) = written evs := by
        rw [written_append]
        exact List.append_nil _
      rw [show sentBytes [.failed front] = [] from rfl, ite_self, List.append_nil]
      exact ⟨by rw [hwritten]; exact h.sent_isPrefix, by simp, by simp⟩
    | true =>
      obtain ⟨hconnected, hsocket⟩ := hsound rfl
      have hfront := h.busy _ List.mem_cons_self hconnected
      rw [if_pos hsocket]
      cases rest with
      | nil =>
        rw [chatClient.complete_last] at hcomplete
        cases hcomplete
        have hwritten : written (evs ++ [.written front]) = written evs ++ [front] :=
          written_append evs [.written front]
        rw [show sentBytes [.written front] = [] from rfl, List.append_nil]
        refine ⟨?_, fun _ => ?_, by simp⟩
        · rw [hfront, hwritten, List.append_nil]
          rfl
        · rw [hfront, hwritten]
          rfl
      | cons next rest =>
        rw [chatClient.complete_next] at hcomplete
        cases hcomplete
        have hwritten : written (evs ++ [.written front, .started next]) = written evs ++ [front] :=
          written_append evs [.written front, .started next]
        have hnext : sent ++ next.wire =
            (written evs ++ [front] ++ [next]).flatMap ChatMessage.wire := by
          rw [hfront]
          simp
        rw [show sentBytes [.written front, .started next] = next.wire by simp [sentBytes, started],
          hnext]
        refine ⟨?_, by simp, fun _ _ _ => by rw [hwritten]; rfl⟩
        rw [hwritten]
        refine List.IsPrefix.flatMap ?_ _
        exact ⟨rest, List.append_assoc ..⟩

end Carries

/-- The outbox of a client is that of a writer. -/
theorem clientMachine_represents {readMsg : ChatMessage} {ins : List ClientInput} {c : ChatClient}
    {outs : List ClientEvent} (h : (clientMachine crt).Run (.new readMsg) ins c outs) :
    ∃ w, c.outbox.Represents w := by
  refine h.invariant (P := fun _ c _ => ∃ w, c.outbox.Represents w) ⟨.idle, .idle 0⟩ ?_
  rintro ins c outs i t o - ⟨w, hrep⟩ ha hs
  obtain ⟨w', -, hrep', -⟩ := clientMachine_step_account hrep ha hs
  exact ⟨w', hrep'⟩

/-- A step of a client sends what its outbox says. -/
theorem Carries.step {c c' : ChatClient} {j : ClientInput} {outs : List ClientEvent}
    {evs : List (WriteEvent ChatMessage)} {sent : List UInt8} {w : SerialWriter ChatMessage}
    (h : Carries c.outbox evs sent) (hrep : c.outbox.Represents w)
    (ha : (clientMachine crt).allowed c j) (hs : (clientMachine crt).step c j = some (c', outs)) :
    Carries c'.outbox (evs ++ queueEvents outs)
      (sent ++ if c.socket = .connected then sentBytes (queueEvents outs) else []) := by
  have hquiet : Carries c.outbox (evs ++ [])
      (sent ++ if c.socket = .connected then sentBytes [] else []) := by
    rw [show sentBytes [] = [] from rfl, ite_self, List.append_nil, List.append_nil]
    exact h
  obtain ⟨msg, rfl, rfl, rfl⟩ | ⟨rfl, rfl, rfl⟩ |
    ⟨msg, posted, socket, outbox, evs', rfl, -, hpush, rfl, rfl⟩ | ⟨posted, rfl, -, rfl, rfl⟩ |
    ⟨ok, rfl, rfl, rfl⟩ | ⟨k, ok, socket, outbox, evs', rfl, hcomplete, rfl, rfl⟩ |
    ⟨op, bytes, rfl, hread⟩ := clientMachine_cases hs
  · exact hquiet
  · exact hquiet
  · rw [queueEvents_map]
    exact h.push hrep hpush
  · exact hquiet
  · cases ok with
    | false => exact hquiet
    | true => exact hquiet
  · rw [queueEvents_map]
    exact h.complete hrep ha hcomplete
  · obtain ⟨houtbox, -, -, -, hnone, -⟩ := ChatClient.onRead_frame hread
    rw [houtbox, hnone]
    exact hquiet

/-- **Up.** What the server has read from a client and what is on its way from it are the bytes of
the messages whose writing the client has begun on a connected socket. -/
theorem network_up (h : (networkMachine crt).Run (.start storage) ins s outs) (p : π) :
    Carries (s.clients p).outbox (queueEvents (clientEvents p outs))
      (bytesRead p (serverInputs ins) ++ s.up p) := by
  refine h.invariant (P := fun ins s outs => Carries (s.clients p).outbox
    (queueEvents (clientEvents p outs)) (bytesRead p (serverInputs ins) ++ s.up p)) carries_empty ?_
  rintro ins s outs (i | ⟨q, i⟩) t o hrun hup ha hs
  · obtain ⟨outs', -, rfl, hclients, ht, -⟩ := ChatNetwork.onServer_spec hs
    have hinputs : serverInputs (ins ++ [.server i]) = serverInputs ins ++ [i] :=
      List.filterMap_append
    have htake : bytesRead p [i] ++ (s.up p).drop (bytesRead p [i]).length = s.up p := by
      refine List.prefix_iff_eq_append.mp ?_
      cases i with
      | accept q readMsg => exact List.nil_prefix
      | complete q k ok => exact List.nil_prefix
      | read q op bytes =>
        by_cases hq : q = p
        · subst hq
          have hoffer : bytes.getD [] <+: s.up q := ha.2
          simpa [bytesRead] using hoffer
        · simp [bytesRead, hq]
    rw [hclients, clientEvents_append, clientEvents_server, List.append_nil, hinputs,
      bytesRead_snoc, ht, List.append_assoc, htake]
    exact hup
  · obtain ⟨client, outs', hstep, rfl, -, hclients, ht, -⟩ := ChatNetwork.onClient_spec hs
    have hinputs : serverInputs (ins ++ [.client q i]) = serverInputs ins := by
      rw [serverInputs, List.filterMap_append]
      exact List.append_nil _
    rw [hinputs, hclients, ht, clientEvents_append, clientEvents_client, queueEvents_append]
    by_cases hq : q = p
    · subst hq
      obtain ⟨w, hrep⟩ := clientMachine_represents (client_run hrun q)
      rw [Function.update_self, Function.update_self, if_pos rfl, ← List.append_assoc]
      exact hup.step hrep ha.1 hstep
    · rw [Function.update_of_ne (Ne.symm hq), Function.update_of_ne (Ne.symm hq), if_neg hq]
      rw [show queueEvents [] = [] from rfl, List.append_nil]
      exact hup

end Exec02
