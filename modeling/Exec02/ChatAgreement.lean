import Exec02.ChatNetwork

/-!
# What the chat clients print

The clients and the server of the chat (`MyTCPChatCli01.cpp`, `MyTCPChatSrv01.cpp`), connected. The
server puts the messages into one order, and what a client prints is a piece of that order without
a gap; so any two clients agree on what they both print.

Of the lines that are typed nothing comes through. Their headers have no room for a NUL, and
`decode_header` finds no length in such a header, at either end.

## Main results

* `chat_agreement` — the lines that a client prints are those of the room, in order
* `chat_blank` — and they are blank, if the messages are those that `main` composes
-/

namespace Exec02

variable {π : Type} [LinearOrder π] {crt : InvalidParameter} {storage : π → ChatMessage}
  {ins : List (NetworkInput π)} {s : ChatNetwork π} {outs : List (NetworkEvent π)}

theorem spoken_append (outs outs' : List (ServerEvent π)) :
    spoken (outs ++ outs') = spoken outs ++ spoken outs' := by
  rw [spoken, roomCalls_append, delivered, List.filterMap_append]
  rfl

/-- What a session is to write is a piece of what is spoken. -/
theorem ChatServer.Delivers.enqueued_infix {s : ChatServer π} {outs : List (ServerEvent π)}
    (h : s.Delivers outs) (p : π) : enqueued (queueOf p outs) <:+: spoken outs := by
  by_cases hp : .joined p ∈ outs
  · obtain ⟨before, after, rfl⟩ := List.append_of_mem hp
    rw [h.enqueued_of_joined, spoken_append]
    have hrecent : (spoken before).rtake maxRecentMsgs <:+ spoken before := List.drop_suffix _ _
    have huntil : spokenUntilLeft p after <+: spoken after :=
      (List.takeWhile_prefix _).filterMap _
    obtain ⟨early, hearly⟩ := hrecent
    obtain ⟨late, hlate⟩ := huntil
    refine ⟨early, late, ?_⟩
    rw [← List.append_assoc, hearly, List.append_assoc, hlate]
    rfl
  · rw [h.enqueued_of_notMem hp]
    exact List.nil_infix

/-- **From the queue to the screen.** A client prints the first of the messages that its session has
been given. -/
theorem printed_isPrefix (h : (networkMachine crt).Run (.start storage) ins s outs) (p : π) :
    printedBodies (clientEvents p outs) <+:
      (enqueued (queueOf p (serverEvents outs))).map ChatMessage.body := by
  have hdelivers := serverMachine_delivers (server_run h)
  obtain ⟨msgs, rest, hreads⟩ := clientMachine_reads (client_run h p)
  have hframed := serverMachine_framed (server_run h)
  rw [hreads.printed]
  refine ChatMessage.map_body_prefix hreads.framed ?_ ?_
  · intro msg hmsg
    exact hframed msg ((hdelivers.enqueued_infix p).subset hmsg)
  · have hdown := network_down h p
    rw [hreads.bytes, List.append_assoc] at hdown
    calc msgs.flatMap ChatMessage.wire
      _ <+: sentBytes (queueOf p (serverEvents outs)) := ⟨_, hdown⟩
      _ <+: (enqueued (queueOf p (serverEvents outs))).flatMap ChatMessage.wire :=
        (hdelivers.started_prefix p).flatMap _

/-- What a client's session has said are bytes of the messages that its `main` has passed on. -/
theorem spokenBy_isPrefix (h : (networkMachine crt).Run (.start storage) ins s outs) (p : π) :
    (spokenBy p (serverEvents outs)).flatMap ChatMessage.wire <+:
      (passed (clientEvents p outs)).flatMap ChatMessage.wire := by
  have hpassed := clientMachine_account (client_run h p)
  have hup := (network_up h p).sent_isPrefix
  have hrelays := serverMachine_relays (server_run h) p
  have hspoken : (spokenBy p (serverEvents outs)).flatMap ChatMessage.wire <+:
      bytesRead p (serverInputs ins) := by
    cases hr : s.server.readers p with
    | none =>
      rw [hr] at hrelays
      rw [hrelays.2]
      exact List.nil_prefix
    | some r =>
      rw [hr] at hrelays
      obtain ⟨rest, hbytes, -⟩ := hrelays
      exact ⟨rest, hbytes.symm⟩
  refine (hspoken.trans ((List.prefix_append _ _).trans hup)).trans ?_
  rw [hpassed, ← List.append_assoc]
  exact (List.prefix_append _ _).flatMap _

/-- **Agreement.** In every run, whatever the network does: a client prints the last hundred
messages spoken before its session joined and then every message until it leaves, in order, each
once, as far as it has got, and nothing before it joins; so it prints a piece of the one order in
which messages are spoken. What is spoken on its behalf are bytes that its `main` has passed on. -/
theorem chat_agreement (h : (networkMachine crt).Run (.start storage) ins s outs) (p : π) :
    (∀ before after, serverEvents outs = before ++ .joined p :: after →
      printedBodies (clientEvents p outs) <+:
        ((spoken before).rtake maxRecentMsgs ++ spokenUntilLeft p after).map ChatMessage.body) ∧
    (.joined p ∉ serverEvents outs → printedBodies (clientEvents p outs) = []) ∧
    printedBodies (clientEvents p outs) <:+: (spoken (serverEvents outs)).map ChatMessage.body ∧
    (spokenBy p (serverEvents outs)).flatMap ChatMessage.wire <+:
      (passed (clientEvents p outs)).flatMap ChatMessage.wire := by
  have hdelivers := serverMachine_delivers (server_run h)
  have hprinted := printed_isPrefix h p
  refine ⟨?_, ?_, ?_, spokenBy_isPrefix h p⟩
  · intro before after hsplit
    rw [hsplit] at hdelivers hprinted
    rw [← hdelivers.enqueued_of_joined]
    exact hprinted
  · intro hp
    rw [hdelivers.enqueued_of_notMem hp] at hprinted
    exact List.prefix_nil.mp hprinted
  · exact hprinted.isInfix.trans ((hdelivers.enqueued_infix p).map _)

/-- A message whose header does have a NUL. -/
def ChatMessage.raw : ChatMessage where
  data := ⟨[49, 0, 0, 0, 65] ++ List.replicate 511 0, by
    rw [List.length_append, List.length_replicate]
    rfl⟩
  bodyLength := 1

/-- It goes to the server and comes back. -/
def NetworkInput.raw : List (NetworkInput ℕ) :=
  [.client 0 (.write .raw), .client 0 (.connect true), .client 0 .runPosted,
    .server (.accept 0 .blank), .server (.read 0 .header (some [49, 0, 0, 0])),
    .server (.read 0 .body (some [65])), .client 0 (.read .header (some [49, 0, 0, 0])),
    .client 0 (.read .body (some [65]))]

theorem chat_agreement_raw : ∃ s outs, (networkMachine .terminates).Run
    (.start fun _ => .blank) NetworkInput.raw s outs ∧
      printedBodies (clientEvents 0 outs) = [[65]] ∧
      printedBodies (clientEvents 0 outs) <:+:
        (spoken (serverEvents outs)).map ChatMessage.body := by
  have hrun : (networkMachine .terminates).Run (.start fun _ => .blank) NetworkInput.raw _ _ :=
    Machine.run_of_exec rfl
  exact ⟨_, _, hrun, rfl, (chat_agreement hrun 0).2.2.1⟩

/-! ### Lines that are typed -/

/-- A message that `main` composes from a line of its standard input, which `strlen` ends at a
NUL. -/
def TypedMessage (crt : InvalidParameter) (msg : ChatMessage) : Prop :=
  ∃ (readMsg : ChatMessage) (line : List UInt8), line.length ≤ maxBodyLength ∧ 0 ∉ line ∧
    readMsg.compose crt line = some msg

theorem TypedMessage.zero_notMem {msg : ChatMessage} (h : TypedMessage crt msg) :
    0 ∉ msg.wire := by
  obtain ⟨readMsg, line, hline, hnul, hcompose⟩ := h
  obtain ⟨msg', hcompose', hwire⟩ := compose_wire crt readMsg hline
  rw [hcompose] at hcompose'
  obtain rfl := Option.some.inj hcompose'
  rw [hwire, List.mem_append, not_or]
  exact ⟨fun hmem => header_ne_nul hmem rfl, hnul⟩

/-- A header without a NUL announces nothing, or an empty body. -/
theorem ChatMessage.Framed.of_zero_notMem {msg : ChatMessage} (h : msg.Framed crt)
    (hnul : 0 ∉ msg.wire) : crt = .returns ∧ msg.body = [] := by
  have hheader : ∀ b ∈ msg.data.slice 0 headerLength, b ≠ 0 := by
    rintro b hb rfl
    rw [header_eq_take] at hb
    exact hnul (List.mem_of_mem_take hb)
  have hdecode := decodeHeader_of_full crt msg msg.length_header hheader
  have hannounced := announced_eq crt msg
  rw [h, hdecode] at hannounced
  cases crt with
  | terminates => simp at hannounced
  | returns =>
    obtain hlen : msg.bodyLength = 0 := by simpa using hannounced
    exact ⟨rfl, by rw [body, hlen]; rfl⟩

/-- **Nothing comes through.** If all the messages that are passed to `write` are composed from
typed lines, whatever is spoken is empty and every line that any client prints is blank; and if the
runtime ends a process over an invalid parameter, nothing is spoken and nothing is printed. -/
theorem chat_blank (h : (networkMachine crt).Run (.start storage) ins s outs)
    (htyped : ∀ p, ∀ msg ∈ passed (clientEvents p outs), TypedMessage crt msg) :
    (∀ msg ∈ spoken (serverEvents outs), crt = .returns ∧ msg.body = []) ∧
    ∀ p, ∀ body ∈ printedBodies (clientEvents p outs), crt = .returns ∧ body = [] := by
  have hspoken : ∀ msg ∈ spoken (serverEvents outs), crt = .returns ∧ msg.body = [] := by
    intro msg hmsg
    refine (serverMachine_framed (server_run h) msg hmsg).of_zero_notMem ?_
    obtain ⟨p, hp⟩ := mem_spoken.mp hmsg
    intro hnul
    -- the NUL would be a byte of a message that was typed
    have hmem : 0 ∈ (spokenBy p (serverEvents outs)).flatMap ChatMessage.wire :=
      List.mem_flatMap.mpr ⟨msg, hp, hnul⟩
    obtain ⟨msg', hmsg', hnul'⟩ := List.mem_flatMap.mp ((spokenBy_isPrefix h p).subset hmem)
    exact (htyped p msg' hmsg').zero_notMem hnul'
  refine ⟨hspoken, ?_⟩
  intro p body hbody
  have hdelivers := serverMachine_delivers (server_run h)
  obtain ⟨msg, hmsg, rfl⟩ := List.mem_map.mp ((printed_isPrefix h p).subset hbody)
  exact hspoken msg ((hdelivers.enqueued_infix p).subset hmsg)

/-- The line `hi`, as it is composed. -/
def ChatMessage.hi : ChatMessage :=
  ((ChatMessage.blank.compose .returns [104, 105])).get (by decide)

/-- It becomes a blank line, and its two bytes wait for more. -/
def NetworkInput.hi : List (NetworkInput ℕ) :=
  [.client 0 (.write .hi), .client 0 (.connect true), .client 0 .runPosted,
    .server (.accept 0 .blank), .server (.read 0 .header (some [32, 32, 32, 50])),
    .server (.read 0 .body (some [])), .client 0 (.read .header (some [32, 32, 32, 50])),
    .client 0 (.read .body (some []))]

theorem chat_blank_hi : ∃ s outs, (networkMachine .returns).Run (.start fun _ => .blank)
    NetworkInput.hi s outs ∧ (printedBodies (clientEvents 0 outs)).length = 1 ∧
      ∀ body ∈ printedBodies (clientEvents 0 outs), body = [] := by
  have hrun : (networkMachine .returns).Run (.start fun _ => .blank) NetworkInput.hi _ _ :=
    Machine.run_of_exec rfl
  refine ⟨_, _, hrun, rfl, fun body hbody => ((chat_blank hrun ?_).2 0 body hbody).2⟩
  intro p msg hmsg
  cases p with
  | zero =>
    obtain rfl : msg = .hi := List.mem_singleton.mp hmsg
    exact ⟨.blank, [104, 105], by decide, by decide, (Option.some_get _).symm⟩
  | succ p => exact absurd hmsg List.not_mem_nil

end Exec02
