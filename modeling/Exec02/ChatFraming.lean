import Exec02.ChatServerBytes
import Exec02.ChatClient
import Exec02.Lib.PrefixCode

/-!
# Where a chat message ends

Both ends of a chat read with the same `decode_header` (`MyChatMessage.hpp`), so both find the same
length in a header, whatever it is. What a reader has passed on is a message whose header announces
its body, and such messages can be told apart on the wire: if one stream of them begins another, the
one reader has the first messages of the other.

## Main results

* `framed_prefixCode` — messages whose headers announce their bodies are a prefix code
* `serverMachine_framed` — all that is said to the room is framed
* `clientMachine_reads` — what a client prints, and the bytes it has read for it
-/

namespace Exec02

variable {crt : InvalidParameter}

/-- The length that `decode_header` finds in a header, if it accepts one. -/
def announced (crt : InvalidParameter) (header : List UInt8) : Option ℕ := do
  let text ← strncatS crt [] headerLength header headerLength
  let bodyLength := sizeOfInt (atoi text)
  if bodyLength > maxBodyLength then none else some bodyLength

namespace ChatMessage

variable {msg msg' : ChatMessage}

/-- The header of a message announces its body. -/
def Framed (crt : InvalidParameter) (msg : ChatMessage) : Prop :=
  announced crt (msg.data.slice 0 headerLength) = some msg.bodyLength

theorem announced_le {header : List UInt8} {n : ℕ} (h : announced crt header = some n) :
    n ≤ maxBodyLength := by
  obtain ⟨text, -, h⟩ := Option.bind_eq_some_iff.mp h
  dsimp only at h
  split_ifs at h with hle
  obtain rfl := Option.some.inj h
  exact Nat.le_of_not_gt hle

/-- A header announces the length with which it is accepted. -/
theorem announced_eq (crt : InvalidParameter) (msg : ChatMessage) :
    announced crt (msg.data.slice 0 headerLength) = match msg.decodeHeader crt with
      | some (true, msg') => some msg'.bodyLength
      | _ => none := by
  rw [announced, decodeHeader]
  cases strncatS crt [] headerLength (msg.data.slice 0 headerLength) headerLength with
  | none => rfl
  | some text =>
    simp only [Option.bind_eq_bind, Option.bind_some]
    split_ifs <;> rfl

/-- What is sent is the header and the body. -/
theorem wire_eq (msg : ChatMessage) :
    msg.wire = msg.data.slice 0 headerLength ++ msg.body := by
  rw [wire, length, ← msg.data.slice_append, Nat.zero_add]
  rfl

theorem length_header (msg : ChatMessage) :
    (msg.data.slice 0 headerLength).length = headerLength :=
  msg.data.length_slice (by omega)

theorem body_eq_drop (msg : ChatMessage) : msg.body = msg.wire.drop headerLength := by
  rw [wire_eq, List.drop_left' msg.length_header]

theorem header_eq_take (msg : ChatMessage) :
    msg.data.slice 0 headerLength = msg.wire.take headerLength := by
  rw [wire_eq, List.take_left' msg.length_header]

theorem Framed.length_wire (h : msg.Framed crt) : msg.wire.length = headerLength + msg.bodyLength :=
  msg.data.length_slice (by
    have hle := announced_le h
    rw [Nat.zero_add, length]
    omega)

/-- **Framing.** Messages whose headers announce their bodies can follow each other. -/
theorem framed_prefixCode (crt : InvalidParameter) :
    PrefixCode (ChatMessage.Framed crt) ChatMessage.wire where
  ne_nil := by
    intro msg h
    refine List.ne_nil_of_length_pos ?_
    rw [h.length_wire, headerLength]
    omega
  eq_of_prefix := by
    intro msg msg' h h' hpfx
    have hheader : msg.data.slice 0 headerLength = msg'.data.slice 0 headerLength := by
      rw [header_eq_take, header_eq_take]
      obtain ⟨rest, hrest⟩ := hpfx
      rw [← hrest, List.take_append_of_le_length]
      rw [h.length_wire]
      omega
    have hannounced : announced crt (msg.data.slice 0 headerLength) = some msg'.bodyLength := by
      rw [hheader]
      exact h'
    have hbody : msg.bodyLength = msg'.bodyLength := Option.some.inj (h.symm.trans hannounced)
    refine hpfx.eq_of_length ?_
    rw [h.length_wire, h'.length_wire, hbody]

/-- One stream of framed messages that begins another one has the bodies of the first of them. -/
theorem map_body_prefix {msgs msgs' : List ChatMessage} (h : ∀ m ∈ msgs, m.Framed crt)
    (h' : ∀ m ∈ msgs', m.Framed crt) (hpfx : msgs.flatMap wire <+: msgs'.flatMap wire) :
    msgs.map body <+: msgs'.map body := by
  have hmap := ((framed_prefixCode crt).map_isPrefix h h' hpfx).map (List.drop headerLength)
  rw [List.map_map, List.map_map] at hmap
  have hbody : body = List.drop headerLength ∘ wire := by
    funext msg
    exact msg.body_eq_drop
  rw [hbody]
  exact hmap

end ChatMessage

/-! ### What a reader passes on -/

/-- A reader that waits for a body waits for what its header announces. -/
def Reader.Tuned (crt : InvalidParameter) (r : Reader) : Prop :=
  r.reading = some .body → r.readMsg.Framed crt

theorem Reader.tuned_header (readMsg : ChatMessage) :
    (Reader.doReadHeader ⟨readMsg, none⟩).Tuned crt := by
  intro h
  simp [doReadHeader] at h

theorem Reader.tuned_stop (readMsg : ChatMessage) : Reader.Tuned crt ⟨readMsg, none⟩ := by
  intro h
  simp at h

variable {r r' : Reader} {op : ReadOp} {bytes : Option (List UInt8)}

/-- **One read.** The reader stays in tune, and what it passes on is framed. -/
theorem Reader.onRead_tuned (h : r.Tuned crt) (ha : r.Awaits op bytes) {action : ReadAction}
    (hread : r.onRead crt op bytes = some (r', action)) :
    r'.Tuned crt ∧ ∀ msg ∈ action.passed, msg.Framed crt := by
  obtain ⟨hreading, -⟩ := ha
  cases bytes with
  | none =>
    obtain ⟨rfl, rfl⟩ : ⟨r.readMsg, none⟩ = r' ∧ ReadAction.stop = action := by
      cases op <;> simpa [onRead, onReadHeader, onReadBody] using hread
    exact ⟨tuned_stop _, by simp [ReadAction.passed]⟩
  | some bytes =>
    cases op with
    | header =>
      obtain ⟨data, -, hread⟩ := Option.bind_eq_some_iff.mp hread
      obtain ⟨⟨accepted, readMsg⟩, hdecode, hread⟩ := Option.bind_eq_some_iff.mp hread
      cases accepted with
      | false =>
        obtain ⟨rfl, rfl⟩ : ⟨readMsg, none⟩ = r' ∧ ReadAction.stop = action := by simpa using hread
        exact ⟨tuned_stop _, by simp [ReadAction.passed]⟩
      | true =>
        obtain ⟨rfl, rfl⟩ : doReadBody ⟨readMsg, none⟩ = r' ∧ ReadAction.proceed = action := by
          simpa using hread
        refine ⟨fun _ => ?_, by simp [ReadAction.passed]⟩
        have hannounced := ChatMessage.announced_eq crt { r.readMsg with data := data }
        rw [hdecode] at hannounced
        rwa [← ChatMessage.decodeHeader_data hdecode] at hannounced
    | body =>
      obtain ⟨data, hdata, hread⟩ := Option.bind_eq_some_iff.mp hread
      obtain ⟨rfl, rfl⟩ : doReadHeader ⟨{ r.readMsg with data := data }, none⟩ = r' ∧
          ReadAction.deliver { r.readMsg with data := data } = action := by
        simpa using hread
      refine ⟨tuned_header _, ?_⟩
      intro msg hmsg
      obtain rfl := List.mem_singleton.mp hmsg
      have hhead : data.slice 0 headerLength = r.readMsg.data.slice 0 headerLength :=
        Buffer.slice_write_of_disjoint hdata (Or.inl (by omega))
      show announced crt (data.slice 0 headerLength) = some r.readMsg.bodyLength
      rw [hhead]
      exact h hreading

/-! ### The whole server -/

section Server

variable {π : Type} [LinearOrder π] {ins : List (ServerInput π)} {s t : ChatServer π}
  {outs o : List (ServerEvent π)} {i : ServerInput π}

theorem mem_spoken {msg : ChatMessage} : msg ∈ spoken outs ↔ ∃ p, msg ∈ spokenBy p outs := by
  induction outs with
  | nil => simp [spoken, roomCalls, delivered, spokenBy]
  | cons e outs ih =>
    have happend (p : π) : spokenBy p (e :: outs) = spokenBy p [e] ++ spokenBy p outs :=
      spokenBy_append p [e] outs
    simp only [happend, List.mem_append, exists_or, ← ih]
    cases e with
    | spoke q members msg' => simp [spoken, delivered, spokenBy, eq_comm]
    | joined q => simp [spoken, delivered, spokenBy]
    | left q => simp [spoken, delivered, spokenBy]
    | queue q e => simp [spoken, roomCalls, spokenBy]

/-- The readers are in tune, and what has been said is framed. -/
def SpeaksFramed (crt : InvalidParameter) (s : ChatServer π) (outs : List (ServerEvent π)) : Prop :=
  ∀ p, (∀ r ∈ s.readers p, r.Tuned crt) ∧ ∀ msg ∈ spokenBy p outs, msg.Framed crt

/-- The reader of one session goes on, and says what is framed. -/
theorem SpeaksFramed.update (h : SpeaksFramed crt s outs) {p : π}
    (hreaders : t.readers = Function.update s.readers p (some r)) (hr : r.Tuned crt)
    (hspoken : ∀ q, ∀ msg ∈ spokenBy q o, msg.Framed crt) : SpeaksFramed crt t (outs ++ o) := by
  intro q
  refine ⟨?_, ?_⟩
  · intro r' hr'
    rw [hreaders] at hr'
    by_cases hq : q = p
    · subst hq
      rw [Function.update_self] at hr'
      obtain rfl := Option.some.inj hr'
      exact hr
    · rw [Function.update_of_ne hq] at hr'
      exact (h q).1 r' hr'
  · intro msg hmsg
    rw [spokenBy_append] at hmsg
    rcases List.mem_append.mp hmsg with hmsg | hmsg
    · exact (h q).2 msg hmsg
    · exact hspoken q msg hmsg

theorem SpeaksFramed.step (h : SpeaksFramed crt s outs) (hi : (serverMachine crt).allowed s i)
    (hs : (serverMachine crt).step s i = some (t, o)) : SpeaksFramed crt t (outs ++ o) := by
  cases i with
  | accept p readMsg =>
    obtain ⟨hreaders, hspoken⟩ := ChatServer.onAccept_reader hs
    exact h.update hreaders (Reader.tuned_header readMsg) fun q => by simp [hspoken q]
  | complete p k ok =>
    obtain ⟨hreaders, hcase⟩ := ChatServer.onWrite_spec hs
    have hspoken (q : π) : spokenBy q o = [] := by
      split_ifs at hcase with hok
      · exact hcase.2.spokenBy_eq_nil q
      · obtain ⟨-, rest, rfl, hquiet⟩ := hcase
        rw [spokenBy_append, hquiet.spokenBy_eq_nil]
        rfl
    intro q
    rw [hreaders, spokenBy_append, hspoken, List.append_nil]
    exact h q
  | read p op bytes =>
    obtain ⟨r, r', action, hr, hread, hreaders, hspoken⟩ := ChatServer.onRead_reader hs
    obtain ⟨session, hsession, ha⟩ := hi
    have hr' : r = session.reader :=
      Option.some.inj (hr.symm.trans (ChatServer.readers_of_mem hsession))
    obtain ⟨htuned, hpassed⟩ := Reader.onRead_tuned ((h p).1 r hr) (hr' ▸ ha) hread
    refine h.update hreaders htuned ?_
    intro q msg hmsg
    rw [hspoken] at hmsg
    split_ifs at hmsg
    · exact hpassed msg hmsg
    · simp at hmsg

/-- Whatever is said to the room is framed. -/
theorem serverMachine_framed (h : (serverMachine crt).Run .empty ins s outs) :
    ∀ msg ∈ spoken outs, msg.Framed crt := by
  have hall : SpeaksFramed crt s outs := by
    refine h.invariant (P := fun _ s outs => SpeaksFramed crt s outs) ?_ ?_
    · exact fun p => ⟨by simp [ChatServer.readers, ChatServer.empty], by simp [spokenBy]⟩
    · intro ins s outs i t o _ hs hi hstep
      exact hs.step hi hstep
  intro msg hmsg
  obtain ⟨p, hp⟩ := mem_spoken.mp hmsg
  exact (hall p).2 msg hp

end Server

/-! ### A client -/

/-- The bodies printed. -/
def printedBodies : List ClientEvent → List (List UInt8) :=
  List.filterMap fun
    | .printed body => some body
    | _ => none

/-- What the socket of a client has brought. -/
def clientBytes : List ClientInput → List UInt8 :=
  List.flatMap fun
    | .read _ bytes => bytes.getD []
    | _ => []

theorem printedBodies_append (outs outs' : List ClientEvent) :
    printedBodies (outs ++ outs') = printedBodies outs ++ printedBodies outs' :=
  List.filterMap_append

theorem clientBytes_snoc (ins : List ClientInput) (i : ClientInput) :
    clientBytes (ins ++ [i]) = clientBytes ins ++ clientBytes [i] := List.flatMap_append

/-- What a client has printed are the bodies of framed messages, and these, with what its reader
holds, are what its socket has brought. -/
structure ChatClient.Reads (crt : InvalidParameter) (ins : List ClientInput) (c : ChatClient)
    (outs : List ClientEvent) (msgs : List ChatMessage) (rest : List UInt8) : Prop where
  printed : printedBodies outs = msgs.map ChatMessage.body
  bytes : clientBytes ins = msgs.flatMap ChatMessage.wire ++ rest
  framed : ∀ msg ∈ msgs, msg.Framed crt
  holds : c.reader.Holds rest
  tuned : c.reader.Tuned crt
  connecting : c.connecting → clientBytes ins = [] ∧ c.reader.reading = none

variable {ins : List ClientInput} {c t : ChatClient} {outs o : List ClientEvent} {i : ClientInput}
  {msgs : List ChatMessage} {rest : List UInt8}

/-- A step that has nothing to do with the reading. -/
theorem ChatClient.Reads.same (h : ChatClient.Reads crt ins c outs msgs rest)
    (hreader : t.reader = c.reader) (hconnecting : t.connecting → c.connecting)
    (hbytes : clientBytes [i] = []) (hprinted : printedBodies o = []) :
    ChatClient.Reads crt (ins ++ [i]) t (outs ++ o) msgs rest where
  printed := by rw [printedBodies_append, hprinted, List.append_nil, h.printed]
  bytes := by rw [clientBytes_snoc, hbytes, List.append_nil, h.bytes]
  framed := h.framed
  holds := hreader ▸ h.holds
  tuned := hreader ▸ h.tuned
  connecting ht := by
    rw [clientBytes_snoc, hbytes, List.append_nil, hreader]
    exact h.connecting (hconnecting ht)

theorem printedBodies_queue (evs : List (WriteEvent ChatMessage)) :
    printedBodies (evs.map .queue) = [] := by
  simp [printedBodies, List.filterMap_map]

/-- A read of a client: its reader goes on, and what that passes on is printed. -/
theorem ChatClient.onRead_reader {bytes : Option (List UInt8)}
    (h : c.onRead crt op bytes = some (t, o)) :
    ∃ action, c.reader.onRead crt op bytes = some (t.reader, action) ∧
      t.connecting = c.connecting ∧ printedBodies o = action.passed.map ChatMessage.body := by
  obtain ⟨⟨reader, action⟩, hread, h⟩ := Option.bind_eq_some_iff.mp h
  refine ⟨action, ?_⟩
  rw [hread]
  cases action with
  | proceed =>
    obtain ⟨rfl, rfl⟩ : { c with reader } = t ∧ [] = o := by simpa using h
    exact ⟨rfl, rfl, rfl⟩
  | deliver msg =>
    obtain ⟨rfl, rfl⟩ : { c with reader } = t ∧ [.printed msg.body] = o := by simpa using h
    exact ⟨rfl, rfl, rfl⟩
  | stop =>
    obtain ⟨rfl, rfl⟩ : { c with reader, socket := .closed } = t ∧ [] = o := by simpa using h
    exact ⟨rfl, rfl, rfl⟩

theorem ChatClient.Reads.step (h : ChatClient.Reads crt ins c outs msgs rest)
    (ha : (clientMachine crt).allowed c i) (hs : (clientMachine crt).step c i = some (t, o)) :
    ∃ msgs' rest', ChatClient.Reads crt (ins ++ [i]) t (outs ++ o) msgs' rest' := by
  obtain ⟨msg, rfl, rfl, rfl⟩ | ⟨rfl, rfl, rfl⟩ |
    ⟨msg, posted, socket, outbox, evs, rfl, -, -, rfl, rfl⟩ | ⟨posted, rfl, -, rfl, rfl⟩ |
    ⟨ok, rfl, rfl, rfl⟩ | ⟨k, ok, socket, outbox, evs, rfl, -, rfl, rfl⟩ |
    ⟨op, bytes, rfl, hread⟩ := clientMachine_cases hs
  · exact ⟨msgs, rest, h.same rfl id rfl rfl⟩
  · exact ⟨msgs, rest, h.same rfl id rfl rfl⟩
  · exact ⟨msgs, rest, h.same rfl id rfl (printedBodies_queue evs)⟩
  · exact ⟨msgs, rest, h.same rfl id rfl rfl⟩
  · cases ok with
    | false => exact ⟨msgs, rest, h.same rfl (fun ht => by simp [onConnect] at ht) rfl rfl⟩
    | true =>
      -- nothing has been read before, so the reader starts at the front of a message
      obtain ⟨hnil, -⟩ := h.connecting ha.1
      obtain ⟨-, rfl⟩ := List.append_eq_nil_iff.mp (h.bytes.symm.trans hnil)
      refine ⟨msgs, [], ?_⟩
      exact
        { printed := by rw [List.append_nil, h.printed]
          bytes := (clientBytes_snoc ins _).trans ((List.append_nil _).trans h.bytes)
          framed := h.framed
          holds := Reader.holds_start _
          tuned := Reader.tuned_header _
          connecting := fun ht => by simp [onConnect] at ht }
  · exact ⟨msgs, rest, h.same rfl id rfl (printedBodies_queue evs)⟩
  · obtain ⟨action, hreader, hconnecting, hprinted⟩ := onRead_reader hread
    obtain ⟨rest', hrest, hholds⟩ := Reader.onRead_bytes h.holds ha.1 hreader
    obtain ⟨htuned, hpassed⟩ := Reader.onRead_tuned h.tuned ha.1 hreader
    have hcome : clientBytes [.read op bytes] = bytes.getD [] := by simp [clientBytes]
    refine ⟨msgs ++ action.passed, rest', ?_⟩
    exact
      { printed := by rw [printedBodies_append, hprinted, h.printed, List.map_append]
        bytes := by
          rw [clientBytes_snoc, hcome, h.bytes, List.append_assoc, hrest, List.flatMap_append,
            List.append_assoc]
        framed := fun msg hmsg => (List.mem_append.mp hmsg).elim (h.framed msg) (hpassed msg)
        holds := hholds
        tuned := htuned
        connecting := fun ht => by
          have hreading := (h.connecting (hconnecting ▸ ht)).2
          rw [ha.1.1] at hreading
          cases hreading }

/-- **What a client prints.** The bodies of framed messages, which are what its socket has brought
but for the last bytes. -/
theorem clientMachine_reads {readMsg : ChatMessage}
    (h : (clientMachine crt).Run (.new readMsg) ins c outs) :
    ∃ msgs rest, ChatClient.Reads crt ins c outs msgs rest := by
  refine h.invariant (P := fun ins c outs => ∃ msgs rest, ChatClient.Reads crt ins c outs msgs rest)
    ?_ ?_
  · refine ⟨[], [], rfl, rfl, by simp, Reader.holds_stop _ (Nat.zero_le _), Reader.tuned_stop _, ?_⟩
    exact fun _ => ⟨rfl, rfl⟩
  · rintro ins c outs i t o - ⟨msgs, rest, hreads⟩ ha hs
    exact hreads.step ha hs

end Exec02
