import Exec02.ChatServerDelivery

/-!
# The bytes the chat server passes on

A `chat_session` (`MyTCPChatSrv01.cpp`) reads a header and as many bytes as it says, and has both in
the one array that it hands to the room. So whatever a header means to `decode_header`, what a
session says is byte for byte what was read from its socket, cut in pieces; only a header whose body
has not come is not among them.

## Main results

* `Reader.onRead_bytes` — a read goes into a message, or into what waits for its body
* `chat_relays_bytes` — what a session has said is what its socket has brought
-/

namespace Exec02

/-! ### One reader -/

/-- The messages that a handler passes on. -/
def ReadAction.passed : ReadAction → List ChatMessage
  | .deliver msg => [msg]
  | _ => []

/-- What a reader has read and not passed on: nothing while it waits for a header, and the header
while it waits for a body. -/
structure Reader.Holds (r : Reader) (rest : List UInt8) : Prop where
  length_le : rest.length ≤ headerLength
  header : r.reading = some .header → rest = []
  body : r.reading = some .body → rest = r.readMsg.data.slice 0 headerLength

theorem Reader.holds_start (readMsg : ChatMessage) :
    (Reader.doReadHeader ⟨readMsg, none⟩).Holds [] where
  length_le := Nat.zero_le _
  header _ := rfl
  body h := by simp [doReadHeader] at h

theorem Reader.holds_stop (readMsg : ChatMessage) {rest : List UInt8}
    (h : rest.length ≤ headerLength) : Reader.Holds ⟨readMsg, none⟩ rest where
  length_le := h
  header h := by simp at h
  body h := by simp at h

/-- `decode_header` only reads the bytes. -/
theorem ChatMessage.decodeHeader_data {crt : InvalidParameter} {msg msg' : ChatMessage}
    {accepted : Bool} (h : msg.decodeHeader crt = some (accepted, msg')) :
    msg'.data = msg.data := by
  obtain ⟨text, -, h⟩ := Option.bind_eq_some_iff.mp h
  dsimp only at h
  split_ifs at h
  · obtain ⟨-, rfl⟩ := Prod.mk.inj (Option.some.inj h)
    rfl
  · obtain ⟨-, rfl⟩ := Prod.mk.inj (Option.some.inj h)
    rfl

variable {crt : InvalidParameter} {r r' : Reader} {op : ReadOp} {bytes : Option (List UInt8)}

/-- **One read.** What was held and what has come is what is passed on and what is held. -/
theorem Reader.onRead_bytes {rest : List UInt8} (h : r.Holds rest) (ha : r.Awaits op bytes)
    {action : ReadAction} (hread : r.onRead crt op bytes = some (r', action)) :
    ∃ rest', rest ++ bytes.getD [] = action.passed.flatMap ChatMessage.wire ++ rest' ∧
      r'.Holds rest' := by
  obtain ⟨hreading, hlen⟩ := ha
  cases bytes with
  | none =>
    obtain ⟨rfl, rfl⟩ : ⟨r.readMsg, none⟩ = r' ∧ ReadAction.stop = action := by
      cases op <;> simpa [onRead, onReadHeader, onReadBody] using hread
    exact ⟨rest, by simp [ReadAction.passed], holds_stop _ h.length_le⟩
  | some bytes =>
    have hlen : bytes.length = r.asked op := hlen bytes rfl
    cases op with
    | header =>
      obtain rfl := h.header hreading
      obtain ⟨data, hdata, hslice⟩ := readHeader_spec r.readMsg.data hlen
      cases hdecode : ChatMessage.decodeHeader crt { r.readMsg with data := data } with
      | none => simp [onRead, onReadHeader, hdata, hdecode] at hread
      | some d =>
        obtain ⟨accepted, readMsg⟩ := d
        have hsame := ChatMessage.decodeHeader_data hdecode
        have hshort : bytes.length ≤ headerLength := hlen.le
        cases accepted with
        | true =>
          obtain ⟨rfl, rfl⟩ : doReadBody ⟨readMsg, none⟩ = r' ∧ ReadAction.proceed = action := by
            simpa [onRead, onReadHeader, hdata, hdecode] using hread
          refine ⟨bytes, rfl, hshort, by simp [doReadBody], fun _ => ?_⟩
          show bytes = readMsg.data.slice 0 headerLength
          rw [hsame, hslice]
        | false =>
          obtain ⟨rfl, rfl⟩ : ⟨readMsg, none⟩ = r' ∧ ReadAction.stop = action := by
            simpa [onRead, onReadHeader, hdata, hdecode] using hread
          exact ⟨bytes, rfl, holds_stop _ hshort⟩
    | body =>
      obtain rfl := h.body hreading
      cases hdata : r.readMsg.data.write headerLength bytes with
      | none => simp [onRead, onReadBody, hdata] at hread
      | some data =>
        obtain ⟨rfl, rfl⟩ : doReadHeader ⟨{ r.readMsg with data := data }, none⟩ = r' ∧
            ReadAction.deliver { r.readMsg with data := data } = action := by
          simpa [onRead, onReadBody, hdata] using hread
        refine ⟨[], ?_, holds_start _⟩
        have hlenBody : bytes.length = r.readMsg.bodyLength := hlen
        have hbody : data.slice headerLength bytes.length = bytes := Buffer.slice_write hdata
        have hhead : data.slice 0 headerLength = r.readMsg.data.slice 0 headerLength :=
          Buffer.slice_write_of_disjoint hdata (Or.inl (by omega))
        have hwire : data.slice 0 (headerLength + r.readMsg.bodyLength) =
            r.readMsg.data.slice 0 headerLength ++ bytes := by
          rw [← hhead, ← data.slice_append, Nat.zero_add, ← hlenBody, hbody]
        show r.readMsg.data.slice 0 headerLength ++ bytes =
          (data.slice 0 (headerLength + r.readMsg.bodyLength) ++ []) ++ []
        rw [hwire, List.append_nil, List.append_nil]

/-! ### The whole server -/

variable {π : Type} [LinearOrder π]

/-- What the socket of `p` has brought. -/
def bytesRead (p : π) : List (ServerInput π) → List UInt8 :=
  List.flatMap fun
    | .read q _ bytes => if q = p then bytes.getD [] else []
    | _ => []

/-- What the room is told on behalf of `p`. -/
def spokenBy (p : π) : List (ServerEvent π) → List ChatMessage :=
  List.filterMap fun
    | .spoke q _ msg => if q = p then some msg else none
    | _ => none

theorem spokenBy_append (p : π) (outs outs' : List (ServerEvent π)) :
    spokenBy p (outs ++ outs') = spokenBy p outs ++ spokenBy p outs' := List.filterMap_append

theorem bytesRead_snoc (p : π) (ins : List (ServerInput π)) (i : ServerInput π) :
    bytesRead p (ins ++ [i]) = bytesRead p ins ++ bytesRead p [i] := List.flatMap_append

theorem Quiet.spokenBy_eq_nil {outs : List (ServerEvent π)} (h : Quiet outs) (p : π) :
    spokenBy p outs = [] := by
  rw [spokenBy, List.filterMap_eq_nil_iff]
  intro e he
  cases e with
  | spoke q members msg => exact absurd rfl ((h _ he).2 q members msg)
  | _ => rfl

namespace ChatServer

variable {s t : ChatServer π} {p : π} {outs : List (ServerEvent π)}

/-- A new session waits for a header, and says nothing. -/
theorem onAccept_reader {readMsg : ChatMessage} (h : s.onAccept p readMsg = some (t, outs)) :
    t.readers = Function.update s.readers p (some (Reader.doReadHeader ⟨readMsg, none⟩)) ∧
      ∀ q, spokenBy q outs = [] := by
  obtain ⟨⟨u, rest⟩, hrest, hret⟩ := Option.bind_eq_some_iff.mp h
  obtain ⟨rfl, rfl⟩ : u = t ∧ .joined p :: rest = outs := by simpa using hret
  obtain ⟨-, hreaders, hquiet⟩ := deliver_frame hrest
  exact ⟨hreaders.trans (readers_setSession s p _), fun q => hquiet.spokenBy_eq_nil q⟩

/-- What a read comes to: its session goes on as its reader says, and says what that passes on. -/
theorem onRead_reader (h : s.onRead crt p op bytes = some (t, outs)) :
    ∃ r r' action, r ∈ s.readers p ∧ r.onRead crt op bytes = some (r', action) ∧
      t.readers = Function.update s.readers p (some r') ∧
        ∀ q, spokenBy q outs = if p = q then action.passed else [] := by
  obtain ⟨session, hsession, h⟩ := Option.bind_eq_some_iff.mp h
  obtain ⟨⟨reader, action⟩, hread, h⟩ := Option.bind_eq_some_iff.mp h
  refine ⟨session.reader, reader, action, readers_of_mem hsession, hread, ?_⟩
  cases action with
  | proceed =>
    obtain ⟨rfl, rfl⟩ : s.setSession p { session with reader } = t ∧ [] = outs := by simpa using h
    exact ⟨readers_setSession s p _, fun q => by simp [spokenBy, ReadAction.passed]⟩
  | stop =>
    obtain ⟨rfl, rfl⟩ : { s.setSession p { session with reader } with
        room := s.room.leave p } = t ∧ [.left p] = outs := by
      simpa [setSession] using h
    exact ⟨readers_setSession s p _, fun q => by simp [spokenBy, ReadAction.passed]⟩
  | deliver msg =>
    obtain ⟨⟨u, rest⟩, hrest, hret⟩ := Option.bind_eq_some_iff.mp h
    obtain ⟨rfl, rfl⟩ : u = t ∧ .spoke p s.members msg :: rest = outs := by
      simpa [members, setSession] using hret
    obtain ⟨-, hreaders, hquiet⟩ := deliver_frame hrest
    refine ⟨hreaders.trans (readers_setSession s p _), ?_⟩
    intro q
    rw [← List.singleton_append, spokenBy_append, hquiet.spokenBy_eq_nil, List.append_nil]
    by_cases hq : p = q
    · simp [spokenBy, ReadAction.passed, hq]
    · simp [spokenBy, hq]

end ChatServer

/-- What holds after the inputs `ins` have shown `outs`: what a session has read and not said is
held by its reader. -/
def RelaysBytes (ins : List (ServerInput π)) (s : ChatServer π)
    (outs : List (ServerEvent π)) : Prop :=
  ∀ p, match s.readers p with
    | none => bytesRead p ins = [] ∧ spokenBy p outs = []
    | some r => ∃ rest, bytesRead p ins = (spokenBy p outs).flatMap ChatMessage.wire ++ rest ∧
      r.Holds rest

variable {ins : List (ServerInput π)} {i : ServerInput π} {s t : ChatServer π}
  {outs o : List (ServerEvent π)}

/-- A step that reads nothing and says nothing leaves this as it is, where the reader stays. -/
theorem RelaysBytes.same {p : π} (h : RelaysBytes ins s outs) (hreader : t.readers p = s.readers p)
    (hread : bytesRead p [i] = []) (hspoken : spokenBy p o = []) :
    match t.readers p with
    | none => bytesRead p (ins ++ [i]) = [] ∧ spokenBy p (outs ++ o) = []
    | some r => ∃ rest, bytesRead p (ins ++ [i]) =
        (spokenBy p (outs ++ o)).flatMap ChatMessage.wire ++ rest ∧ r.Holds rest := by
  rw [hreader, bytesRead_snoc, hread, List.append_nil, spokenBy_append, hspoken, List.append_nil]
  exact h p

theorem RelaysBytes.step (h : RelaysBytes ins s outs) (hi : (serverMachine crt).allowed s i)
    (hs : (serverMachine crt).step s i = some (t, o)) : RelaysBytes (ins ++ [i]) t (outs ++ o) := by
  intro q
  cases i with
  | accept p readMsg =>
    obtain ⟨hreaders, hspoken⟩ := ChatServer.onAccept_reader hs
    by_cases hq : q = p
    · subst hq
      have hnone : s.readers q = none := by
        rw [ChatServer.readers, show s.sessions q = none from hi]
        rfl
      have hq := h q
      rw [hnone] at hq
      rw [hreaders, Function.update_self, bytesRead_snoc, spokenBy_append, hspoken, hq.1, hq.2]
      exact ⟨[], rfl, Reader.holds_start readMsg⟩
    · exact h.same (by rw [hreaders, Function.update_of_ne hq]) rfl (hspoken q)
  | complete p k ok =>
    obtain ⟨hreaders, hcase⟩ := ChatServer.onWrite_spec hs
    refine h.same (by rw [hreaders]) rfl ?_
    split_ifs at hcase with hok
    · exact hcase.2.spokenBy_eq_nil q
    · obtain ⟨-, rest, rfl, hquiet⟩ := hcase
      rw [spokenBy_append, hquiet.spokenBy_eq_nil]
      rfl
  | read p op bytes =>
    obtain ⟨r, r', action, hr, hread, hreaders, hspoken⟩ := ChatServer.onRead_reader hs
    by_cases hq : q = p
    · subst hq
      obtain ⟨session, hsession, ha⟩ := hi
      have hr' : r = session.reader :=
        Option.some.inj (hr.symm.trans (ChatServer.readers_of_mem hsession))
      have hq := h q
      rw [Option.mem_def.mp hr] at hq
      obtain ⟨rest, hbytes, hholds⟩ := hq
      obtain ⟨rest', hrest, hholds'⟩ := Reader.onRead_bytes hholds (hr' ▸ ha) hread
      rw [hreaders, Function.update_self, bytesRead_snoc, spokenBy_append, hspoken, if_pos rfl]
      refine ⟨rest', ?_, hholds'⟩
      have hcome : bytesRead q [.read q op bytes] = bytes.getD [] := by simp [bytesRead]
      rw [hcome, hbytes, List.flatMap_append, List.append_assoc, hrest, List.append_assoc]
    · refine h.same (by rw [hreaders, Function.update_of_ne hq]) ?_ ?_
      · simp [bytesRead, Ne.symm hq]
      · rw [hspoken, if_neg (Ne.symm hq)]

theorem serverMachine_relays (h : (serverMachine crt).Run .empty ins s outs) :
    RelaysBytes ins s outs := by
  refine h.invariant (P := fun ins s outs => RelaysBytes ins s outs) (fun p => ⟨rfl, rfl⟩) ?_
  intro ins s outs i t o _ hs hi hstep
  exact hs.step hi hstep

/-- **Byte for byte.** In every run, what a session has said to the room is what its socket has
brought, cut into messages, up to one header at most: none while the session waits for a header, and
the one whose body it waits for. -/
theorem chat_relays_bytes (h : (serverMachine crt).Run .empty ins s outs) (p : π) :
    ∃ rest, bytesRead p ins = (spokenBy p outs).flatMap ChatMessage.wire ++ rest ∧
      rest.length ≤ headerLength ∧
      ∀ r ∈ s.readers p, (r.reading = some .header → rest = []) ∧
        (r.reading = some .body → rest = r.readMsg.data.slice 0 headerLength) := by
  have hp := serverMachine_relays h p
  cases hr : s.readers p with
  | none =>
    rw [hr] at hp
    rw [hp.1, hp.2]
    exact ⟨[], rfl, Nat.zero_le _, nofun⟩
  | some r =>
    rw [hr] at hp
    obtain ⟨rest, hbytes, hholds⟩ := hp
    refine ⟨rest, hbytes, hholds.length_le, ?_⟩
    rintro r' ⟨⟩
    exact ⟨hholds.header, hholds.body⟩

/-- The session that says `A`: five bytes in, and the same five passed on. -/
theorem chat_relays_bytes_late : ∃ s outs, (serverMachine .terminates).Run .empty
    ServerInput.late s outs ∧ ∃ rest, [49, 0, 0, 0, 65] =
      (spokenBy 0 outs).flatMap ChatMessage.wire ++ rest ∧ rest.length ≤ 4 := by
  have hrun : (serverMachine .terminates).Run .empty ServerInput.late _ _ :=
    Machine.run_of_exec rfl
  obtain ⟨rest, hbytes, hlen, -⟩ := chat_relays_bytes hrun 0
  exact ⟨_, _, hrun, rest, hbytes, hlen⟩

end Exec02
