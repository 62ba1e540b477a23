import Exec02.Lib.CString
import Mathlib.Tactic.NormNum

/-!
# Chat messages and the framing of the stream

`MyChatMessage.hpp`, and the read loop that the server's sessions (`MyTCPChatSrv01.cpp`) and the
client (`MyTCPChatCli01.cpp`) share. A message on the wire is a header of four characters, the
length of the body in decimal, and the body.

`encode_header` formats into a buffer of `header_length + 1` bytes. `decode_header` has a buffer
of that size too, but tells `strncat_s` that it is one byte shorter, so four characters and their
NUL do not fit: every header `encode_header` writes is handed to the invalid-parameter handler.
What becomes of a stream is therefore decided by that handler, and `roundTrip_iff` says for which
messages it comes out right.

## Reading the model

`async_read` delivers exactly the bytes asked for, or an error; a completion handler is a function
of the bytes (`none` for an error) that answers what the object does next, and `none` itself stands
for a process that has been ended by the runtime.

## Main results

* `compose_wire` — what a composed message looks like on the wire
* `decodeHeader_of_full` — the fate of a header without a NUL
* `roundTrip_iff` — exactly which sequences of messages survive the stream
-/

namespace Exec02

/-! ### Messages -/

/-- `header_length`. -/
def headerLength : ℕ := 4

/-- `max_body_length`. -/
def maxBodyLength : ℕ := 512

/-- The value of an `int` converted to `std::size_t`. -/
def sizeOfInt (i : ℤ) : ℕ := (i % 2 ^ 64).toNat

/-- The value of a `std::size_t` cast to `int`. -/
def intOfSize (n : ℕ) : ℤ := (n : ℤ).bmod (2 ^ 32)

/-- `class chat_message`. Its constructor leaves `data_` as it finds it. -/
structure ChatMessage where
  data : Buffer (headerLength + maxBodyLength)
  bodyLength : ℕ

namespace ChatMessage

/-- `chat_message()`, over storage that held `data`. -/
def new (data : Buffer (headerLength + maxBodyLength)) : ChatMessage := ⟨data, 0⟩

/-- A message in zeroed storage. -/
def blank : ChatMessage := new ⟨List.replicate (headerLength + maxBodyLength) 0, by simp⟩

/-- `length()`. -/
def length (msg : ChatMessage) : ℕ := headerLength + msg.bodyLength

/-- The `body_length()` bytes at `body()`. -/
def body (msg : ChatMessage) : List UInt8 := msg.data.slice headerLength msg.bodyLength

/-- The `length()` bytes at `data()`, which is what is sent. -/
def wire (msg : ChatMessage) : List UInt8 := msg.data.slice 0 msg.length

/-- `body_length(new_length)`. -/
def setBodyLength (msg : ChatMessage) (newLength : ℕ) : ChatMessage :=
  { msg with bodyLength := if newLength > maxBodyLength then maxBodyLength else newLength }

/-- `decode_header()`: the size passed to `strncat_s` is `header_length`, not the size of the
buffer. -/
def decodeHeader (crt : InvalidParameter) (msg : ChatMessage) : Option (Bool × ChatMessage) := do
  let header ← strncatS crt [] headerLength (msg.data.slice 0 headerLength) headerLength
  let bodyLength := sizeOfInt (atoi header)
  if bodyLength > maxBodyLength then return (false, { msg with bodyLength := 0 })
  else return (true, { msg with bodyLength := bodyLength })

/-- `encode_header()`: the text is formatted into a zeroed buffer of `header_length + 1` bytes, and
`header_length` of them are copied. -/
def encodeHeader (crt : InvalidParameter) (msg : ChatMessage) : Option ChatMessage := do
  let header ← sprintfS crt (headerLength + 1) (formatInt 4 (intOfSize msg.bodyLength))
  let data ← msg.data.write 0 ((header ++ List.replicate (headerLength + 1) 0).take headerLength)
  return { msg with data := data }

/-- The client's `main`, for one line: set the length, copy the body, encode the header. -/
def compose (crt : InvalidParameter) (msg : ChatMessage) (line : List UInt8) :
    Option ChatMessage := do
  let msg := msg.setBodyLength line.length
  let data ← msg.data.write headerLength (line.take msg.bodyLength)
  encodeHeader crt { msg with data := data }

end ChatMessage

/-! ### The read loop -/

/-- The two reads a session or a client can have outstanding. -/
inductive ReadOp
  | header
  | body
  deriving DecidableEq

/-- The reading half of a `chat_session` or `chat_client`: its `read_msg_`, and the `async_read` it
waits for. -/
structure Reader where
  readMsg : ChatMessage
  reading : Option ReadOp

/-- What a read handler does besides reading on: nothing, pass on the message just read, or give
up. A session passes on to its room and gives up by leaving it; a client prints and closes. -/
inductive ReadAction
  | proceed
  | deliver (msg : ChatMessage)
  | stop

namespace Reader

/-- `do_read_header`. -/
def doReadHeader (r : Reader) : Reader := { r with reading := some .header }

/-- `do_read_body`. -/
def doReadBody (r : Reader) : Reader := { r with reading := some .body }

/-- The handler of `do_read_header`. -/
def onReadHeader (crt : InvalidParameter) (r : Reader) :
    Option (List UInt8) → Option (Reader × ReadAction)
  | none => some (⟨r.readMsg, none⟩, .stop)
  | some bytes => do
    let data ← r.readMsg.data.write 0 bytes
    let (accepted, readMsg) ← ChatMessage.decodeHeader crt { r.readMsg with data := data }
    if accepted then return (doReadBody ⟨readMsg, none⟩, .proceed)
    else return (⟨readMsg, none⟩, .stop)

/-- The handler of `do_read_body`. -/
def onReadBody (r : Reader) : Option (List UInt8) → Option (Reader × ReadAction)
  | none => some (⟨r.readMsg, none⟩, .stop)
  | some bytes => do
    let data ← r.readMsg.data.write headerLength bytes
    let readMsg := { r.readMsg with data := data }
    return (doReadHeader ⟨readMsg, none⟩, .deliver readMsg)

/-- The handler of either read. -/
def onRead (crt : InvalidParameter) (r : Reader) :
    ReadOp → Option (List UInt8) → Option (Reader × ReadAction)
  | .header => r.onReadHeader crt
  | .body => r.onReadBody

/-- How many bytes a read asks for. -/
def asked (r : Reader) : ReadOp → ℕ
  | .header => headerLength
  | .body => r.readMsg.bodyLength

/-- A completion the reader can see: it is waiting for this read, which either fails or brings what
it asked for. -/
def Awaits (r : Reader) (op : ReadOp) (bytes : Option (List UInt8)) : Prop :=
  r.reading = some op ∧ ∀ bs ∈ bytes, bs.length = r.asked op

instance (r : Reader) (op : ReadOp) (bytes : Option (List UInt8)) : Decidable (r.Awaits op bytes) :=
  inferInstanceAs (Decidable (_ ∧ _))

/-- How a read loop comes to an end. -/
inductive End
  /-- A read met the end of the stream, with these bytes left over. -/
  | endOfStream (op : ReadOp) (left : List UInt8)
  /-- A header was rejected. -/
  | rejected
  /-- The process was ended. -/
  | terminated

/-- The read loop on a whole stream: `do_read_header`, `do_read_body`, and so on, until a read
fails. The bodies passed on come first. -/
def receive (crt : InvalidParameter) (r : Reader) (stream : List UInt8) :
    List (List UInt8) × End :=
  if stream.length < headerLength then ([], .endOfStream .header stream)
  else
    match r.doReadHeader.onReadHeader crt (some (stream.take headerLength)) with
    | none => ([], .terminated)
    | some (r, .proceed) =>
      let rest := stream.drop headerLength
      if rest.length < r.readMsg.bodyLength then ([], .endOfStream .body rest)
      else
        match r.onReadBody (some (rest.take r.readMsg.bodyLength)) with
        | some (r', .deliver msg) =>
          let (bodies, e) := receive crt r' (rest.drop r.readMsg.bodyLength)
          (msg.body :: bodies, e)
        | _ => ([], .terminated)
    | some (_, _) => ([], .rejected)
  termination_by stream.length
  decreasing_by
    have : 0 < headerLength := by decide
    simp only [List.length_drop]
    omega

end Reader

/-- What a handler asks for is decided by the read: a body that arrives is passed on and nothing
else is, and a reader that gives up reads no more. -/
theorem Reader.onRead_action {crt : InvalidParameter} {r r' : Reader} {op : ReadOp}
    {bytes : Option (List UInt8)} {action : ReadAction}
    (h : r.onRead crt op bytes = some (r', action)) :
    match action with
    | .deliver _ => op = .body ∧ bytes.isSome
    | .proceed => ¬ (op = .body ∧ bytes.isSome)
    | .stop => ¬ (op = .body ∧ bytes.isSome) ∧ r'.reading = none := by
  cases bytes with
  | none =>
    obtain ⟨rfl, rfl⟩ : ⟨r.readMsg, none⟩ = r' ∧ ReadAction.stop = action := by
      cases op <;> simpa [onRead, onReadHeader, onReadBody] using h
    exact ⟨by simp, rfl⟩
  | some bytes =>
    cases op with
    | header =>
      cases hdata : r.readMsg.data.write 0 bytes with
      | none => simp [onRead, onReadHeader, hdata] at h
      | some data =>
        cases hdec : ChatMessage.decodeHeader crt { r.readMsg with data := data } with
        | none => simp [onRead, onReadHeader, hdata, hdec] at h
        | some d =>
          obtain ⟨accepted, readMsg⟩ := d
          cases accepted with
          | true =>
            obtain ⟨-, rfl⟩ : _ = r' ∧ ReadAction.proceed = action := by
              simpa [onRead, onReadHeader, hdata, hdec] using h
            simp
          | false =>
            obtain ⟨rfl, rfl⟩ : ⟨readMsg, none⟩ = r' ∧ ReadAction.stop = action := by
              simpa [onRead, onReadHeader, hdata, hdec] using h
            exact ⟨by simp, rfl⟩
    | body =>
      cases hdata : r.readMsg.data.write headerLength bytes with
      | none => simp [onRead, onReadBody, hdata] at h
      | some data =>
        obtain ⟨-, rfl⟩ : _ = r' ∧ ReadAction.deliver { r.readMsg with data := data } = action := by
          simpa [onRead, onReadBody, hdata] using h
        exact ⟨rfl, rfl⟩

/-! ### What is sent -/

/-- The header of a body of `n` bytes. -/
def header (n : ℕ) : List UInt8 := formatInt 4 n

theorem header_length {n : ℕ} (hn : n ≤ maxBodyLength) : (header n).length = headerLength :=
  formatInt_length (by decide) (lt_of_le_of_lt hn (by rw [maxBodyLength]; omega))

theorem header_ne_nul {n : ℕ} {b : UInt8} (hb : b ∈ header n) : b ≠ 0 := formatInt_ne_nul hb

theorem intOfSize_of_le {n : ℕ} (hn : n ≤ maxBodyLength) : intOfSize n = n := by
  have hn : n ≤ 512 := hn
  exact Int.bmod_eq_of_le (by omega) (by omega)

/-- `encode_header()` writes the header of the message's body, and calls no handler. -/
theorem encodeHeader_of_le (crt : InvalidParameter) (msg : ChatMessage)
    (hlen : msg.bodyLength ≤ maxBodyLength) :
    ∃ data, msg.data.write 0 (header msg.bodyLength) = some data ∧
      msg.encodeHeader crt = some { msg with data := data } := by
  have hhead := header_length hlen
  have hfit : 0 + (header msg.bodyLength).length ≤ headerLength + maxBodyLength := by
    rw [hhead]
    omega
  obtain ⟨data, hdata⟩ := msg.data.write_isSome hfit
  have htext : formatInt 4 (intOfSize msg.bodyLength) = header msg.bodyLength := by
    rw [intOfSize_of_le hlen, header]
  have htake : (header msg.bodyLength ++ List.replicate (headerLength + 1) 0).take headerLength =
      header msg.bodyLength := by
    rw [← hhead, List.take_left]
  exact ⟨data, hdata, by simp [ChatMessage.encodeHeader, htext, sprintfS, hhead, htake, hdata]⟩

/-- **On the wire.** A composed message is its header and its body, whatever storage it was composed
in, and no handler is called for it. -/
theorem compose_wire (crt : InvalidParameter) (msg : ChatMessage) {line : List UInt8}
    (hline : line.length ≤ maxBodyLength) :
    ∃ msg', msg.compose crt line = some msg' ∧ msg'.wire = header line.length ++ line := by
  have hset : msg.setBodyLength line.length = ⟨msg.data, line.length⟩ := by
    rw [ChatMessage.setBodyLength, if_neg (by omega)]
  obtain ⟨data, hdata⟩ := msg.data.write_isSome (Nat.add_le_add_left hline headerLength)
  obtain ⟨data', hdata', hencode⟩ := encodeHeader_of_le crt ⟨data, line.length⟩ hline
  refine ⟨⟨data', line.length⟩, ?_, ?_⟩
  · rw [ChatMessage.compose, hset]
    have htake : line.take line.length = line := List.take_length
    exact Option.bind_eq_some_iff.mpr ⟨data, by rw [htake, hdata], hencode⟩
  · have hfront := Buffer.slice_write hdata'
    have hback := Buffer.slice_write_zero hdata' line.length
    rw [header_length hline, Buffer.slice_write hdata] at hback
    rw [header_length hline] at hfront
    have happend := data'.slice_append 0 headerLength line.length
    rw [Nat.zero_add, hfront, hback] at happend
    exact happend.symm

/-- The client's side of a stream: compose each line in some message's storage and send it. -/
def send (crt : InvalidParameter) : List (ChatMessage × List UInt8) → Option (List UInt8)
  | [] => some []
  | (msg, line) :: rest => do
    let msg ← msg.compose crt line
    let stream ← send crt rest
    return msg.wire ++ stream

/-! ### What is received -/

/-- **The fate of a full header.** Four characters do not fit where `strncat_s` is told to put them:
the handler is called, and if it returns, the length read is `0`. -/
theorem decodeHeader_of_full (crt : InvalidParameter) (msg : ChatMessage)
    (hlen : (msg.data.slice 0 headerLength).length = headerLength)
    (hnul : ∀ b ∈ msg.data.slice 0 headerLength, b ≠ 0) :
    msg.decodeHeader crt = match crt with
      | .terminates => none
      | .returns => some (true, { msg with bodyLength := 0 }) := by
  have hcstr : cstr ((msg.data.slice 0 headerLength).take headerLength) =
      msg.data.slice 0 headerLength := by
    rw [List.take_of_length_le hlen.le, cstr, List.takeWhile_eq_self_iff]
    simpa using hnul
  have hbig : ¬ ([] : List UInt8).length + (msg.data.slice 0 headerLength).length + 1 ≤
      headerLength := by
    rw [hlen]
    simp
  simp only [ChatMessage.decodeHeader, strncatS, hcstr]
  rw [if_neg hbig]
  cases crt with
  | terminates => rfl
  | returns => simp [InvalidParameter.call, sizeOfInt]

/-- A header that arrives is inside the buffer, at its front. -/
theorem readHeader_spec (b : Buffer (headerLength + maxBodyLength)) {bytes : List UInt8}
    (hlen : bytes.length = headerLength) :
    ∃ data, b.write 0 bytes = some data ∧ data.slice 0 headerLength = bytes := by
  have hfit : 0 + bytes.length ≤ headerLength + maxBodyLength := by
    rw [hlen]
    omega
  obtain ⟨data, hdata⟩ := b.write_isSome hfit
  refine ⟨data, hdata, ?_⟩
  have hslice := Buffer.slice_write hdata
  rwa [hlen] at hslice

/-- What is left of a message in the reader after a full header, where the handler returns. -/
theorem onReadHeader_of_full (crt : InvalidParameter) (r : Reader) {bytes : List UInt8}
    (hlen : bytes.length = headerLength) (hnul : ∀ b ∈ bytes, b ≠ 0) :
    ∃ data, r.onReadHeader crt (some bytes) = match crt with
      | .terminates => none
      | .returns => some (⟨⟨data, 0⟩, some .body⟩, .proceed) := by
  obtain ⟨data, hdata, hslice⟩ := readHeader_spec r.readMsg.data hlen
  have hdec := decodeHeader_of_full crt { r.readMsg with data := data }
    (by rw [hslice, hlen]) (by rw [hslice]; exact hnul)
  refine ⟨data, ?_⟩
  cases crt with
  | terminates => simp [Reader.onReadHeader, hdata, hdec]
  | returns => simp [Reader.onReadHeader, hdata, hdec, Reader.doReadBody]

/-- Reading an empty body passes on an empty message. -/
theorem onReadBody_nil (data : Buffer (headerLength + maxBodyLength)) :
    ∃ r msg, Reader.onReadBody ⟨⟨data, 0⟩, some .body⟩ (some []) = some (r, .deliver msg) ∧
      msg.body = [] := by
  obtain ⟨data', hdata⟩ := data.write_isSome
    (show headerLength + ([] : List UInt8).length ≤ headerLength + maxBodyLength by decide)
  refine ⟨Reader.doReadHeader ⟨⟨data', 0⟩, none⟩, ⟨data', 0⟩, ?_, ?_⟩
  · simp [Reader.onReadBody, hdata]
  · simp [ChatMessage.body, Buffer.slice]

/-- **One message of the stream.** Where the handler ends the process nothing is received. Where it
returns, the message is received as an empty one, and its body is left in the stream. -/
theorem receive_message (crt : InvalidParameter) (r : Reader) {line : List UInt8}
    (hline : line.length ≤ maxBodyLength) (rest : List UInt8) :
    ∃ r' : Reader, r.receive crt (header line.length ++ line ++ rest) = match crt with
      | .terminates => ([], .terminated)
      | .returns =>
        ([] :: (r'.receive crt (line ++ rest)).1, (r'.receive crt (line ++ rest)).2) := by
  have hhead := header_length hline
  obtain ⟨data, hon⟩ := onReadHeader_of_full crt r.doReadHeader hhead fun _ => header_ne_nul
  obtain ⟨r', msg, hbody, hnil⟩ := onReadBody_nil data
  refine ⟨r', ?_⟩
  have hlong : ¬ (header line.length ++ line ++ rest).length < headerLength := by
    simp only [List.length_append, hhead]
    omega
  have htake : (header line.length ++ line ++ rest).take headerLength = header line.length := by
    rw [List.append_assoc, ← hhead, List.take_left]
  have hdrop : (header line.length ++ line ++ rest).drop headerLength = line ++ rest := by
    rw [List.append_assoc, ← hhead, List.drop_left]
  rw [Reader.receive, if_neg hlong, htake, hdrop, hon]
  cases crt with
  | terminates => rfl
  | returns => simp [hbody, hnil]

/-! ### Round trips -/

/-- A line a message can carry. -/
abbrev Line := { line : List UInt8 // line.length ≤ maxBodyLength }

/-- The receiver gets exactly the bodies that were sent, in order, and reads the stream to its
end. -/
def RoundTrip (crt : InvalidParameter) (r : Reader) (msgs : List (ChatMessage × Line)) : Prop :=
  ∃ stream, send crt (msgs.map fun m => (m.1, m.2.1)) = some stream ∧
    r.receive crt stream = (msgs.map (·.2.1), .endOfStream .header [])

/-- Sending never fails, and the stream is the concatenation of the framed lines. -/
theorem send_eq (crt : InvalidParameter) (msgs : List (ChatMessage × Line)) :
    send crt (msgs.map fun m => (m.1, m.2.1)) =
      some ((msgs.map fun m => header m.2.1.length ++ m.2.1).flatten) := by
  induction msgs with
  | nil => rfl
  | cons m msgs ih =>
    obtain ⟨msg, hcompose, hwire⟩ := compose_wire crt m.1 m.2.2
    simp [send, hcompose, ih, hwire]

theorem roundTrip_nil (crt : InvalidParameter) (r : Reader) : RoundTrip crt r [] := by
  refine ⟨[], rfl, ?_⟩
  rw [Reader.receive]
  rfl

/-- One message more: the handler must return and the message must be empty, and then the rest has
to come through whatever `read_msg_` holds. -/
theorem roundTrip_cons (crt : InvalidParameter) (r : Reader) (m : ChatMessage × Line)
    (msgs : List (ChatMessage × Line)) :
    ∃ r', RoundTrip crt r (m :: msgs) ↔ crt = .returns ∧ m.2.1 = [] ∧ RoundTrip crt r' msgs := by
  obtain ⟨r', hreceive⟩ := receive_message crt r m.2.2
    (msgs.map fun m => header m.2.1.length ++ m.2.1).flatten
  refine ⟨r', ?_⟩
  rw [RoundTrip, RoundTrip, send_eq, send_eq]
  simp only [Option.some.injEq, exists_eq_left', List.map_cons, List.flatten_cons, hreceive]
  cases crt with
  | terminates => simp
  | returns =>
    constructor
    · intro h
      simp only [Prod.mk.injEq, List.cons.injEq] at h
      obtain ⟨⟨hnil, hbodies⟩, hend⟩ := h
      rw [← hnil, List.nil_append] at hbodies hend
      exact ⟨rfl, hnil.symm, Prod.ext hbodies hend⟩
    · rintro ⟨-, hnil, h⟩
      rw [hnil, List.nil_append, h]

/-- **Which messages survive.** A stream comes out as it went in exactly when there is nothing in
it, or when the runtime's handler returns and every body is empty. -/
theorem roundTrip_iff (crt : InvalidParameter) (r : Reader) (msgs : List (ChatMessage × Line)) :
    RoundTrip crt r msgs ↔ msgs = [] ∨ crt = .returns ∧ ∀ m ∈ msgs, m.2.1 = [] := by
  induction msgs generalizing r with
  | nil => exact iff_of_true (roundTrip_nil crt r) (Or.inl rfl)
  | cons m msgs ih =>
    obtain ⟨r', hcons⟩ := roundTrip_cons crt r m msgs
    rw [hcons, ih r']
    constructor
    · rintro ⟨hcrt, hnil, rfl | ⟨-, hrest⟩⟩
      · exact Or.inr ⟨hcrt, by simpa using hnil⟩
      · exact Or.inr ⟨hcrt, List.forall_mem_cons.mpr ⟨hnil, hrest⟩⟩
    · rintro (h | ⟨hcrt, hall⟩)
      · cases h
      · obtain ⟨hnil, hrest⟩ := List.forall_mem_cons.mp hall
        exact ⟨hcrt, hnil, Or.inr ⟨hcrt, hrest⟩⟩

/-- The line `hi` is lost under either handler: the default one ends the receiver's process, and one
that returns leaves an empty message and a stream out of step. -/
theorem not_roundTrip_hi :
    let hi : Line := ⟨[104, 105], by decide⟩
    ¬ RoundTrip .terminates ⟨.blank, none⟩ [(.blank, hi)] ∧
      ¬ RoundTrip .returns ⟨.blank, none⟩ [(.blank, hi)] := by
  intro hi
  constructor
  · obtain ⟨r', hcons⟩ := roundTrip_cons .terminates ⟨.blank, none⟩ (.blank, hi) []
    rw [hcons]
    rintro ⟨hcrt, -⟩
    cases hcrt
  · obtain ⟨r', hcons⟩ := roundTrip_cons .returns ⟨.blank, none⟩ (.blank, hi) []
    rw [hcons]
    rintro ⟨-, hnil, -⟩
    cases hnil

end Exec02
