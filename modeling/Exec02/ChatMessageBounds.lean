import Exec02.ChatMessageHeader
import Exec02.Lib.Machine

/-!
# The message buffer is never overrun

The operations of one `chat_message` as the steps of a machine: `body_length(n)`, `decode_header()`
on whatever four bytes have arrived, `encode_header()`, and `body_length()` bytes that are read or
copied to `body()`. Each of them leaves `body_length_` at `max_body_length` or below, and that is
all there is to it: behind the header there is room for as many bytes.

The one thing that can end a run is `decode_header` on a header that is full, where the runtime's
handler ends the process.

## Main results

* `messageMachine_step` — what each operation does with a bounded message
* `messageMachine_bounded` — every run from a new message
* `compose_run`, `onRead_run` — the client's `main` and the read handlers are such runs
-/

namespace Exec02

/-- An operation on a message, with the bytes that come from outside. -/
inductive MessageCall
  | bodyLength (newLength : ℕ)
  | decodeHeader (bytes : List UInt8)
  | encodeHeader
  | readBody (bytes : List UInt8)

/-- The argument is a `std::size_t`, and a read or a `memcpy` brings as many bytes as are asked
for. -/
def MessageCall.Allowed (msg : ChatMessage) : MessageCall → Prop
  | .bodyLength newLength => newLength < 2 ^ 64
  | .decodeHeader bytes => bytes.length = headerLength
  | .encodeHeader => True
  | .readBody bytes => bytes.length = msg.bodyLength

instance MessageCall.decidableAllowed (msg : ChatMessage) :
    (c : MessageCall) → Decidable (c.Allowed msg)
  | .bodyLength newLength => inferInstanceAs (Decidable (newLength < 2 ^ 64))
  | .decodeHeader bytes => inferInstanceAs (Decidable (bytes.length = headerLength))
  | .encodeHeader => inferInstanceAs (Decidable True)
  | .readBody bytes => inferInstanceAs (Decidable (bytes.length = msg.bodyLength))

/-- A message as a machine, observed at the answers of `decode_header`. -/
def messageMachine (crt : InvalidParameter) : Machine ChatMessage MessageCall Bool where
  allowed msg c := c.Allowed msg
  step msg
    | .bodyLength newLength => some (msg.setBodyLength newLength, [])
    | .decodeHeader bytes => do
      let data ← msg.data.write 0 bytes
      let (accepted, msg) ← ChatMessage.decodeHeader crt { msg with data := data }
      return (msg, [accepted])
    | .encodeHeader => do
      let msg ← msg.encodeHeader crt
      return (msg, [])
    | .readBody bytes => do
      let data ← msg.data.write headerLength bytes
      return ({ msg with data := data }, [])

instance (crt : InvalidParameter) (msg : ChatMessage) (c : MessageCall) :
    Decidable ((messageMachine crt).allowed msg c) :=
  inferInstanceAs (Decidable (c.Allowed msg))

namespace ChatMessage

variable {crt : InvalidParameter} {msg msg' : ChatMessage}

/-- What `body_length_` is kept to. -/
def Bounded (msg : ChatMessage) : Prop := msg.bodyLength ≤ maxBodyLength

theorem bounded_setBodyLength (msg : ChatMessage) (newLength : ℕ) :
    (msg.setBodyLength newLength).Bounded := by
  simp only [Bounded, setBodyLength]
  split
  · exact le_rfl
  · next h => exact Nat.le_of_not_gt h

/-- `decode_header` answers on every header that has a NUL, or where the handler returns. -/
theorem decodeHeader_bounded (crt : InvalidParameter) (msg : ChatMessage) :
    (∃ accepted msg', msg.decodeHeader crt = some (accepted, msg') ∧ msg'.Bounded) ∨
      (crt = .terminates ∧ 0 ∉ msg.data.slice 0 headerLength ∧ msg.decodeHeader crt = none) := by
  by_cases hnul : 0 ∈ msg.data.slice 0 headerLength
  · left
    rw [decodeHeader_of_nul crt msg hnul]
    by_cases hbig : sizeOfInt (atoi (msg.data.slice 0 headerLength)) > maxBodyLength
    · exact ⟨false, _, if_pos hbig, Nat.zero_le _⟩
    · exact ⟨true, _, if_neg hbig, Nat.le_of_not_gt hbig⟩
  · have hdecode := decodeHeader_of_full crt msg (msg.data.length_slice (by omega))
      fun b hb hb0 => hnul (hb0 ▸ hb)
    cases crt with
    | terminates => exact Or.inr ⟨rfl, hnul, hdecode⟩
    | returns => exact Or.inl ⟨true, _, hdecode, Nat.zero_le _⟩

/-- The `body_length()` bytes at `body()` are inside the buffer. -/
theorem readBody_isSome (h : msg.Bounded) {bytes : List UInt8}
    (hlen : bytes.length = msg.bodyLength) :
    ∃ data, msg.data.write headerLength bytes = some data :=
  msg.data.write_isSome (Nat.add_le_add_left (hlen.le.trans h) headerLength)

end ChatMessage

/-- **One operation.** On a bounded message nothing is written outside the buffer, the message stays
bounded, and it is `decode_header` if the process is ended. -/
theorem messageMachine_step {crt : InvalidParameter} {msg : ChatMessage} {c : MessageCall}
    (h : msg.Bounded) (hc : (messageMachine crt).allowed msg c) :
    (∃ msg' o, (messageMachine crt).step msg c = some (msg', o) ∧ msg'.Bounded) ∨
      (messageMachine crt).step msg c = none ∧
        ∃ bytes, c = .decodeHeader bytes ∧ crt = .terminates ∧ 0 ∉ bytes := by
  cases c with
  | bodyLength newLength => exact Or.inl ⟨_, _, rfl, msg.bounded_setBodyLength newLength⟩
  | decodeHeader bytes =>
    obtain ⟨data, hdata, hslice⟩ := readHeader_spec msg.data hc
    rcases ChatMessage.decodeHeader_bounded crt { msg with data := data } with
      ⟨accepted, msg', hdecode, hbounded⟩ | ⟨hcrt, hnul, hdecode⟩
    · refine Or.inl ⟨msg', [accepted], ?_, hbounded⟩
      simp only [messageMachine, hdata, Option.bind_eq_bind, Option.bind_some, hdecode]
      rfl
    · refine Or.inr ⟨?_, bytes, rfl, hcrt, by rwa [← hslice]⟩
      simp only [messageMachine, hdata, Option.bind_eq_bind, Option.bind_some, hdecode]
      rfl
  | encodeHeader =>
    obtain ⟨data, -, hencode⟩ := encodeHeader_of_le crt msg h
    refine Or.inl ⟨{ msg with data := data }, [], ?_, h⟩
    simp only [messageMachine, hencode]
    rfl
  | readBody bytes =>
    have hlen : bytes.length = msg.bodyLength := hc
    obtain ⟨data, hdata⟩ := ChatMessage.readBody_isSome h hlen
    refine Or.inl ⟨{ msg with data := data }, [], ?_, h⟩
    simp only [messageMachine, hdata]
    rfl

theorem bounded_of_run {crt : InvalidParameter} {msg msg' : ChatMessage}
    {calls : List MessageCall} {answers : List Bool}
    (h : (messageMachine crt).Run msg calls msg' answers) (hm : msg.Bounded) : msg'.Bounded := by
  refine h.invariant (P := fun _ msg _ => msg.Bounded) hm ?_
  intro _ t _ c u o _ ih hc hstep
  rcases messageMachine_step ih hc with ⟨v, o', hstep', hv⟩ | ⟨hnone, -⟩
  · obtain ⟨rfl, -⟩ : v = u ∧ o' = o := by simpa [hstep] using hstep'.symm
    exact hv
  · rw [hstep] at hnone
    cases hnone

/-- **No run overruns the buffer.** Whatever has been called, the length is kept to, so that the
message and every read or copy of its body are inside the buffer, and the header has exactly the
four characters there is room for; and so it goes on, until `decode_header` gets a full header where
the handler ends the process. -/
theorem messageMachine_bounded {crt : InvalidParameter} {calls : List MessageCall}
    {data : Buffer (headerLength + maxBodyLength)} {msg : ChatMessage} {answers : List Bool}
    (h : (messageMachine crt).Run (.new data) calls msg answers) :
    msg.bodyLength ≤ 512 ∧ msg.length ≤ 516 ∧
      (∀ bytes, bytes.length = msg.bodyLength →
        ∃ data, msg.data.write headerLength bytes = some data) ∧
      (formatInt 4 (intOfSize msg.bodyLength)).length = 4 ∧
      sprintfS crt 5 (formatInt 4 (intOfSize msg.bodyLength)) =
        some (formatInt 4 (intOfSize msg.bodyLength)) ∧
      ∀ c, (messageMachine crt).allowed msg c →
        (∃ msg' o, (messageMachine crt).step msg c = some (msg', o)) ∨
          ∃ bytes, c = .decodeHeader bytes ∧ crt = .terminates ∧ 0 ∉ bytes := by
  have hbounded : msg.Bounded := bounded_of_run h (Nat.zero_le _)
  have hlen : (formatInt 4 (intOfSize msg.bodyLength)).length = 4 := by
    rw [intOfSize_of_le hbounded]
    exact header_length hbounded
  refine ⟨hbounded, Nat.add_le_add_left hbounded headerLength,
    fun bytes hbytes => ChatMessage.readBody_isSome hbounded hbytes, hlen, ?_, ?_⟩
  · rw [sprintfS, if_pos (by omega)]
  · intro c hc
    rcases messageMachine_step hbounded hc with ⟨msg', o, hstep, -⟩ | ⟨-, hends⟩
    · exact Or.inl ⟨msg', o, hstep⟩
    · exact Or.inr hends

/-- A length that is too large, a header with a number in front of a NUL, its body, and a header of
one's own. -/
def MessageCall.sample : List MessageCall :=
  [.bodyLength 70000, .decodeHeader [50, 0, 57, 57], .readBody [104, 105], .encodeHeader]

theorem messageMachine_bounded_sample : ∃ msg answers,
    (messageMachine .terminates).Run .blank MessageCall.sample msg answers ∧ answers = [true] ∧
      msg.bodyLength = 2 ∧ msg.length ≤ 516 := by
  have hrun : (messageMachine .terminates).Run .blank MessageCall.sample _ _ :=
    Machine.run_of_exec rfl
  exact ⟨_, _, hrun, rfl, rfl, (messageMachine_bounded hrun).2.1⟩

/-! ### The source's own calls -/

/-- The client's `main`, for one line. -/
theorem compose_run {crt : InvalidParameter} {msg msg' : ChatMessage} {line : List UInt8}
    (hline : line.length < 2 ^ 64) (h : msg.compose crt line = some msg') :
    (messageMachine crt).Run msg
      [.bodyLength line.length, .readBody (line.take (msg.setBodyLength line.length).bodyLength),
        .encodeHeader] msg' [] := by
  obtain ⟨data, hdata, hencode⟩ := Option.bind_eq_some_iff.mp h
  have hlen : (msg.setBodyLength line.length).bodyLength ≤ line.length := by
    simp only [ChatMessage.setBodyLength]
    split
    · next h => exact h.le
    · exact le_rfl
  have hset : (messageMachine crt).step msg (.bodyLength line.length) =
      some (msg.setBodyLength line.length, []) := rfl
  have hread : (messageMachine crt).step (msg.setBodyLength line.length)
      (.readBody (line.take (msg.setBodyLength line.length).bodyLength)) =
        some ({ msg.setBodyLength line.length with data := data }, []) := by
    simp only [messageMachine, hdata]
    rfl
  have hheader : (messageMachine crt).step { msg.setBodyLength line.length with data := data }
      .encodeHeader = some (msg', []) := by
    simp only [messageMachine, hencode]
    rfl
  have hasked : (messageMachine crt).allowed (msg.setBodyLength line.length)
      (.readBody (line.take (msg.setBodyLength line.length).bodyLength)) :=
    List.length_take_of_le hlen
  have hlength : (messageMachine crt).allowed msg (.bodyLength line.length) := hline
  exact ((Machine.Run.single hlength hset).snoc hasked hread).snoc trivial hheader

/-- The handler of a read. -/
theorem onRead_run {crt : InvalidParameter} {r r' : Reader} {op : ReadOp}
    {bytes : Option (List UInt8)} {action : ReadAction} (ha : r.Awaits op bytes)
    (h : r.onRead crt op bytes = some (r', action)) :
    ∃ calls answers, (messageMachine crt).Run r.readMsg calls r'.readMsg answers := by
  cases bytes with
  | none =>
    obtain rfl : ⟨r.readMsg, none⟩ = r' := by
      cases op <;> exact (Prod.mk.inj (Option.some.inj h)).1
    exact ⟨[], [], .nil⟩
  | some bytes =>
    have hlen : bytes.length = r.asked op := ha.2 bytes rfl
    cases op with
    | header =>
      obtain ⟨data, hdata, h⟩ := Option.bind_eq_some_iff.mp h
      obtain ⟨⟨accepted, msg⟩, hdecode, h⟩ := Option.bind_eq_some_iff.mp h
      have hmsg : r'.readMsg = msg := by
        cases accepted with
        | true => rw [← (Prod.mk.inj (Option.some.inj h)).1]; rfl
        | false => rw [← (Prod.mk.inj (Option.some.inj h)).1]
      refine ⟨[.decodeHeader bytes], [accepted], .single hlen ?_⟩
      rw [hmsg]
      simp only [messageMachine, hdata, Option.bind_eq_bind, Option.bind_some, hdecode]
      rfl
    | body =>
      obtain ⟨data, hdata, h⟩ := Option.bind_eq_some_iff.mp h
      refine ⟨[.readBody bytes], [], .single hlen ?_⟩
      rw [← (Prod.mk.inj (Option.some.inj h)).1]
      simp only [messageMachine, hdata]
      rfl

end Exec02
