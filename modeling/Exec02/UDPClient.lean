import Exec02.UDPServer

/-!
# The UDP client, and the two together

`udpclient.c`: what its `main` does with a line once it has an address to send it to. The line is
read into a zeroed buffer, a newline in the last of the `nbytes` bytes is taken off together with
one of the `nbytes`, and `nbytes` bytes are sent. What comes back is shown if it is shorter than
`BUF_LEN - 1`.

That last byte is never a newline, since `fgets` leaves room for its NUL there. So the client always
sends 99 bytes, the server sends 99 back, and that is one too many to be shown.

## Reading the model

A line has at most 97 characters, and its newline. The address prompt in front of each line is not
part of this, the client is sending to the server. Between the two nothing is lost or overtaken, so
there is one datagram under way at a time. `size` is unsigned, and `recvfrom` answers the largest
value of its type for a datagram that is longer than it is asked for.

## Main results

* `UDPClient.send_spec`, `UDPClient.receive_spec` — what is sent, and what is shown
* `udp_round_trip_iff` — no line ever comes back
-/

namespace Exec02

/-- The largest value of `size_t`. -/
def sizeMax : ℕ := 2 ^ 64 - 1

/-- A line typed at the client, without its newline. -/
structure TypedLine where
  text : List UInt8
  no_newline : (10 : UInt8) ∉ text
  length_le : text.length ≤ 97

/-- `fgets(buffer, n, stdin)`, for the line that comes next: as much of it as leaves room for a
NUL. -/
def fgets {m : ℕ} (buffer : Buffer m) (n : ℕ) (line : TypedLine) : Option (Buffer m) :=
  buffer.write 0 ((line.text ++ [10]).take (n - 1) ++ [0])

/-- `memset(buffer, '\0', n)`. -/
def memsetZero {m : ℕ} (buffer : Buffer m) (n : ℕ) : Option (Buffer m) :=
  buffer.write 0 (List.replicate n 0)

/-- The client: its `buffer` and `nbytes`. -/
structure UDPClient where
  buffer : Buffer bufLen
  nbytes : ℕ

namespace UDPClient

/-- `main`, in front of its loop. -/
def init (buffer : Buffer bufLen) : UDPClient := ⟨buffer, bufLen - 1⟩

/-- A round of the loop up to the `sendto`, with the bytes that are sent. -/
def send (c : UDPClient) (line : TypedLine) : Option (UDPClient × List UInt8) := do
  let buffer ← memsetZero c.buffer bufLen
  let buffer ← fgets buffer (bufLen - 1) line
  -- `buffer[nbytes - 1]`, which has to be inside
  if 0 < c.nbytes ∧ c.nbytes ≤ bufLen then
    if buffer.slice (c.nbytes - 1) 1 = [10] then
      let buffer ← buffer.write (c.nbytes - 1) [0]
      return (⟨buffer, c.nbytes - 1⟩, buffer.slice 0 (c.nbytes - 1))
    else return (⟨buffer, c.nbytes⟩, buffer.slice 0 c.nbytes)
  else none

/-- The rest of a round: what comes back is received, and shown if it is short enough. -/
def receive (c : UDPClient) (bytes : List UInt8) : Option (UDPClient × Option (List UInt8)) := do
  let buffer ← memsetZero c.buffer bufLen
  let buffer ← buffer.write 0 (bytes.take c.nbytes)
  let size := if bytes.length ≤ c.nbytes then bytes.length else sizeMax
  if 0 < size ∧ size < bufLen - 1 then
    let buffer ← buffer.write size [0]
    return ({ c with buffer }, some (cstr buffer.bytes))
  else return ({ c with buffer }, none)

end UDPClient

/-- A line is typed, sent to the server, and what the server sends back is received. Shown is the
text that is printed, if any. -/
def udpRound (c : UDPClient) (s : UDPServer) (line : TypedLine) :
    Option ((UDPClient × UDPServer) × Option (List UInt8)) := do
  let (c, bytes) ← c.send line
  -- `size <= 0`: the next line
  if bytes.length = 0 then return ((c, s), none)
  else if h : bytes.length ≤ UDPServer.nbytes then
    let (s, reply) ← s.serve ⟨(), bytes, h⟩
    let (c, shown) ← c.receive reply.bytes
    return ((c, s), shown)
  else none

/-- The client and the server as a machine. -/
def udpMachine : Machine (UDPClient × UDPServer) TypedLine (Option (List UInt8)) where
  allowed _ _ := True
  step s line := (udpRound s.1 s.2 line).map fun r => (r.1, [r.2])

instance (s : UDPClient × UDPServer) (line : TypedLine) : Decidable (udpMachine.allowed s line) :=
  inferInstanceAs (Decidable True)

/-- A round ends as it should when the line is shown, with or without its newline. -/
def Shows (line : TypedLine) (shown : Option (List UInt8)) : Prop :=
  shown = some line.text ∨ shown = some (line.text ++ [10])

/-! ### One round -/

namespace UDPClient

theorem memsetZero_eq (buffer : Buffer bufLen) :
    memsetZero buffer bufLen = some (UDPServer.filled 0) := by
  obtain ⟨zeroed, hzeroed⟩ := buffer.write_isSome
    (show 0 + (List.replicate bufLen (0 : UInt8)).length ≤ bufLen by
      rw [List.length_replicate]; omega)
  have hbytes : zeroed.bytes = List.replicate bufLen 0 := by
    rw [Buffer.bytes_of_write hzeroed]
    simp [buffer.size_eq]
  obtain ⟨bytes, hsize⟩ := zeroed
  obtain rfl : bytes = List.replicate bufLen 0 := hbytes
  exact hzeroed

/-- What `fgets` leaves in a zeroed buffer has a zero for its last byte but one: the NUL of `fgets`,
or a zero that was there. -/
theorem fgets_spec (line : TypedLine) : ∃ buffer,
    fgets (UDPServer.filled 0) (bufLen - 1) line = some buffer ∧ buffer.slice 98 1 = [0] := by
  have hline := line.length_le
  have htext : (line.text ++ [10]).length ≤ 98 := by
    rw [List.length_append, List.length_singleton]
    omega
  have htake : (line.text ++ [10]).take (bufLen - 1 - 1) = line.text ++ [10] :=
    List.take_of_length_le htext
  have hlen : (line.text ++ [10] ++ [0]).length = (line.text ++ [10]).length + 1 :=
    List.length_append
  obtain ⟨buffer, hbuffer⟩ := (UDPServer.filled 0).write_isSome
    (show 0 + (line.text ++ [10] ++ [0]).length ≤ bufLen by rw [bufLen]; omega)
  refine ⟨buffer, by rw [fgets, htake, hbuffer], ?_⟩
  rcases Nat.lt_or_ge (line.text ++ [10]).length 98 with hshort | hfull
  · rw [Buffer.slice_write_of_disjoint hbuffer (Or.inr (by omega)), UDPServer.slice_filled]
    rfl
  · have hall := Buffer.slice_write hbuffer
    have hsplit := buffer.slice_append 0 98 1
    have hfill : (line.text ++ [10] ++ [0]).length = 99 := by omega
    rw [hfill] at hall
    rw [hall] at hsplit
    exact List.append_inj_right' hsplit (buffer.length_slice (by decide))

/-- **What is sent.** A client that sends 99 bytes sends 99 bytes, and will do so again. -/
theorem send_spec (c : UDPClient) (hnbytes : c.nbytes = 99) (line : TypedLine) :
    ∃ buffer : Buffer bufLen, c.send line = some (⟨buffer, 99⟩, buffer.slice 0 99) := by
  obtain ⟨buffer, hfgets, hlast⟩ := fgets_spec line
  have hroom : 99 ≤ bufLen := by decide
  refine ⟨buffer, ?_⟩
  simp [send, memsetZero_eq, hfgets, hnbytes, hlast, hroom]

/-- **What is shown.** Of 99 bytes a client that asks for 99 shows nothing. -/
theorem receive_spec (c : UDPClient) (hnbytes : c.nbytes = 99) {bytes : List UInt8}
    (hbytes : bytes.length = 99) :
    ∃ buffer, c.receive bytes = some (⟨buffer, 99⟩, none) := by
  have htake : bytes.take 99 = bytes := List.take_of_length_le hbytes.le
  obtain ⟨buffer, hbuffer⟩ := (UDPServer.filled 0).write_isSome
    (show 0 + bytes.length ≤ bufLen by rw [hbytes, bufLen]; omega)
  have hlong : ¬ 99 < bufLen - 1 := by decide
  refine ⟨buffer, ?_⟩
  simp [receive, memsetZero_eq, hnbytes, htake, hbuffer, hbytes, hlong]

end UDPClient

/-- A round goes through, and nothing is shown. -/
theorem udpRound_spec (c : UDPClient) (hnbytes : c.nbytes = 99) (s : UDPServer)
    (line : TypedLine) : ∃ c' s', udpRound c s line = some ((c', s'), none) ∧ c'.nbytes = 99 := by
  obtain ⟨buffer, hsend⟩ := c.send_spec hnbytes line
  have hlen : (buffer.slice 0 99).length = 99 := buffer.length_slice (by decide)
  have hne : buffer.slice 0 99 ≠ [] := List.ne_nil_of_length_eq_add_one hlen
  obtain ⟨s', reply, hserve, -, -⟩ :=
    s.serve_spec (⟨(), buffer.slice 0 99, hlen.le⟩ : Datagram Unit)
  have hreply : reply.bytes = buffer.slice 0 99 := (UDPServer.echo_iff hserve).mpr hlen
  obtain ⟨buffer', hreceive⟩ :=
    UDPClient.receive_spec ⟨buffer, 99⟩ rfl ((congrArg List.length hreply).trans hlen)
  refine ⟨⟨buffer', 99⟩, s', ?_, rfl⟩
  simp [udpRound, hsend, hlen, hne, hserve, hreceive, UDPServer.nbytes]

/-! ### Runs -/

/-- A line for every round, and nothing shown in any of them. -/
theorem udp_run (buffer : Buffer bufLen) (s : UDPServer) (lines : List TypedLine) :
    ∃ t, udpMachine.Run (UDPClient.init buffer, s) lines t (lines.map fun _ => none) ∧
      t.1.nbytes = 99 := by
  induction lines using List.reverseRecOn with
  | nil => exact ⟨_, .nil, rfl⟩
  | append_singleton lines line ih =>
    obtain ⟨⟨c, s⟩, hrun, hnbytes⟩ := ih
    obtain ⟨c', s', hround, hnbytes'⟩ := udpRound_spec c hnbytes s line
    refine ⟨(c', s'), ?_, hnbytes'⟩
    rw [List.map_append]
    exact hrun.snoc trivial (by simp only [udpMachine, hround]; rfl)

/-- **Round trip.** Whatever the two buffers hold to begin with, the client shows the line that was
typed in every round exactly when no line was typed. -/
theorem udp_round_trip_iff (buffer : Buffer bufLen) (s : UDPServer) (lines : List TypedLine) :
    ∃ t outs, udpMachine.Run (UDPClient.init buffer, s) lines t outs ∧
      (List.Forall₂ Shows lines outs ↔ lines = []) := by
  obtain ⟨t, hrun, -⟩ := udp_run buffer s lines
  refine ⟨t, _, hrun, ?_⟩
  constructor
  · intro h
    cases lines with
    | nil => rfl
    | cons line lines =>
      rcases (List.forall₂_cons.mp h).1 with hshown | hshown
      · cases hshown
      · cases hshown
  · rintro rfl
    exact .nil

/-- An `a` is typed, and nothing is shown. -/
theorem not_udp_round_trip : ∃ t outs,
    udpMachine.Run (UDPClient.init (UDPServer.filled 0), ⟨UDPServer.filled 0⟩)
      [⟨[97], by decide, by decide⟩] t outs ∧
    ¬ List.Forall₂ Shows [⟨[97], by decide, by decide⟩] outs := by
  have hrun : udpMachine.Run (UDPClient.init (UDPServer.filled 0), ⟨UDPServer.filled 0⟩)
      [⟨[97], by decide, by decide⟩] _ _ := Machine.run_of_exec rfl
  refine ⟨_, _, hrun, ?_⟩
  intro h
  rcases (List.forall₂_cons.mp h).1 with hshown | hshown
  · cases hshown
  · cases hshown

end Exec02
