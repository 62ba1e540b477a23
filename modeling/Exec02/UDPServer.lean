import Exec02.Lib.CString
import Exec02.Lib.Machine

/-!
# The UDP echo server

`UDPServer.c`: one buffer, into which every datagram is received and out of which every reply is
sent. A datagram overwrites as much of the buffer as it has bytes, a NUL is stored behind it, and
then `nbytes` bytes are sent back, however many have come. The rest of the reply is what the buffer
held before: bytes of earlier datagrams, of whichever client.

## Reading the model

A datagram has at most `nbytes` bytes, which is as many as `recvfrom` is asked for, and is received
without an error.

## Main results

* `reply_eq` — what is sent back
* `udp_echo_iff` — the datagrams that are echoed, and those whose reply tells nothing else
-/

namespace Exec02

/-- `BUF_LEN`, of the server and of the client. -/
def bufLen : ℕ := 100

/-- A datagram and its sender. -/
structure Datagram (π : Type) where
  sender : π
  bytes : List UInt8
  length_le : bytes.length ≤ 99

/-- What the server does about a datagram: the text it puts on the display, if any, and the bytes it
sends, to whom. -/
structure Echo (π : Type) where
  puts : Option (List UInt8)
  recipient : π
  bytes : List UInt8

/-- The server: its `buffer`. -/
structure UDPServer where
  buffer : Buffer bufLen

namespace UDPServer

/-- `nbytes`. -/
def nbytes : ℕ := 99

variable {π : Type}

/-- A round of the loop in `main`. -/
def serve (s : UDPServer) (d : Datagram π) : Option (UDPServer × Echo π) := do
  let buffer ← s.buffer.write 0 d.bytes
  let size := d.bytes.length
  if 0 < size ∧ size < bufLen then
    let buffer ← buffer.write size [0]
    return (⟨buffer⟩, ⟨some (cstr buffer.bytes), d.sender, buffer.slice 0 nbytes⟩)
  else return (⟨buffer⟩, ⟨none, d.sender, buffer.slice 0 nbytes⟩)

end UDPServer

/-- The server as a machine. -/
def udpServerMachine (π : Type) : Machine UDPServer (Datagram π) (Echo π) where
  allowed _ _ := True
  step s d := (s.serve d).map fun r => (r.1, [r.2])

instance {π : Type} (s : UDPServer) (d : Datagram π) :
    Decidable ((udpServerMachine π).allowed s d) :=
  inferInstanceAs (Decidable True)

/-! ### One datagram -/

namespace UDPServer

variable {π : Type} {s t : UDPServer}

/-- **The reply.** It goes back to the sender: the datagram, a NUL if there is a byte and room for
one, and then what the buffer held. -/
theorem serve_spec (s : UDPServer) (d : Datagram π) :
    ∃ t e, s.serve d = some (t, e) ∧ e.recipient = d.sender ∧ e.bytes =
      d.bytes ++ if d.bytes = [] then s.buffer.slice 0 99
        else if d.bytes.length = 99 then []
        else 0 :: s.buffer.slice (d.bytes.length + 1) (98 - d.bytes.length) := by
  have hlen := d.length_le
  obtain ⟨buffer, hbuffer⟩ := s.buffer.write_isSome
    (show 0 + d.bytes.length ≤ bufLen by rw [bufLen]; omega)
  rcases Nat.eq_zero_or_pos d.bytes.length with hzero | hpos
  · have hnil := List.length_eq_zero_iff.mp hzero
    have hsame : buffer.slice 0 99 = s.buffer.slice 0 99 :=
      Buffer.slice_write_of_disjoint hbuffer (Or.inr (by omega))
    refine ⟨⟨buffer⟩, ⟨none, d.sender, buffer.slice 0 99⟩, ?_, rfl, ?_⟩
    · simp [serve, hbuffer, hzero, nbytes]
    · rw [if_pos hnil, hnil, List.nil_append, hsame]
  · have hne : d.bytes ≠ [] := List.length_pos_iff.mp hpos
    obtain ⟨buffer', hbuffer'⟩ := buffer.write_isSome
      (show d.bytes.length + [(0 : UInt8)].length ≤ bufLen by
        rw [bufLen, List.length_singleton]; omega)
    have hsize : 0 < d.bytes.length ∧ d.bytes.length < bufLen := ⟨hpos, by rw [bufLen]; omega⟩
    refine ⟨⟨buffer'⟩, ⟨some (cstr buffer'.bytes), d.sender, buffer'.slice 0 99⟩, ?_, rfl, ?_⟩
    · simp [serve, hbuffer, hsize, hbuffer', nbytes]
    rw [if_neg hne]
    split_ifs with hfull
    · -- the NUL is behind the reply
      rw [List.append_nil, ← hfull, Buffer.slice_write_of_disjoint hbuffer' (Or.inl (by omega)),
        Buffer.slice_write hbuffer]
    · have hroom : 99 = d.bytes.length + (1 + (98 - d.bytes.length)) := by omega
      exact (congrArg (buffer'.slice 0) hroom).trans (Buffer.slice_terminated hbuffer hbuffer' _)

/-- A datagram is sent back as it came exactly when it fills the reply. -/
theorem echo_iff {d : Datagram π} {e : Echo π} (h : s.serve d = some (t, e)) :
    e.bytes = d.bytes ↔ d.bytes.length = 99 := by
  obtain ⟨_, _, hserve, -, hbytes⟩ := serve_spec s d
  obtain ⟨rfl, rfl⟩ := Prod.mk.inj (Option.some.inj (hserve.symm.trans h))
  rw [hbytes, List.append_right_eq_self]
  split_ifs with hnil hfull
  · refine iff_of_false (List.ne_nil_of_length_pos ?_) (by rw [hnil]; decide)
    rw [Buffer.length_slice _ (by decide)]
    decide
  · exact iff_of_true rfl hfull
  · exact iff_of_false not_false hfull

/-- A buffer of one byte over and over. -/
def filled (b : UInt8) : Buffer bufLen := ⟨List.replicate bufLen b, List.length_replicate⟩

theorem slice_filled (b : UInt8) (off len : ℕ) :
    (filled b).slice off len = List.replicate (min len (bufLen - off)) b := by
  rw [Buffer.slice, filled, List.drop_replicate, List.take_replicate]

/-- The reply to a datagram does not depend on what came before it exactly when there is room for no
more than a NUL behind it. -/
theorem reply_determined_iff (d : Datagram π) :
    (∀ (s s' t t' : UDPServer) (e e' : Echo π), s.serve d = some (t, e) →
      s'.serve d = some (t', e') → e.bytes = e'.bytes) ↔ 98 ≤ d.bytes.length := by
  have hlen := d.length_le
  constructor
  · intro hsame
    by_contra hshort
    -- two buffers that agree nowhere
    obtain ⟨t, e, hserve, -, hbytes⟩ := serve_spec ⟨filled 0⟩ d
    obtain ⟨t', e', hserve', -, hbytes'⟩ := serve_spec ⟨filled 1⟩ d
    have heq := hsame _ _ t t' e e' hserve hserve'
    rw [hbytes, hbytes', List.append_right_inj] at heq
    split_ifs at heq with hnil hfull
    · rw [slice_filled, slice_filled] at heq
      cases heq
    · omega
    · have htail := (List.cons.inj heq).2
      rw [slice_filled, slice_filled, List.replicate_inj] at htail
      rcases htail.2 with hnone | hbyte
      · rw [bufLen] at hnone
        omega
      · cases hbyte
  · intro hlong s s' t t' e e' hserve hserve'
    obtain ⟨_, _, h, -, hbytes⟩ := serve_spec s d
    obtain ⟨rfl, rfl⟩ := Prod.mk.inj (Option.some.inj (h.symm.trans hserve))
    obtain ⟨_, _, h', -, hbytes'⟩ := serve_spec s' d
    obtain ⟨rfl, rfl⟩ := Prod.mk.inj (Option.some.inj (h'.symm.trans hserve'))
    have hne : d.bytes ≠ [] := List.ne_nil_of_length_pos (by omega)
    rw [hbytes, hbytes', if_neg hne, if_neg hne]
    split_ifs with hfull
    · rfl
    · have hnone : 98 - d.bytes.length = 0 := by omega
      simp [hnone, Buffer.slice]

end UDPServer

/-! ### Runs -/

/-- The server answers every datagram. -/
theorem udpServer_run {π : Type} (s : UDPServer) (ins : List (Datagram π)) :
    ∃ t outs, (udpServerMachine π).Run s ins t outs := by
  refine Machine.exists_run fun {_ d t _} _ _ => ⟨trivial, ?_⟩
  obtain ⟨u, e, hserve, -⟩ := UDPServer.serve_spec t d
  exact ⟨u, [e], by simp only [udpServerMachine, hserve]; rfl⟩

/-- **Echo.** Whatever the buffer holds to begin with, the server sends every datagram back to its
sender as it came exactly when every one of them has as many bytes as a reply; and the reply to a
datagram can be told from it alone exactly when it has at most one byte less. -/
theorem udp_echo_iff {π : Type} (s : UDPServer) (ins : List (Datagram π)) :
    (∃ t outs, (udpServerMachine π).Run s ins t outs ∧
      (outs.map (fun e => (e.recipient, e.bytes)) = ins.map (fun d => (d.sender, d.bytes)) ↔
        ∀ d ∈ ins, d.bytes.length = 99)) ∧
    ∀ d : Datagram π, (∀ (s s' t t' : UDPServer) (e e' : Echo π), s.serve d = some (t, e) →
      s'.serve d = some (t', e') → e.bytes = e'.bytes) ↔ 98 ≤ d.bytes.length := by
  refine ⟨?_, UDPServer.reply_determined_iff⟩
  obtain ⟨t, outs, hrun⟩ := udpServer_run s ins
  refine ⟨t, outs, hrun, ?_⟩
  refine hrun.invariant (P := fun ins _ outs =>
    outs.map (fun e => (e.recipient, e.bytes)) = ins.map (fun d => (d.sender, d.bytes)) ↔
      ∀ d ∈ ins, d.bytes.length = 99) (iff_of_true rfl fun _ => nofun) ?_
  intro ins s outs d t o _ ih _ hs
  obtain ⟨t, e, hserve, hrecipient, -⟩ := UDPServer.serve_spec s d
  obtain ⟨rfl, rfl⟩ : t = _ ∧ [e] = o := by simpa [udpServerMachine, hserve] using hs
  rw [List.map_append, List.map_append, List.forall_mem_append, ← ih, List.forall_mem_singleton,
    ← UDPServer.echo_iff hserve]
  constructor
  · intro h
    obtain ⟨hbefore, hlast⟩ := List.append_inj' h rfl
    exact ⟨hbefore, (Prod.mk.inj (List.singleton_inj.mp hlast)).2⟩
  · rintro ⟨hbefore, hlast⟩
    rw [hbefore, List.map_singleton, List.map_singleton, hrecipient, hlast]

/-- Two clients, and a buffer of zeros to begin with. The second one sends a `d`, and is sent the
last byte of the first one's `abc` with it. -/
theorem not_udp_echo : ∃ t outs,
    (udpServerMachine ℕ).Run ⟨UDPServer.filled 0⟩
      [⟨0, [97, 98, 99], by decide⟩, ⟨1, [100], by decide⟩] t outs ∧
    outs.map (fun e => (e.recipient, e.bytes.take 4)) =
      [(0, [97, 98, 99, 0]), (1, [100, 0, 99, 0])] ∧
    outs.map (fun e => (e.recipient, e.bytes)) ≠ [(0, [97, 98, 99]), (1, [100])] := by
  have hrun : (udpServerMachine ℕ).Run ⟨UDPServer.filled 0⟩
      [⟨0, [97, 98, 99], by decide⟩, ⟨1, [100], by decide⟩] _ _ := Machine.run_of_exec rfl
  refine ⟨_, _, hrun, rfl, ?_⟩
  intro h
  have hlen := congrArg (List.map fun p => p.2.length) h
  exact absurd hlen (by decide)

end Exec02
