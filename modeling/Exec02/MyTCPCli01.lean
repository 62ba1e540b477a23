import Exec02.Lib.Pipeline
import Exec02.MyTCPSrv01

/-!
# The echo client, and the two together

`MyTCPCli01.cpp`: a line is read, all of it is written, and then as many bytes are read. The client
blocks in each of the two, so while it writes it reads nothing, and what the server sends back stays
in the channel. Together with a connection of the server (`MyTCPSrv01.cpp`), which does one thing at
a time as well, that is a message there and back with two channels in between.

## Reading the model

`write` and `read` are their loops over `write_some` and `read_some`, which move as many bytes as
they like but at least one, and block until they can. The two channels hold `ch.up` and `ch.down`
bytes, neither loses any, and nobody closes one. The lengths are `size_t`, which 1024 does not come
near.

The line is what `getline` keeps of it and `strlen` sees: at most 1023 characters, up to the first
NUL. Whether an input of the server is allowed is told by the wait that is under way.

## Main results

* `echoSystem_matches` — client, channels and connection are a pipeline
* `echo_reply` — the reply is the line as it was typed, up to its length and its first NUL
* `echo_jams_iff` — exactly when client and server can get stuck
-/

namespace Exec02

/-! ### The client -/

/-- `max_length`. -/
def maxLength : ℕ := 1024

/-- `cin.getline(request, n)`: the characters in front of a newline, as many as leave room for a
NUL. -/
def getline {m : ℕ} (request : Buffer m) (n : ℕ) (input : List UInt8) : Option (Buffer m) :=
  request.write 0 ((input.takeWhile (· ≠ 10)).take (n - 1) ++ [0])

/-- The variables of `main`, with how far `write` and `read` have come. -/
structure EchoClient where
  request : Buffer maxLength
  requestLength : ℕ
  sent : ℕ
  reply : Buffer maxLength
  replyLength : ℕ

namespace EchoClient

/-- `main` up to the `write`, over storage that held `request` and `reply`. -/
def enter (request reply : Buffer maxLength) (input : List UInt8) : Option EchoClient := do
  let request ← getline request maxLength input
  return ⟨request, (cstr request.bytes).length, 0, reply, 0⟩

/-- A round of `write`, in which `write_some` takes `n` bytes. -/
def write (c : EchoClient) (n : ℕ) : EchoClient × List UInt8 :=
  ({ c with sent := c.sent + n }, c.request.slice c.sent n)

/-- A round of `read`, in which `read_some` stores `bytes`. -/
def read (c : EchoClient) (bytes : List UInt8) : Option EchoClient := do
  let reply ← c.reply.write c.replyLength bytes
  return { c with reply, replyLength := c.replyLength + bytes.length }

/-- Both loops are over. -/
def Finished (c : EchoClient) : Prop := c.sent = c.requestLength ∧ c.replyLength = c.requestLength

instance (c : EchoClient) : Decidable c.Finished := inferInstanceAs (Decidable (_ ∧ _))

/-- What is written to `cout`. -/
def shown (c : EchoClient) : List UInt8 := c.reply.slice 0 c.replyLength

end EchoClient

/-- What is sent of a line that is typed. -/
def typed (input : List UInt8) : List UInt8 :=
  cstr ((input.takeWhile (· ≠ 10)).take (maxLength - 1))

/-! ### The two together -/

/-- A client, a connection of the server, and the bytes in the two channels. -/
structure EchoSystem where
  client : EchoClient
  up : List UInt8
  connection : Connection
  down : List UInt8

/-- How many bytes the two channels hold: at least one each. -/
structure Channels where
  up : ℕ
  down : ℕ
  up_pos : 0 < up
  down_pos : 0 < down

/-- The channels, and the array of the session. -/
def Channels.capacity (ch : Channels) : Capacity :=
  ⟨128, ch.up, ch.down, by decide, ch.up_pos, ch.down_pos⟩

namespace EchoSystem

/-- A handler of the server has run. -/
def handled (s : EchoSystem) (up : List UInt8) (r : Connection × List (RelayEvent UInt8)) :
    EchoSystem × List Empty :=
  ({ s with up, connection := r.1, down := s.down ++ RelayEvent.given r.2 }, [])

/-- Everything as one machine. That a wait is over too early is `again`. -/
def machine (ch : Channels) : Machine EchoSystem PipelineInput Empty where
  allowed s
    | .send n => 0 < n ∧ n ≤ s.client.requestLength - s.client.sent ∧ s.up.length + n ≤ ch.up
    | .take n => .read ∈ s.connection.waits ∧ 0 < n ∧ n ≤ s.up.length ∧ n ≤ 128
    | .give n => .write ∈ s.connection.waits ∧ 0 < n ∧ n ≤ s.connection.session.writeBuffer.2 ∧
        s.down.length + n ≤ ch.down
    | .receive n => s.client.sent = s.client.requestLength ∧ 0 < n ∧
        n ≤ s.client.requestLength - s.client.replyLength ∧ n ≤ s.down.length
    | .again => s.connection.waits ≠ []
  step s
    | .send n =>
      let (client, bytes) := s.client.write n
      some ({ s with client, up := s.up ++ bytes }, [])
    | .take n =>
      (s.connection.handleRead none (.ok (s.up.take n))).map (s.handled (s.up.drop n))
    | .give n => some (s.handled s.up (s.connection.handleWrite none (.ok n)))
    | .receive n =>
      (s.client.read (s.down.take n)).map fun client =>
        ({ s with client, down := s.down.drop n }, [])
    | .again =>
      match s.connection.waits with
      | [] => none
      | .read :: _ =>
        (s.connection.handleRead none (.error .wouldBlock)).map (s.handled s.up)
      | .write :: _ => some (s.handled s.up (s.connection.handleWrite none (.error .wouldBlock)))

/-- The beginning: a line is typed, and the connection has just been accepted. -/
def start (client : EchoClient) (data : Buffer 128) : EchoSystem :=
  ⟨client, [], (Connection.new data).startOperations, []⟩

end EchoSystem

instance (ch : Channels) (s : EchoSystem) :
    (i : PipelineInput) → Decidable ((EchoSystem.machine ch).allowed s i)
  | .send _ => inferInstanceAs (Decidable (_ ∧ _))
  | .take _ => inferInstanceAs (Decidable (_ ∧ _))
  | .give _ => inferInstanceAs (Decidable (_ ∧ _))
  | .receive _ => inferInstanceAs (Decidable (_ ∧ _))
  | .again => inferInstanceAs (Decidable (_ ≠ _))

/-! ### The pipeline it is -/

/-- What a connection that is open waits for, by what it holds. -/
theorem Connection.Represents.read_mem_iff {c : Connection} {held : List UInt8}
    (h : c.Represents ⟨held, false⟩) : .read ∈ c.waits ↔ held = [] := by
  cases h with
  | reading data buffer => simp
  | writing data off size hsize hin =>
    have hlen := data.length_slice hin
    simp only [List.mem_singleton, reduceCtorEq, false_iff]
    rintro hnil
    rw [hnil, List.length_nil] at hlen
    omega

theorem Connection.Represents.write_le_iff {c : Connection} {held : List UInt8}
    (h : c.Represents ⟨held, false⟩) {n : ℕ} (hn : 0 < n) :
    .write ∈ c.waits ∧ n ≤ c.session.writeBuffer.2 ↔ n ≤ held.length := by
  cases h with
  | reading data buffer =>
    simp only [List.mem_singleton, reduceCtorEq, false_and, List.length_nil, false_iff]
    omega
  | writing data off size hsize hin => simp [data.length_slice hin]

/-- What the two together have to do with a pipeline. -/
structure EchoSystem.Is (ch : Channels) (msg : List UInt8) (s : EchoSystem) (p : Pipeline UInt8) :
    Prop where
  request : s.client.request.slice 0 s.client.requestLength = msg
  length_eq : msg.length = s.client.requestLength
  length_lt : s.client.requestLength < maxLength
  sent_le : s.client.sent ≤ s.client.requestLength
  unsent : p.unsent = msg.drop s.client.sent
  up : p.up = s.up
  held : s.connection.Represents ⟨p.held, false⟩
  down : p.down = s.down
  shown : s.client.shown = p.received
  received : s.client.replyLength = p.received.length
  way : p.OnTheWay ch.capacity msg

namespace EchoSystem.Is

variable {msg : List UInt8} {s : EchoSystem} {p : Pipeline UInt8} {ch : Channels}

theorem sent_eq_iff (h : Is ch msg s p) :
    s.client.sent = s.client.requestLength ↔ p.unsent = [] := by
  have hle := h.sent_le
  have hlen := h.length_eq
  rw [h.unsent, List.drop_eq_nil_iff]
  omega

/-- What has not been received is no less than what is in the channel. -/
theorem down_le (h : Is ch msg s p) :
    s.down.length ≤ s.client.requestLength - s.client.replyLength := by
  have htext := congrArg List.length h.way.text_eq
  simp only [Pipeline.text, List.length_append] at htext
  rw [h.received, ← h.length_eq, ← h.down]
  omega

theorem allowed_iff (h : Is ch msg s p) (i : PipelineInput) :
    (machine ch).allowed s i ↔ (Pipeline.machine ch.capacity).allowed p i := by
  cases i with
  | send n =>
    have hunsent := congrArg List.length h.unsent
    rw [List.length_drop, h.length_eq] at hunsent
    simp only [machine, Pipeline.machine, Channels.capacity, hunsent, h.up]
  | take n =>
    simp only [machine, Pipeline.machine, Channels.capacity, h.held.read_mem_iff, h.up]
  | give n =>
    show _ ∧ 0 < n ∧ _ ∧ _ ↔ 0 < n ∧ _ ∧ p.down.length + n ≤ ch.down
    rw [h.down, and_left_comm, and_congr_right_iff]
    intro hn
    rw [← and_assoc, h.held.write_le_iff hn]
  | receive n =>
    have hdown := h.down_le
    simp only [machine, Pipeline.machine, h.sent_eq_iff, h.down]
    refine and_congr_right fun _ => and_congr_right fun _ => ?_
    omega
  | again =>
    refine iff_of_true ?_ trivial
    intro hnil
    have hclosed := h.held.waits_eq_nil_iff.mp hnil
    cases hclosed

/-- **One step of both.** -/
theorem step (h : Is ch msg s p) {i : PipelineInput}
    (ha : (Pipeline.machine ch.capacity).allowed p i) :
    ∃ t o q o', (machine ch).step s i = some (t, o) ∧
      (Pipeline.machine ch.capacity).step p i = some (q, o') ∧ Is ch msg t q := by
  have hs := (h.allowed_iff i).mpr ha
  cases i with
  | send n =>
    obtain ⟨hpos, hle, -⟩ := hs
    have hsent := h.sent_le
    refine ⟨_, _, _, _, rfl, rfl, ?_⟩
    exact
      { h with
        sent_le := by show s.client.sent + n ≤ s.client.requestLength; omega
        unsent := by
          show p.unsent.drop n = msg.drop (s.client.sent + n)
          rw [h.unsent, List.drop_drop]
        up := by
          show p.up ++ p.unsent.take n = s.up ++ s.client.request.slice s.client.sent n
          rw [h.up, h.unsent, ← h.request, Buffer.drop_slice, Buffer.take_slice _ _ hle,
            Nat.zero_add]
        way := (h.way.step ha rfl).1 }
  | take n =>
    obtain ⟨hwait, hpos, hle, hroom⟩ := hs
    have hlen : (s.up.take n).length = n := List.length_take_of_le hle
    obtain ⟨hidle, c, hread, hrep⟩ := h.held.took hwait (hlen ▸ hpos) (by omega)
    refine ⟨_, _, _, _, by simp only [machine, hread, Option.map_some]; rfl, rfl, ?_⟩
    exact
      { h with
        up := by show p.up.drop n = s.up.drop n; rw [h.up]
        held := by show c.Represents ⟨p.up.take n, false⟩; rw [h.up]; exact hrep
        down := by show p.down = s.down ++ []; rw [h.down, List.append_nil]
        way := (h.way.step ha rfl).1 }
  | give n =>
    obtain ⟨hwait, hpos, hle, -⟩ := hs
    obtain ⟨-, c, hwrite, hrep⟩ := h.held.gave hwait hpos hle
    refine ⟨_, _, _, _, by simp only [machine, hwrite]; rfl, rfl, ?_⟩
    exact
      { h with
        held := hrep
        down := by
          show p.down ++ p.held.take n = s.down ++ (p.held.take n ++ [])
          rw [h.down, List.append_nil]
        way := (h.way.step ha rfl).1 }
  | receive n =>
    obtain ⟨-, hpos, hroom, hle⟩ := hs
    have hlt := h.length_lt
    have hlen : (s.down.take n).length = n := List.length_take_of_le hle
    obtain ⟨reply, hreply⟩ := s.client.reply.write_isSome
      (show s.client.replyLength + (s.down.take n).length ≤ maxLength by omega)
    have hshown : reply.slice 0 (s.client.replyLength + n) = s.client.shown ++ s.down.take n := by
      have hnew := Buffer.slice_write hreply
      rw [hlen] at hnew
      rw [← Buffer.slice_append, Nat.zero_add, hnew,
        Buffer.slice_write_of_disjoint hreply (Or.inl (by omega))]
      rfl
    refine ⟨_, _, _, _, by simp only [machine, EchoClient.read, hreply]; rfl, rfl, ?_⟩
    exact
      { h with
        down := by show p.down.drop n = s.down.drop n; rw [h.down]
        shown := by
          show reply.slice 0 (s.client.replyLength + (s.down.take n).length) =
            p.received ++ p.down.take n
          rw [hlen, hshown, h.shown, h.down]
        received := by
          show s.client.replyLength + (s.down.take n).length = (p.received ++ p.down.take n).length
          rw [h.received, List.length_append, h.down]
        way := (h.way.step ha rfl).1 }
  | again =>
    have hsame {evs : List (RelayEvent UInt8)} (hevs : evs = []) :
        Is ch msg (s.handled s.up (s.connection, evs)).1 p := by
      subst hevs
      exact { h with down := by show p.down = s.down ++ []; rw [h.down, List.append_nil] }
    have hne : s.connection.waits ≠ [] := hs
    obtain ⟨w, rest, hwaits⟩ := List.exists_cons_of_ne_nil hne
    cases w with
    | read =>
      have hread := h.held.read_again (hwaits ▸ List.mem_cons_self)
      exact ⟨_, _, _, _, by simp only [machine, hwaits, hread, Option.map_some]; rfl, rfl,
        hsame rfl⟩
    | write =>
      have hwrite := h.held.write_again (hwaits ▸ List.mem_cons_self)
      exact ⟨_, _, _, _, by simp only [machine, hwaits, hwrite]; rfl, rfl, hsame rfl⟩

end EchoSystem.Is

/-- Client, channels and connection match a pipeline. -/
theorem echoSystem_matches (ch : Channels) (msg : List UInt8) :
    (EchoSystem.machine ch).Matches (Pipeline.machine ch.capacity) (EchoSystem.Is ch msg) where
  allowed h := h.allowed_iff _
  step h ha := h.step ha

/-! ### The line -/

theorem length_typed_lt (input : List UInt8) : (typed input).length < maxLength := by
  have hcstr : (typed input).length ≤ ((input.takeWhile (· ≠ 10)).take (maxLength - 1)).length :=
    (List.takeWhile_prefix _).length_le
  have htake := List.length_take_le (maxLength - 1) (input.takeWhile (· ≠ 10))
  have hmax : 0 < maxLength := by decide
  omega

/-- What the client has when a line has been typed: what is in front of the NUL. -/
theorem EchoClient.enter_spec (request reply : Buffer maxLength) (input : List UInt8) :
    ∃ c, enter request reply input = some c ∧ c.sent = 0 ∧ c.replyLength = 0 ∧
      c.requestLength = (typed input).length ∧
        c.request.slice 0 c.requestLength = typed input := by
  obtain ⟨line, hline⟩ : ∃ line, (input.takeWhile (· ≠ 10)).take (maxLength - 1) = line := ⟨_, rfl⟩
  have hmax : 0 < maxLength := by decide
  have hlen : line.length ≤ maxLength - 1 := hline ▸ List.length_take_le ..
  have hfits : (line ++ [0]).length ≤ maxLength := by
    rw [List.length_append, List.length_singleton]
    omega
  obtain ⟨request', hrequest, hbytes⟩ := request.exists_write_zero hfits
  have hcstr : cstr request'.bytes = typed input := by
    rw [hbytes, List.append_assoc, typed, hline]
    exact cstr_append_zero line _
  refine ⟨⟨request', (cstr request'.bytes).length, 0, reply, 0⟩, ?_, rfl, rfl, by rw [hcstr], ?_⟩
  · rw [enter, getline, hline, hrequest]
    rfl
  · show request'.slice 0 (cstr request'.bytes).length = typed input
    rw [← hcstr]
    exact (List.prefix_iff_eq_take.mp (List.takeWhile_prefix _)).symm

theorem EchoSystem.is_start (ch : Channels) {request reply : Buffer maxLength}
    {input : List UInt8} {c : EchoClient} (h : EchoClient.enter request reply input = some c)
    (data : Buffer 128) : Is ch (typed input) (start c data) (.start (typed input)) := by
  obtain ⟨c', henter, hsent, hreply, hlength, hrequest⟩ :=
    EchoClient.enter_spec request reply input
  obtain rfl : c = c' := by simpa [h] using henter
  exact
    { request := hrequest
      length_eq := hlength.symm
      length_lt := hlength ▸ length_typed_lt input
      sent_le := by show c.sent ≤ _; omega
      unsent := by show _ = (typed input).drop c.sent; rw [hsent]; rfl
      up := rfl
      held := Connection.represents_start data
      down := rfl
      shown := by show c.reply.slice 0 c.replyLength = []; rw [hreply]; rfl
      received := hreply
      way := Pipeline.onTheWay_start ch.capacity (typed input) }

theorem EchoSystem.Is.finished_iff {ch : Channels} {msg : List UInt8} {s : EchoSystem}
    {p : Pipeline UInt8} (h : Is ch msg s p) : s.client.Finished ↔ p.Done := by
  have htext := congrArg List.length h.way.text_eq
  simp only [Pipeline.text, List.length_append, h.length_eq] at htext
  rw [EchoClient.Finished, h.sent_eq_iff, h.received, Pipeline.Done]
  simp only [← List.length_eq_zero_iff]
  omega

/-- **The reply.** In whatever pieces and whatever order things move, what the client has is the
first of the line, and it has all of it when it is finished; no step goes wrong; and there are no
more than four moves for every byte. -/
theorem echo_reply {request reply : Buffer maxLength} {input : List UInt8} {c : EchoClient}
    (henter : EchoClient.enter request reply input = some c) {ch : Channels} {data : Buffer 128}
    {ins : List PipelineInput} {s : EchoSystem} {outs : List Empty}
    (h : (EchoSystem.machine ch).Run (.start c data) ins s outs) :
    s.client.shown <+: typed input ∧ (s.client.Finished → s.client.shown = typed input) ∧
      (∀ i, (EchoSystem.machine ch).allowed s i → ((EchoSystem.machine ch).step s i).isSome) ∧
      ins.countP PipelineInput.moves ≤ 4 * (typed input).length := by
  obtain ⟨p, outs', hrun, his⟩ :=
    (echoSystem_matches ch (typed input)).run (EchoSystem.is_start ch henter data) h
  have htext := his.way.text_eq
  rw [his.shown]
  refine ⟨?_, ?_, ?_, ?_⟩
  · rw [← htext, Pipeline.text, List.append_assoc, List.append_assoc, List.append_assoc]
    exact List.prefix_append _ _
  · intro hfinished
    obtain ⟨hunsent, hup, hheld, hdown⟩ := his.finished_iff.mp hfinished
    simpa [Pipeline.text, hunsent, hup, hheld, hdown] using htext
  · intro i hi
    obtain ⟨t, o, q, o', hs, -⟩ := his.step ((his.allowed_iff i).mp hi)
    rw [hs]
    rfl
  · have hle := Pipeline.run_countP_le hrun
    omega

/-- The line `hi` over channels of one byte each, through which the two bytes pass one behind the
other. -/
theorem echo_reply_hi :
    let ch : Channels := ⟨1, 1, by decide, by decide⟩
    let storage : Buffer maxLength := ⟨List.replicate maxLength 0, List.length_replicate⟩
    let data : Buffer 128 := ⟨List.replicate 128 0, List.length_replicate⟩
    ∃ c ins s outs, EchoClient.enter storage storage [104, 105, 10] = some c ∧
      (EchoSystem.machine ch).Run (.start c data) ins s outs ∧ s.client.shown = [104, 105] := by
  intro ch storage data
  obtain ⟨c, henter, -⟩ := EchoClient.enter_spec storage storage [104, 105, 10]
  have hpipe : (Pipeline.machine ch.capacity).Run (.start (typed [104, 105, 10]))
      [.send 1, .take 1, .again, .send 1, .give 1, .take 1, .receive 1, .give 1, .receive 1]
      ⟨[], [], [], [], [104, 105]⟩ [] :=
    Machine.run_of_exec rfl
  obtain ⟨s, outs, hrun, his⟩ := (echoSystem_matches ch (typed [104, 105, 10])).lift
    (EchoSystem.is_start ch henter data) hpipe
  have hfinished := his.finished_iff.mpr ⟨rfl, rfl, rfl, rfl⟩
  exact ⟨c, _, s, outs, henter, hrun, (echo_reply henter hrun).2.1 hfinished⟩

/-- **The jam.** Client and server get stuck, each waiting for the other, in some run of theirs
exactly if the line is longer than the two channels and one byte. -/
theorem echo_jams_iff (ch : Channels) (request reply : Buffer maxLength) (input : List UInt8)
    (data : Buffer 128) : ∃ c, EchoClient.enter request reply input = some c ∧
      ((∀ ins s outs, (EchoSystem.machine ch).Run (.start c data) ins s outs →
        (EchoSystem.machine ch).Blocked PipelineInput.moves s → s.client.Finished) ↔
          (typed input).length ≤ ch.up + ch.down + 1) := by
  obtain ⟨c, henter, -⟩ := EchoClient.enter_spec request reply input
  refine ⟨c, henter, ?_⟩
  rw [(echoSystem_matches ch (typed input)).forall_blocked_iff
    (EchoSystem.is_start ch henter data) fun his => his.finished_iff]
  exact Pipeline.blocked_done_iff ch.capacity (typed input)

end Exec02
