import Exec02.UDPClient
import Exec02.Lib.StopAndWait
import Exec02.Lib.View

/-!
# The UDP echo over a real network

`UDPServer.c` and any number of `udpclient.c`, with a network between them that may lose a datagram,
keep it for another time, or let others overtake it. A client sends a line and waits in `recvfrom`
for whatever comes, without a time-out; the server has one buffer for all of them.

Since a client always sends 99 bytes, which is all that a reply has, no bytes of others get into a
reply, and the server is an echo.

## Reading the model

A line has at most 97 characters, and its newline. The address prompt is not part of this, all the
clients are sending to the server; a datagram comes from where it says. A datagram that has reached
its computer but has not been received yet is under way. `sendto` and `recvfrom` do not fail. What a
client shows is the text that it has received; the one that it sends it prints anyway.

## Main results

* `exchangeView` — the programs are parties that stop and wait
* `udp_stop_and_wait` — what the clients receive and show
* `udp_stuck_iff` — which clients wait for ever
-/

namespace Exec02

variable {π : Type} [DecidableEq π]

/-- The server, the clients and which of them wait in `recvfrom`, and the datagrams under way to the
server and back, these with their recipients. -/
structure UDPNetwork (π : Type) where
  server : UDPServer
  clients : π → UDPClient
  waiting : π → Bool
  up : List (Datagram π)
  down : List (π × List UInt8)

/-- What an observer sees: a client sending and receiving, the text it shows, and the text the
server puts on its display. -/
inductive UDPEvent (π : Type)
  | sent (p : π) (bytes : List UInt8)
  | received (p : π) (bytes : List UInt8)
  | shown (p : π) (text : List UInt8)
  | put (text : List UInt8)

namespace UDPNetwork

/-- Before anything is typed, with what the buffers hold. -/
def start (server : UDPServer) (buffers : π → Buffer bufLen) : UDPNetwork π :=
  ⟨server, fun p => .init (buffers p), fun _ => false, [], []⟩

/-- A client sends a line, and waits; or it goes on at once where there was nothing to send. -/
def send (s : UDPNetwork π) (p : π) (line : TypedLine) :
    Option (UDPNetwork π × List (UDPEvent π)) := do
  let (client, bytes) ← (s.clients p).send line
  let s := { s with clients := Function.update s.clients p client }
  if bytes.length = 0 then return (s, [])
  else if h : bytes.length ≤ UDPServer.nbytes then
    return ({ s with
      waiting := Function.update s.waiting p true
      up := s.up ++ [⟨p, bytes, h⟩] }, [.sent p bytes])
  else none

/-- The server receives a datagram and answers it. -/
def serve (s : UDPNetwork π) (k : ℕ) (keep : Bool) :
    Option (UDPNetwork π × List (UDPEvent π)) := do
  let d ← s.up[k]?
  let (server, e) ← s.server.serve d
  let up := Exchange.rest k keep s.up
  return ({ s with server, up, down := s.down ++ [(e.recipient, e.bytes)] },
    e.puts.toList.map .put)

/-- A client that waits receives a datagram. -/
def receive (s : UDPNetwork π) (k : ℕ) (keep : Bool) :
    Option (UDPNetwork π × List (UDPEvent π)) := do
  let (p, bytes) ← s.down[k]?
  let (client, shown) ← (s.clients p).receive bytes
  let down := Exchange.rest k keep s.down
  let clients := Function.update s.clients p client
  return ({ s with clients, down, waiting := Function.update s.waiting p false },
    .received p bytes :: shown.toList.map (.shown p))

end UDPNetwork

/-- The programs and the network, as a machine. -/
def udpNetworkMachine (π : Type) [DecidableEq π] :
    Machine (UDPNetwork π) (ExchangeInput π TypedLine) (UDPEvent π) where
  allowed s
    | .send p _ => s.waiting p = false
    | .serve k _ | .loseUp k => k < s.up.length
    | .receive k _ => ∃ d ∈ s.down[k]?, s.waiting d.1
    | .loseDown k => k < s.down.length
  step s
    | .send p line => s.send p line
    | .serve k keep => s.serve k keep
    | .receive k keep => s.receive k keep
    | .loseUp k => some ({ s with up := s.up.eraseIdx k }, [])
    | .loseDown k => some ({ s with down := s.down.eraseIdx k }, [])

instance (s : UDPNetwork π) :
    (i : ExchangeInput π TypedLine) → Decidable ((udpNetworkMachine π).allowed s i)
  | .send p _ => inferInstanceAs (Decidable (s.waiting p = false))
  | .serve k _ | .loseUp k => inferInstanceAs (Decidable (k < s.up.length))
  | .receive k _ => inferInstanceAs (Decidable (∃ d ∈ s.down[k]?, s.waiting d.1))
  | .loseDown k => inferInstanceAs (Decidable (k < s.down.length))

/-! ### What the programs do with a datagram -/

/-- The bytes that a client sends for a line. -/
def TypedLine.datagram (line : TypedLine) : List UInt8 :=
  line.text ++ 10 :: List.replicate (98 - line.text.length) 0

theorem TypedLine.length_datagram (line : TypedLine) : line.datagram.length = 99 := by
  have hline := line.length_le
  simp only [datagram, List.length_append, List.length_cons, List.length_replicate]
  omega

/-- What `fgets` leaves in a zeroed buffer. -/
theorem UDPClient.fgets_bytes (line : TypedLine) : ∃ buffer,
    fgets (UDPServer.filled 0) (bufLen - 1) line = some buffer ∧
      buffer.slice 0 99 = line.datagram := by
  have hline := line.length_le
  have htake : (line.text ++ [10]).take (bufLen - 1 - 1) = line.text ++ [10] :=
    List.take_of_length_le (by
      rw [List.length_append, List.length_singleton, bufLen]
      omega)
  have hlen : (line.text ++ [10] ++ [0]).length = line.text.length + 2 := by
    simp
  have hfits : (line.text ++ [10] ++ [0]).length ≤ bufLen := by
    rw [hlen, bufLen]
    omega
  obtain ⟨buffer, hbuffer, hbytes⟩ := (UDPServer.filled 0).exists_write_zero hfits
  refine ⟨buffer, by rw [fgets, htake, hbuffer], ?_⟩
  have hzeros : 0 :: List.replicate (bufLen - (line.text.length + 2)) (0 : UInt8) =
      List.replicate (98 - line.text.length) 0 ++ [0] := by
    rw [← List.replicate_succ, ← List.replicate_succ', bufLen]
    congr 1
    omega
  have hall : buffer.bytes = line.datagram ++ [0] := by
    rw [hbytes, hlen, UDPServer.filled, List.drop_replicate, TypedLine.datagram, List.append_assoc,
      List.append_assoc, List.append_assoc]
    exact congrArg (fun zeros => line.text ++ 10 :: zeros) hzeros
  rw [Buffer.slice, hall, List.drop_zero, List.take_left' line.length_datagram]

/-- **What is sent.** The line, its newline, and zeros. -/
theorem UDPClient.send_eq (c : UDPClient) (hnbytes : c.nbytes = 99) (line : TypedLine) :
    ∃ buffer : Buffer bufLen, c.send line = some (⟨buffer, 99⟩, line.datagram) := by
  obtain ⟨buffer, hfgets, hlast⟩ := fgets_spec line
  obtain ⟨buffer', hfgets', hslice⟩ := fgets_bytes line
  obtain rfl : buffer = buffer' := Option.some.inj (hfgets.symm.trans hfgets')
  have hroom : 99 ≤ bufLen := by decide
  refine ⟨buffer, ?_⟩
  simp [send, memsetZero_eq, hfgets, hnbytes, hlast, hroom, hslice]

/-! ### The view -/

/-- Every datagram is as long as a reply, and every client sends such ones. -/
structure UDPNetwork.Full (s : UDPNetwork π) : Prop where
  clients : ∀ p, (s.clients p).nbytes = 99
  up : ∀ d ∈ s.up, d.bytes.length = 99
  down : ∀ r ∈ s.down, r.2.length = 99

/-- What the programs do for those who use them. -/
def UDPNetwork.exchange (s : UDPNetwork π) : Exchange π (List UInt8) :=
  ⟨s.waiting, s.up.map fun d => (d.sender, d.bytes), s.down⟩

def UDPEvent.exchange : UDPEvent π → Option (ExchangeEvent π (List UInt8))
  | .sent p bytes => some (.sent p bytes)
  | .received p bytes => some (.received p bytes)
  | _ => none

variable {s t : UDPNetwork π} {i : ExchangeInput π TypedLine} {o outs : List (UDPEvent π)}

theorem mem_rest {α : Type*} {k : ℕ} {keep : Bool} {l : List α} {a : α}
    (h : a ∈ Exchange.rest k keep l) : a ∈ l := by
  rw [Exchange.rest] at h
  split_ifs at h
  · exact h
  · exact List.mem_of_mem_eraseIdx h

theorem map_rest {α β : Type*} (f : α → β) (k : ℕ) (keep : Bool) (l : List α) :
    (Exchange.rest k keep l).map f = Exchange.rest k keep (l.map f) := by
  rw [Exchange.rest, Exchange.rest]
  split_ifs
  · rfl
  · rw [List.eraseIdx_map]

theorem UDPNetwork.Full.update_client (h : s.Full) (p : π) (buffer : Buffer bufLen) (q : π) :
    (Function.update s.clients p ⟨buffer, 99⟩ q).nbytes = 99 := by
  by_cases hq : q = p
  · rw [hq, Function.update_self]
  · rw [Function.update_of_ne hq]
    exact h.clients q

/-- **A step.** Whatever is allowed is done, by the programs as by parties that stop and wait; no
text is shown, and everything stays as long as it is. -/
theorem UDPNetwork.Full.step (h : s.Full) (ha : (udpNetworkMachine π).allowed s i) :
    ∃ t o, (udpNetworkMachine π).step s i = some (t, o) ∧ t.Full ∧
      (Exchange.machine TypedLine.datagram).step s.exchange i =
        some (t.exchange, o.filterMap UDPEvent.exchange) ∧ ∀ p text, .shown p text ∉ o := by
  cases i with
  | send p line =>
    obtain ⟨buffer, hsend⟩ := (s.clients p).send_eq (h.clients p) line
    have hlen := line.length_datagram
    have hstep : s.send p line = some ({ s with
        clients := Function.update s.clients p ⟨buffer, 99⟩
        waiting := Function.update s.waiting p true
        up := s.up ++ [⟨p, line.datagram, hlen.le⟩] }, [.sent p line.datagram]) := by
      have hne : line.datagram ≠ [] := List.ne_nil_of_length_eq_add_one hlen
      simp [UDPNetwork.send, hsend, hlen, hne, UDPServer.nbytes]
    refine ⟨_, _, hstep, ⟨h.update_client p buffer, ?_, h.down⟩, ?_, by simp⟩
    · exact List.forall_mem_append.mpr ⟨h.up, List.forall_mem_singleton.mpr hlen⟩
    · simp only [Exchange.machine, exchange, List.map_append]
      rfl
  | serve k keep =>
    have hd : s.up[k]? = some (s.up.get ⟨k, ha⟩) := List.getElem?_eq_getElem ha
    generalize s.up.get ⟨k, ha⟩ = d at hd
    obtain ⟨server, e, hserve, hrecipient, -⟩ := s.server.serve_spec d
    have hlen := h.up d (List.mem_of_getElem? hd)
    have hbytes : e.bytes = d.bytes := (UDPServer.echo_iff hserve).mpr hlen
    have hstep : s.serve k keep = some ({ s with
        server
        up := Exchange.rest k keep s.up
        down := s.down ++ [(d.sender, d.bytes)] }, e.puts.toList.map .put) := by
      simp [UDPNetwork.serve, hd, hserve, hrecipient, hbytes]
    refine ⟨_, _, hstep, ⟨h.clients, fun d hd => h.up d (mem_rest hd), ?_⟩, ?_, by simp⟩
    · exact List.forall_mem_append.mpr ⟨h.down, List.forall_mem_singleton.mpr hlen⟩
    · have hnone : (e.puts.toList.map UDPEvent.put).filterMap UDPEvent.exchange =
          ([] : List (ExchangeEvent π (List UInt8))) := by
        simp [List.filterMap_map, UDPEvent.exchange]
      simp [Exchange.machine, exchange, hd, hnone, map_rest]
  | receive k keep =>
    obtain ⟨⟨p, bytes⟩, hr, hp⟩ := ha
    have hr : s.down[k]? = some (p, bytes) := hr
    obtain ⟨buffer, hreceive⟩ := (s.clients p).receive_spec (h.clients p)
      (h.down _ (List.mem_of_getElem? hr))
    have hstep : s.receive k keep = some ({ s with
        clients := Function.update s.clients p ⟨buffer, 99⟩
        waiting := Function.update s.waiting p false
        down := Exchange.rest k keep s.down }, [.received p bytes]) := by
      simp [UDPNetwork.receive, hr, hreceive]
    refine ⟨_, _, hstep, ⟨h.update_client p buffer, h.up, fun r hr => h.down r (mem_rest hr)⟩, ?_,
      by simp⟩
    simp only [Exchange.machine, exchange, hr]
    rfl
  | loseUp k =>
    refine ⟨_, _, rfl, ⟨h.clients, fun d hd => h.up d (List.mem_of_mem_eraseIdx hd), h.down⟩, ?_,
      by simp⟩
    simp only [Exchange.machine, exchange, List.eraseIdx_map]
    rfl
  | loseDown k =>
    exact ⟨_, _, rfl, ⟨h.clients, h.up, fun r hr => h.down r (List.mem_of_mem_eraseIdx hr)⟩, rfl,
      by simp⟩

theorem UDPNetwork.allowed_iff : (Exchange.machine TypedLine.datagram).allowed s.exchange i ↔
    (udpNetworkMachine π).allowed s i := by
  cases i with
  | send p line => exact Iff.rfl
  | receive k keep => exact Iff.rfl
  | loseDown k => exact Iff.rfl
  | serve k keep =>
    show k < (s.up.map _).length ↔ k < s.up.length
    rw [List.length_map]
  | loseUp k =>
    show k < (s.up.map _).length ↔ k < s.up.length
    rw [List.length_map]

/-- **The programs stop and wait.** -/
def exchangeView (π : Type) [DecidableEq π] :
    (udpNetworkMachine π).View
      (Exchange.machine TypedLine.datagram : Machine (Exchange π (List UInt8)) _ _) where
  inv := UDPNetwork.Full
  state := UDPNetwork.exchange
  input := some
  output := UDPEvent.exchange
  keep := by
    intro s t i o h ha hs
    obtain ⟨t', o', hs', hfull, -⟩ := h.step ha
    obtain ⟨rfl, rfl⟩ := Prod.mk.inj (Option.some.inj (hs.symm.trans hs'))
    exact hfull
  own := by
    rintro s t i o _ h ha hs ⟨⟩
    obtain ⟨t', o', hs', -, hstep, -⟩ := h.step ha
    obtain ⟨rfl, rfl⟩ := Prod.mk.inj (Option.some.inj (hs.symm.trans hs'))
    exact ⟨UDPNetwork.allowed_iff.mpr ha, hstep⟩
  other _ _ _ hi := by cases hi

theorem exchangeView_enabled : (exchangeView π).Enabled := by
  intro s i h ha
  have ha := UDPNetwork.allowed_iff.mp ha
  obtain ⟨t, o, hs, -⟩ := UDPNetwork.Full.step h ha
  exact ⟨i, rfl, ha, t, o, hs⟩

/-! ### Runs -/

theorem UDPNetwork.full_start {π : Type} (server : UDPServer) (buffers : π → Buffer bufLen) :
    (UDPNetwork.start server buffers).Full :=
  ⟨fun _ => rfl, by simp [UDPNetwork.start], by simp [UDPNetwork.start]⟩

variable {server : UDPServer} {buffers : π → Buffer bufLen}
  {ins : List (ExchangeInput π TypedLine)}

theorem udpNetwork_exchange (h : (udpNetworkMachine π).Run (.start server buffers) ins s outs) :
    (Exchange.machine TypedLine.datagram).Run .start ins s.exchange
      (outs.filterMap UDPEvent.exchange) := by
  have hrun := (exchangeView π).run (UDPNetwork.full_start server buffers) h
  rwa [show ins.filterMap (exchangeView π).input = ins from List.filterMap_some] at hrun

/-- **Stop and wait.** Whatever the buffers hold and whatever the network does, with any number of
clients: nothing goes wrong, and no client ever shows a text that it has received; a client receives
what it has sent itself, and as often as it has sent or once less; and if the network keeps no
datagram for another time, it receives the answers to its lines, in order. -/
theorem udp_stop_and_wait (h : (udpNetworkMachine π).Run (.start server buffers) ins s outs) :
    (∀ i, (udpNetworkMachine π).allowed s i → ((udpNetworkMachine π).step s i).isSome) ∧
    (∀ p text, .shown p text ∉ outs) ∧
    (∀ p, receivedBy p (outs.filterMap UDPEvent.exchange) ⊆
      sentBy p (outs.filterMap UDPEvent.exchange)) ∧
    (∀ p, (sentBy p (outs.filterMap UDPEvent.exchange)).length =
      (receivedBy p (outs.filterMap UDPEvent.exchange)).length + if s.waiting p then 1 else 0) ∧
    ((∀ i ∈ ins, i.keeps = false) → ∀ p, receivedBy p (outs.filterMap UDPEvent.exchange) <+:
      sentBy p (outs.filterMap UDPEvent.exchange)) := by
  have hfull : s.Full := (exchangeView π).inv_run (UDPNetwork.full_start server buffers) h
  have hexchange := udpNetwork_exchange h
  have hsound := Exchange.run_sound hexchange
  refine ⟨?_, ?_, hsound.received, hsound.count, ?_⟩
  · intro i ha
    obtain ⟨t, o, hs, -⟩ := hfull.step ha
    rw [hs]
    rfl
  · refine h.invariant (P := fun _ _ outs => ∀ p text, .shown p text ∉ outs) (by simp) ?_
    intro ins s outs i t o hrun ih ha hs p text hmem
    have hfull : s.Full := (exchangeView π).inv_run (UDPNetwork.full_start server buffers) hrun
    obtain ⟨t', o', hs', -, -, hnot⟩ := hfull.step ha
    obtain ⟨rfl, rfl⟩ := Prod.mk.inj (Option.some.inj (hs.symm.trans hs'))
    rcases List.mem_append.mp hmem with hmem | hmem
    · exact ih p text hmem
    · exact hnot p text hmem
  · intro hkeeps p
    exact (Exchange.run_inStep hexchange hkeeps p).received_isPrefix

/-- What is under way for a client in the programs is so in their view. -/
theorem flight_eq_zero_iff {p : π} : s.exchange.flight p = 0 ↔
    (∀ d ∈ s.up, d.sender ≠ p) ∧ ∀ r ∈ s.down, r.1 ≠ p := by
  rw [Exchange.flight, Multiset.filter_eq_nil]
  constructor
  · intro hall
    refine ⟨fun d hd => ?_, fun r hr => hall r (Multiset.mem_add.mpr (Or.inr hr))⟩
    have hmem : (d.sender, d.bytes) ∈ s.up.map fun d => (d.sender, d.bytes) :=
      List.mem_map_of_mem hd
    exact hall _ (Multiset.mem_add.mpr (Or.inl hmem))
  · rintro ⟨hup, hdown⟩ r hr
    rcases Multiset.mem_add.mp hr with hr | hr
    · obtain ⟨d, hd, rfl⟩ := List.mem_map.mp (Multiset.mem_coe.mp hr)
      exact hup d hd
    · exact hdown r hr

/-- **A lost datagram.** After any run, a client that waits will wait whatever happens, and never
send or receive anything again, exactly if none of its datagrams is under way, to the server or
back. -/
theorem udp_stuck_iff (h : (udpNetworkMachine π).Run (.start server buffers) ins s outs) {p : π}
    (hp : s.waiting p) :
    (∀ ins' t outs', (udpNetworkMachine π).Run s ins' t outs' → t.waiting p ∧
      sentBy p (outs'.filterMap UDPEvent.exchange) = [] ∧
      receivedBy p (outs'.filterMap UDPEvent.exchange) = []) ↔
        (∀ d ∈ s.up, d.sender ≠ p) ∧ ∀ r ∈ s.down, r.1 ≠ p := by
  have hfull : s.Full := (exchangeView π).inv_run (UDPNetwork.full_start server buffers) h
  have hwaiting : s.exchange.waiting p := hp
  rw [← flight_eq_zero_iff, ← Exchange.stuck_iff TypedLine.datagram hwaiting]
  exact (exchangeView π).forall_run_iff (P := fun b evs =>
    b.waiting p ∧ sentBy p evs = [] ∧ receivedBy p evs = []) hfull exchangeView_enabled

/-- The line `a`, sent, answered and received. -/
def ExchangeInput.sample : List (ExchangeInput ℕ TypedLine) :=
  [.send 0 ⟨[97], by decide, by decide⟩, .serve 0 false, .receive 0 false]

theorem udp_stop_and_wait_sample : ∃ s outs, (udpNetworkMachine ℕ).Run
    (.start ⟨UDPServer.filled 0⟩ fun _ => UDPServer.filled 0) ExchangeInput.sample s outs ∧
      (receivedBy 0 (outs.filterMap UDPEvent.exchange)).length = 1 ∧
      receivedBy 0 (outs.filterMap UDPEvent.exchange) <+:
        sentBy 0 (outs.filterMap UDPEvent.exchange) := by
  have hrun : (udpNetworkMachine ℕ).Run (.start ⟨UDPServer.filled 0⟩ fun _ => UDPServer.filled 0)
      ExchangeInput.sample _ _ := Machine.run_of_exec rfl
  exact ⟨_, _, hrun, rfl, (udp_stop_and_wait hrun).2.2.2.2 (by decide) 0⟩

/-- The same line, lost on its way. -/
def ExchangeInput.lost : List (ExchangeInput ℕ TypedLine) :=
  [.send 0 ⟨[97], by decide, by decide⟩, .loseUp 0]

theorem udp_stuck_iff_lost : ∃ s outs, (udpNetworkMachine ℕ).Run
    (.start ⟨UDPServer.filled 0⟩ fun _ => UDPServer.filled 0) ExchangeInput.lost s outs ∧
      ∀ ins' t outs', (udpNetworkMachine ℕ).Run s ins' t outs' → t.waiting 0 := by
  have hrun : (udpNetworkMachine ℕ).Run (.start ⟨UDPServer.filled 0⟩ fun _ => UDPServer.filled 0)
      ExchangeInput.lost _ _ := Machine.run_of_exec rfl
  refine ⟨_, _, hrun, fun ins' t outs' hrun' => ?_⟩
  have hnone : ∀ d ∈ ([] : List (Datagram ℕ)), d.sender ≠ 0 := by simp
  have hnone' : ∀ r ∈ ([] : List (ℕ × List UInt8)), r.1 ≠ 0 := by simp
  exact ((udp_stuck_iff hrun rfl).mpr ⟨hnone, hnone'⟩ ins' t outs' hrun').1

end Exec02
