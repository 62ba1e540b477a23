import Exec02.Lib.CString
import Exec02.Lib.Relay
import Mathlib.Logic.Function.Basic
import Mathlib.Order.Basic

/-!
# The echo server

`MyTCPSrv01.cpp`: a `session` that wants to do its reads and writes itself, a `connection` that
waits for the socket to be ready and lets it, and a `server` that accepts connections, any number of
them, on one `io_context`. A session has one array. What it has read stays there until it is
written, in as many pieces as the socket likes, and only then does it read again.

## Reading the model

One step is one handler. `read_some` and `write_some` do not block: they move at least one byte, as
many as they like, or report an error. An error of the wait and one of the operation are the same to
a handler, and `would_block` is none.

A connection is kept by the handlers that are bound to it, so it is destroyed as soon as no wait of
its is left. Connections are numbered in the order of their creation, and `accepts` is those that
are to be accepted.

## Main results

* `Connection.handleRead_refines`, `Connection.handleWrite_refines` — a connection is a relay
* `echoMachine_kept` — which connections there are, and what each of them is waiting for
* `echo_streams` — every connection gives back what it took, whatever the others do
* `echo_one_wait` — an open connection has the one wait it wants, and no other connection has any
-/

namespace Exec02

/-! ### The source -/

/-- An error of a socket. -/
inductive IoError
  | wouldBlock
  | other
  deriving DecidableEq

inductive SessionState
  | reading
  | writing
  deriving DecidableEq

/-- `class session`, where `write_buffer_` is a part of `data_`: where it begins, and its size. -/
structure Session where
  state : SessionState
  data : Buffer 128
  writeBuffer : ℕ × ℕ

namespace Session

/-- The constructor, over storage that held `data`. -/
def new (data : Buffer 128) : Session := ⟨.reading, data, (0, 0)⟩

def wantRead (s : Session) : Bool := s.state = .reading

def wantWrite (s : Session) : Bool := s.state = .writing

/-- `do_read(ec)`, with what `read_some` does. -/
def doRead (s : Session) :
    Except IoError (List UInt8) → Option (Session × List (RelayEvent UInt8) × Option IoError)
  | .error ec => some (s, [], some ec)
  | .ok bytes => do
    let data ← s.data.write 0 bytes
    if bytes.length ≠ 0 then
      return (⟨.writing, data, (0, bytes.length)⟩, [.took bytes], none)
    return ({ s with data }, [], none)

/-- `do_write(ec)`, with what `write_some` does. -/
def doWrite (s : Session) : Except IoError ℕ → Session × List (RelayEvent UInt8) × Option IoError
  | .error ec => (s, [], some ec)
  | .ok len =>
    if len ≠ 0 then
      let (off, size) := s.writeBuffer
      let size' := size - min len size
      ({ s with
        state := if size' > 0 then .writing else .reading
        writeBuffer := (off + min len size, size') }, [.gave (s.data.slice off len)], none)
    else (s, [], none)

end Session

/-- An `async_wait` under way. -/
inductive Wait
  | read
  | write
  deriving DecidableEq

/-- `class connection`, with its socket and the waits that its handlers are bound to. -/
structure Connection where
  session : Session
  readInProgress : Bool
  writeInProgress : Bool
  isOpen : Bool
  waits : List Wait

namespace Connection

/-- The constructor, over storage that held `data`. -/
def new (data : Buffer 128) : Connection := ⟨.new data, false, false, true, []⟩

/-- `start_operations()`. -/
def startOperations (c : Connection) : Connection :=
  let c :=
    if c.session.wantRead && !c.readInProgress then
      { c with readInProgress := true, waits := c.waits ++ [.read] }
    else c
  if c.session.wantWrite && !c.writeInProgress then
    { c with writeInProgress := true, waits := c.waits ++ [.write] }
  else c

/-- The end of both handlers. -/
def proceed (c : Connection) (ec : Option IoError) : Connection × List (RelayEvent UInt8) :=
  if ec = none ∨ ec = some .wouldBlock then (c.startOperations, [])
  else ({ c with isOpen := false }, [.closed])

/-- `handle_read(ec)`, with what `read_some` does. -/
def handleRead (c : Connection) (ec : Option IoError) (result : Except IoError (List UInt8)) :
    Option (Connection × List (RelayEvent UInt8)) := do
  let c := { c with readInProgress := false, waits := c.waits.erase .read }
  let (session, evs, ec) ←
    (if ec = none then c.session.doRead result else some (c.session, [], ec))
  let (c, evs') := { c with session }.proceed ec
  return (c, evs ++ evs')

/-- `handle_write(ec)`, with what `write_some` does. -/
def handleWrite (c : Connection) (ec : Option IoError) (result : Except IoError ℕ) :
    Connection × List (RelayEvent UInt8) :=
  let c := { c with writeInProgress := false, waits := c.waits.erase .write }
  let (session, evs, ec) :=
    if ec = none then c.session.doWrite result else (c.session, [], ec)
  let (c, evs') := { c with session }.proceed ec
  (c, evs ++ evs')

end Connection

/-- `class server`: the connections that are kept, and those that are to be accepted. -/
structure EchoServer where
  created : ℕ
  accepts : List ℕ
  connections : ℕ → Option Connection

/-- What can happen to a server: an accept completes, where the array of the session held `data`,
and a wait of a connection does. -/
inductive EchoInput
  | accept (p : ℕ) (ok : Bool) (data : Buffer 128)
  | read (p : ℕ) (ec : Option IoError) (result : Except IoError (List UInt8))
  | write (p : ℕ) (ec : Option IoError) (result : Except IoError ℕ)

/-- What an observer sees of a server. -/
inductive EchoEvent
  | accepted (p : ℕ)
  | relay (p : ℕ) (e : RelayEvent UInt8)

namespace EchoServer

/-- `start_accept()`. -/
def startAccept (s : EchoServer) : EchoServer :=
  { s with created := s.created + 1, accepts := s.accepts ++ [s.created] }

/-- The constructor. -/
def new : EchoServer := startAccept ⟨0, [], fun _ => none⟩

/-- A connection that has run a handler is kept if one is bound to it. -/
def keep (s : EchoServer) (p : ℕ) (c : Connection) : EchoServer :=
  { s with
    connections := Function.update s.connections p (if c.waits = [] then none else some c) }

/-- `handle_accept(new_connection, error)`. -/
def handleAccept (s : EchoServer) (p : ℕ) (ok : Bool) (data : Buffer 128) :
    EchoServer × List EchoEvent :=
  let s := { s with accepts := s.accepts.erase p }
  if ok then ((s.keep p (Connection.new data).startOperations).startAccept, [.accepted p])
  else (s.startAccept, [])

/-- A handler of a connection that reads. -/
def handleRead (s : EchoServer) (p : ℕ) (ec : Option IoError)
    (result : Except IoError (List UInt8)) : Option (EchoServer × List EchoEvent) := do
  let c ← s.connections p
  let (c, evs) ← c.handleRead ec result
  return (s.keep p c, evs.map (.relay p))

/-- A handler of a connection that writes. -/
def handleWrite (s : EchoServer) (p : ℕ) (ec : Option IoError) (result : Except IoError ℕ) :
    Option (EchoServer × List EchoEvent) := do
  let c ← s.connections p
  let (c, evs) := c.handleWrite ec result
  return (s.keep p c, evs.map (.relay p))

end EchoServer

/-- What `read_some` may do with an array of 128 bytes. -/
def CanRead : Except IoError (List UInt8) → Prop
  | .error _ => True
  | .ok bytes => 0 < bytes.length ∧ bytes.length ≤ 128

/-- What `write_some` may do with a buffer of `size` bytes. -/
def CanWrite (size : ℕ) : Except IoError ℕ → Prop
  | .error _ => True
  | .ok len => len ≤ size ∧ (0 < size → 0 < len)

instance : DecidablePred CanRead
  | .error _ => inferInstanceAs (Decidable True)
  | .ok _ => inferInstanceAs (Decidable (_ ∧ _))

instance (size : ℕ) : DecidablePred (CanWrite size)
  | .error _ => inferInstanceAs (Decidable True)
  | .ok _ => inferInstanceAs (Decidable (_ ∧ _))

/-- A wait that may be over: of a socket that is closed it was cancelled. -/
def Connection.Awaits (c : Connection) (w : Wait) (ec : Option IoError) : Prop :=
  w ∈ c.waits ∧ (c.isOpen = false → ec = some .other)

instance (c : Connection) (w : Wait) (ec : Option IoError) : Decidable (c.Awaits w ec) :=
  inferInstanceAs (Decidable (_ ∧ (_ → _)))

/-- The server as a machine. -/
def echoMachine : Machine EchoServer EchoInput EchoEvent where
  allowed s
    | .accept p _ _ => p ∈ s.accepts
    | .read p ec result => ∃ c ∈ s.connections p, c.Awaits .read ec ∧ CanRead result
    | .write p ec result =>
      ∃ c ∈ s.connections p, c.Awaits .write ec ∧ CanWrite c.session.writeBuffer.2 result
  step s
    | .accept p ok data => some (s.handleAccept p ok data)
    | .read p ec result => s.handleRead p ec result
    | .write p ec result => s.handleWrite p ec result

instance (s : EchoServer) : (i : EchoInput) → Decidable (echoMachine.allowed s i)
  | .accept _ _ _ => inferInstanceAs (Decidable (_ ∈ _))
  | .read p ec result =>
    inferInstanceAs (Decidable (∃ c ∈ s.connections p, c.Awaits .read ec ∧ CanRead result))
  | .write p ec result =>
    inferInstanceAs (Decidable (∃ c ∈ s.connections p,
      c.Awaits .write ec ∧ CanWrite c.session.writeBuffer.2 result))

/-! ### A connection is a relay -/

namespace Connection

/-- What a connection has to do with a relay: it waits to read into the array, or to write what the
relay holds, which is in its array; or it is closed and waits for nothing. -/
inductive Represents : Connection → Relay UInt8 → Prop
  | reading (data : Buffer 128) (buffer : ℕ × ℕ) :
    Represents ⟨⟨.reading, data, buffer⟩, true, false, true, [.read]⟩ ⟨[], false⟩
  | writing (data : Buffer 128) (off size : ℕ) (hsize : 0 < size) (hin : off + size ≤ 128) :
    Represents ⟨⟨.writing, data, (off, size)⟩, false, true, true, [.write]⟩
      ⟨data.slice off size, false⟩
  | closed (session : Session) (held : List UInt8) :
    Represents ⟨session, false, false, false, []⟩ ⟨held, true⟩

variable {c : Connection} {r : Relay UInt8} {ec : Option IoError}

theorem represents_start (data : Buffer 128) : (new data).startOperations.Represents .idle :=
  .reading data (0, 0)

/-- A connection that represents a relay waits for something as long as the relay is not closed. -/
theorem Represents.waits_eq_nil_iff (h : c.Represents r) : c.waits = [] ↔ r.closed := by
  cases h <;> simp

/-- A connection that is open waits for what its session wants, and for nothing else. -/
theorem Represents.one_wait (h : c.Represents r) (hopen : r.closed = false) :
    c.isOpen ∧ ∃ w, c.waits = [w] ∧ (w = .read ↔ c.session.wantRead) ∧
      (w = .write ↔ c.session.wantWrite) := by
  cases h with
  | reading data buffer => exact ⟨rfl, .read, rfl, by simp [Session.wantRead, Session.wantWrite]⟩
  | writing data off size hsize hin =>
    exact ⟨rfl, .write, rfl, by simp [Session.wantRead, Session.wantWrite]⟩
  | closed session held => cases hopen

/-- An error of the wait is one of the operation. -/
theorem handleRead_some (c : Connection) (e : IoError) (result : Except IoError (List UInt8)) :
    c.handleRead (some e) result = c.handleRead none (.error e) := rfl

theorem handleWrite_some (c : Connection) (e : IoError) (result : Except IoError ℕ) :
    c.handleWrite (some e) result = c.handleWrite none (.error e) := rfl

/-- A connection that waits to write has something to write. -/
theorem Represents.pending (h : c.Represents r) (hwait : .write ∈ c.waits) :
    0 < c.session.writeBuffer.2 := by
  cases h with
  | reading data buffer => simp at hwait
  | writing data off size hsize hin => exact hsize
  | closed session held => simp at hwait

/-- After `would_block` a connection waits as before. -/
theorem Represents.read_again (h : c.Represents r) (hwait : .read ∈ c.waits) :
    c.handleRead none (.error .wouldBlock) = some (c, []) := by
  cases h with
  | reading data buffer => rfl
  | writing data off size hsize hin => simp at hwait
  | closed session held => simp at hwait

theorem Represents.write_again (h : c.Represents r) (hwait : .write ∈ c.waits) :
    c.handleWrite none (.error .wouldBlock) = (c, []) := by
  cases h with
  | reading data buffer => simp at hwait
  | writing data off size hsize hin => rfl
  | closed session held => simp at hwait

/-- An error closes, unless it is `would_block`. -/
theorem Represents.readError (h : c.Represents r) (hwait : .read ∈ c.waits) (e : IoError) :
    ∃ c' evs r', c.handleRead none (.error e) = some (c', evs) ∧ Trace RelayStep r evs r' ∧
      c'.Represents r' := by
  cases e with
  | wouldBlock => exact ⟨c, [], r, h.read_again hwait, .nil r, h⟩
  | other =>
    cases h with
    | reading data buffer => exact ⟨_, _, _, rfl, .single (.close []), .closed _ []⟩
    | writing data off size hsize hin => simp at hwait
    | closed session held => simp at hwait

theorem Represents.writeError (h : c.Represents r) (hwait : .write ∈ c.waits) (e : IoError) :
    ∃ c' evs r', c.handleWrite none (.error e) = (c', evs) ∧ Trace RelayStep r evs r' ∧
      c'.Represents r' := by
  cases e with
  | wouldBlock => exact ⟨c, [], r, h.write_again hwait, .nil r, h⟩
  | other =>
    cases h with
    | reading data buffer => simp at hwait
    | writing data off size hsize hin => exact ⟨_, _, _, rfl, .single (.close _), .closed _ _⟩
    | closed session held => simp at hwait

/-- What is read is in the array, and waits to be written. -/
theorem Represents.took (h : c.Represents r) (hwait : .read ∈ c.waits) {bytes : List UInt8}
    (hpos : 0 < bytes.length) (hlen : bytes.length ≤ 128) : r = .idle ∧
      ∃ c', c.handleRead none (.ok bytes) = some (c', [.took bytes]) ∧
        c'.Represents ⟨bytes, false⟩ := by
  cases h with
  | writing data off size hsize hin => simp at hwait
  | closed session held => simp at hwait
  | reading data buffer =>
    obtain ⟨data', hdata⟩ := data.write_isSome (show 0 + bytes.length ≤ 128 by omega)
    refine ⟨rfl, ⟨⟨.writing, data', (0, bytes.length)⟩, false, true, true, [.write]⟩, ?_, ?_⟩
    · simp [handleRead, Session.doRead, hdata, Nat.pos_iff_ne_zero.mp hpos, proceed,
        startOperations, Session.wantRead, Session.wantWrite]
    · have hwriting := Represents.writing data' 0 bytes.length hpos (by omega)
      rwa [Buffer.slice_write hdata] at hwriting

/-- What is written is the first of what waited, and when nothing is left the connection reads
again. -/
theorem Represents.gave (h : c.Represents r) (hwait : .write ∈ c.waits) {len : ℕ} (hpos : 0 < len)
    (hlen : len ≤ c.session.writeBuffer.2) : r.closed = false ∧
      ∃ c', c.handleWrite none (.ok len) = (c', [.gave (r.held.take len)]) ∧
        c'.Represents ⟨r.held.drop len, false⟩ := by
  cases h with
  | reading data buffer => simp at hwait
  | closed session held => simp at hwait
  | writing data off size hsize hin =>
    have hlen : len ≤ size := hlen
    have hne : len ≠ 0 := Nat.pos_iff_ne_zero.mp hpos
    rw [data.take_slice off hlen, data.drop_slice]
    refine ⟨rfl, ?_⟩
    rcases hlen.eq_or_lt with rfl | hlt
    · refine ⟨⟨⟨.reading, data, (off + len, 0)⟩, true, false, true, [.read]⟩, ?_, ?_⟩
      · simp [handleWrite, Session.doWrite, hne, proceed, startOperations, Session.wantRead,
          Session.wantWrite]
      · rw [Nat.sub_self]
        exact .reading data _
    · refine ⟨⟨⟨.writing, data, (off + len, size - len)⟩, false, true, true, [.write]⟩, ?_,
        .writing data _ _ (by omega) (by omega)⟩
      have hrest : size - len ≠ 0 := by omega
      simp [handleWrite, Session.doWrite, hne, min_eq_left hlen, Nat.pos_of_ne_zero hrest, proceed,
        startOperations, Session.wantRead, Session.wantWrite]

/-- **Reading.** What is read is taken; an error that is not `would_block` closes. -/
theorem handleRead_refines (h : c.Represents r) (ha : c.Awaits .read ec)
    {result : Except IoError (List UInt8)} (hresult : CanRead result) :
    ∃ c' evs r', c.handleRead ec result = some (c', evs) ∧ Trace RelayStep r evs r' ∧
      c'.Represents r' := by
  rcases ec with _ | e
  · rcases result with e | bytes
    · exact h.readError ha.1 e
    · obtain ⟨rfl, c', hread, hrep⟩ := h.took ha.1 hresult.1 hresult.2
      exact ⟨c', _, _, hread, .single (.take bytes), hrep⟩
  · rw [handleRead_some]
    exact h.readError ha.1 e

/-- **Writing.** What is written is given; an error that is not `would_block` closes. -/
theorem handleWrite_refines (h : c.Represents r) (ha : c.Awaits .write ec)
    {result : Except IoError ℕ} (hresult : CanWrite c.session.writeBuffer.2 result) :
    ∃ c' evs r', c.handleWrite ec result = (c', evs) ∧ Trace RelayStep r evs r' ∧
      c'.Represents r' := by
  rcases ec with _ | e
  · rcases result with e | len
    · exact h.writeError ha.1 e
    · obtain ⟨hlen, hpos⟩ : len ≤ _ ∧ (_ → 0 < len) := hresult
      obtain ⟨hopen, c', hwrite, hrep⟩ := h.gave ha.1 (hpos (h.pending ha.1)) hlen
      refine ⟨c', _, _, hwrite, ?_, hrep⟩
      obtain ⟨held, closed⟩ := r
      obtain rfl : closed = false := hopen
      have hgive := RelayStep.give (held.take len) (held.drop len)
      rw [List.take_append_drop] at hgive
      exact .single hgive
  · rw [handleWrite_some]
    exact h.writeError ha.1 e

end Connection

/-! ### The server -/

/-- What an observer sees of one connection. -/
def relayOf (p : ℕ) : List EchoEvent → List (RelayEvent UInt8) :=
  List.filterMap fun
    | .relay q e => if q = p then some e else none
    | .accepted _ => none

theorem relayOf_append (p : ℕ) (outs outs' : List EchoEvent) :
    relayOf p (outs ++ outs') = relayOf p outs ++ relayOf p outs' := List.filterMap_append

@[simp] theorem relayOf_accepted (p q : ℕ) : relayOf p [.accepted q] = [] := rfl

@[simp] theorem relayOf_self (p : ℕ) (evs : List (RelayEvent UInt8)) :
    relayOf p (evs.map (.relay p)) = evs := by
  simp [relayOf, List.filterMap_map]

theorem relayOf_of_ne {p q : ℕ} (h : q ≠ p) (evs : List (RelayEvent UInt8)) :
    relayOf p (evs.map (.relay q)) = [] := by
  simp [relayOf, List.filterMap_map, h]

theorem mem_relayOf {p : ℕ} {e : RelayEvent UInt8} {outs : List EchoEvent} :
    e ∈ relayOf p outs ↔ .relay p e ∈ outs := by
  rw [relayOf, List.mem_filterMap]
  constructor
  · rintro ⟨o, ho, he⟩
    cases o with
    | accepted q => cases he
    | relay q e' =>
      obtain ⟨rfl, rfl⟩ : q = p ∧ e' = e := by simpa using he
      exact ho
  · intro h
    exact ⟨_, h, by simp⟩

theorem accepted_notMem_relay (p q : ℕ) (evs : List (RelayEvent UInt8)) :
    EchoEvent.accepted p ∉ evs.map (.relay q) := by
  simp

namespace EchoServer

/-- What holds of a server that has shown `outs`. -/
structure Kept (s : EchoServer) (outs : List EchoEvent) : Prop where
  /-- The connection created last is the one to be accepted. -/
  accepting : ∃ p, s.accepts = [p] ∧ s.created = p + 1
  /-- Those accepted were created before it. -/
  fresh : ∀ p, .accepted p ∈ outs → p + 1 < s.created
  /-- Of a connection that was not accepted there is nothing. -/
  waiting : ∀ p, .accepted p ∉ outs → s.connections p = none ∧ relayOf p outs = []
  /-- One that was accepted is a relay, and is there until it is closed. -/
  relays : ∀ p, .accepted p ∈ outs → ∃ r, Trace RelayStep .idle (relayOf p outs) r ∧
    (∀ c ∈ s.connections p, c.Represents r ∧ r.closed = false) ∧
      (s.connections p = none → r.closed)

variable {s : EchoServer} {outs : List EchoEvent} {p : ℕ} {c c' : Connection}

theorem kept_new : Kept new [] where
  accepting := ⟨0, rfl, rfl⟩
  fresh _ h := absurd h List.not_mem_nil
  waiting _ _ := ⟨rfl, rfl⟩
  relays _ h := absurd h List.not_mem_nil

/-- A connection that has run a handler is kept while it is open. -/
theorem keep_spec {r : Relay UInt8} (h : c.Represents r) :
    (∀ c' ∈ (s.keep p c).connections p, c'.Represents r ∧ r.closed = false) ∧
      ((s.keep p c).connections p = none → r.closed) := by
  have hself : (s.keep p c).connections p = if c.waits = [] then none else some c :=
    Function.update_self ..
  rw [hself]
  by_cases hw : c.waits = []
  · rw [if_pos hw]
    exact ⟨nofun, fun _ => h.waits_eq_nil_iff.mp hw⟩
  · rw [if_neg hw]
    refine ⟨?_, nofun⟩
    rintro c' ⟨⟩
    exact ⟨h, by simpa using fun hr => hw (h.waits_eq_nil_iff.mpr hr)⟩

theorem keep_of_ne {q : ℕ} (h : q ≠ p) (c : Connection) :
    (s.keep p c).connections q = s.connections q := Function.update_of_ne h ..

/-- A connection that is there was accepted, and is a relay that is not closed. -/
theorem Kept.represents (hk : s.Kept outs) (hc : c ∈ s.connections p) :
    .accepted p ∈ outs ∧
      ∃ r, Trace RelayStep .idle (relayOf p outs) r ∧ c.Represents r ∧ r.closed = false := by
  have hp : .accepted p ∈ outs := by
    by_contra hnot
    rw [(hk.waiting p hnot).1] at hc
    cases hc
  obtain ⟨r, htrace, hrep, -⟩ := hk.relays p hp
  exact ⟨hp, r, htrace, hrep c hc⟩

/-- A handler of a connection concerns that connection. -/
theorem Kept.handled {evs : List (RelayEvent UInt8)} (hk : s.Kept outs)
    (hc : c ∈ s.connections p)
    (hstep : ∀ r, c.Represents r → ∃ r', Trace RelayStep r evs r' ∧ c'.Represents r') :
    (s.keep p c').Kept (outs ++ evs.map (.relay p)) := by
  have hmem (q : ℕ) : .accepted q ∈ outs ++ evs.map (.relay p) ↔ .accepted q ∈ outs := by
    rw [List.mem_append, or_iff_left (accepted_notMem_relay q p evs)]
  obtain ⟨hp, -⟩ := hk.represents hc
  refine ⟨hk.accepting, ?_, ?_, ?_⟩
  · intro q hq
    exact hk.fresh q ((hmem q).mp hq)
  · intro q hq
    have hq := mt (hmem q).mpr hq
    have hqp : q ≠ p := fun h => hq (h ▸ hp)
    obtain ⟨hnone, hnil⟩ := hk.waiting q hq
    rw [keep_of_ne hqp, relayOf_append, relayOf_of_ne hqp.symm, hnil]
    exact ⟨hnone, rfl⟩
  · intro q hq
    obtain ⟨r, htrace, hrep, hclosed⟩ := hk.relays q ((hmem q).mp hq)
    by_cases hqp : q = p
    · subst hqp
      obtain ⟨r', htrace', hrep'⟩ := hstep r (hrep c hc).1
      rw [relayOf_append, relayOf_self]
      exact ⟨r', htrace.append htrace', keep_spec hrep'⟩
    · rw [keep_of_ne hqp, relayOf_append, relayOf_of_ne (Ne.symm hqp), List.append_nil]
      exact ⟨r, htrace, hrep, hclosed⟩

/-- **Accepting.** The connection accepted begins, if it was, and the next one is to be. -/
theorem Kept.accept (hk : s.Kept outs) (hp : p ∈ s.accepts) (ok : Bool) (data : Buffer 128) :
    (s.handleAccept p ok data).1.Kept (outs ++ (s.handleAccept p ok data).2) := by
  obtain ⟨p', haccepts, hcreated⟩ := hk.accepting
  obtain rfl : p = p' := by simpa [haccepts] using hp
  have hnew : .accepted p ∉ outs := by
    intro h
    have := hk.fresh p h
    omega
  obtain ⟨hnone, hnil⟩ := hk.waiting p hnew
  cases ok with
  | false =>
    rw [show (s.handleAccept p false data).2 = [] from rfl, List.append_nil]
    refine ⟨⟨s.created, by simp [handleAccept, startAccept, haccepts], rfl⟩, ?_, hk.waiting,
      hk.relays⟩
    intro q hq
    exact (hk.fresh q hq).trans (Nat.lt_succ_self _)
  | true =>
    rw [show (s.handleAccept p true data).2 = [.accepted p] from rfl]
    have hmem (q : ℕ) : .accepted q ∈ outs ++ [.accepted p] ↔ .accepted q ∈ outs ∨ q = p := by simp
    refine ⟨⟨s.created, by simp [handleAccept, startAccept, keep, haccepts], rfl⟩, ?_, ?_, ?_⟩
    · intro q hq
      show q + 1 < s.created + 1
      rcases (hmem q).mp hq with hq | rfl
      · exact (hk.fresh q hq).trans (Nat.lt_succ_self _)
      · omega
    · intro q hq
      obtain ⟨hq, hqp⟩ := not_or.mp (mt (hmem q).mpr hq)
      rw [relayOf_append, relayOf_accepted, List.append_nil]
      obtain ⟨hnone, hnil⟩ := hk.waiting q hq
      exact ⟨(keep_of_ne hqp _).trans hnone, hnil⟩
    · intro q hq
      rw [relayOf_append, relayOf_accepted, List.append_nil]
      by_cases hqp : q = p
      · subst hqp
        rw [hnil]
        exact ⟨.idle, .nil _, keep_spec (Connection.represents_start data)⟩
      · obtain ⟨r, htrace, hrep, hclosed⟩ := hk.relays q (((hmem q).mp hq).resolve_right hqp)
        refine ⟨r, htrace, ?_, ?_⟩
        · intro c hc
          exact hrep c ((keep_of_ne hqp _).symm.trans hc)
        · intro h
          exact hclosed ((keep_of_ne hqp _).symm.trans h)

/-- **No step goes wrong**, and every step keeps what holds. -/
theorem Kept.step (hk : s.Kept outs) {i : EchoInput} (hi : echoMachine.allowed s i) :
    ∃ t o, echoMachine.step s i = some (t, o) ∧ t.Kept (outs ++ o) := by
  cases i with
  | accept p ok data => exact ⟨_, _, rfl, hk.accept hi ok data⟩
  | read p ec result =>
    obtain ⟨c, hc, ha, hresult⟩ := hi
    obtain ⟨-, r, -, hrep, -⟩ := hk.represents hc
    obtain ⟨c', evs, r', hread, -⟩ := Connection.handleRead_refines hrep ha hresult
    refine ⟨s.keep p c', evs.map (.relay p), ?_, hk.handled hc ?_⟩
    · simp [echoMachine, handleRead, Option.mem_def.mp hc, hread]
    · intro r hr
      obtain ⟨c₁, evs₁, r', hread', htrace, hrep'⟩ := Connection.handleRead_refines hr ha hresult
      obtain ⟨rfl, rfl⟩ : c' = c₁ ∧ evs = evs₁ := by simpa [hread] using hread'
      exact ⟨r', htrace, hrep'⟩
  | write p ec result =>
    obtain ⟨c, hc, ha, hresult⟩ := hi
    refine ⟨s.keep p (c.handleWrite ec result).1, (c.handleWrite ec result).2.map (.relay p), ?_,
      hk.handled hc ?_⟩
    · simp [echoMachine, handleWrite, Option.mem_def.mp hc]
    · intro r hr
      obtain ⟨c', evs, r', hwrite, htrace, hrep'⟩ := Connection.handleWrite_refines hr ha hresult
      rw [hwrite]
      exact ⟨r', htrace, hrep'⟩

end EchoServer

variable {s : EchoServer} {ins : List EchoInput} {outs : List EchoEvent}

theorem echoMachine_kept (h : echoMachine.Run .new ins s outs) : s.Kept outs := by
  refine h.invariant (P := fun _ s outs => s.Kept outs) EchoServer.kept_new ?_
  intro ins s outs i t o _ hk hi hs
  obtain ⟨t', o', hs', hk'⟩ := hk.step hi
  obtain ⟨rfl, rfl⟩ : t = t' ∧ o = o' := by simpa [hs] using hs'
  exact hk'

/-- What a connection has read and not written. -/
def Connection.unwritten (c : Connection) : List UInt8 :=
  if c.session.wantWrite then
    c.session.data.slice c.session.writeBuffer.1 c.session.writeBuffer.2
  else []

theorem Connection.Represents.unwritten_eq {c : Connection} {r : Relay UInt8}
    (h : c.Represents r) (hopen : r.closed = false) :
    c.unwritten = r.held ∧ r.held.length ≤ 128 := by
  cases h with
  | reading data buffer => exact ⟨by simp [unwritten, Session.wantWrite], Nat.zero_le _⟩
  | writing data off size hsize hin =>
    refine ⟨by simp [unwritten, Session.wantWrite], ?_⟩
    show (data.slice off size).length ≤ 128
    rw [data.length_slice hin]
    omega
  | closed session held => cases hopen

/-- **The echo.** In every run, with any number of connections whose handlers come in any order:
what a connection has written is the first of what it has read, a connection that is open still
holds all the rest, which is in its array, and none reads before it has written all it had read. -/
theorem echo_streams (h : echoMachine.Run .new ins s outs) (p : ℕ) :
    RelayEvent.given (relayOf p outs) <+: RelayEvent.taken (relayOf p outs) ∧
      (∀ c ∈ s.connections p, c.unwritten.length ≤ 128 ∧
        RelayEvent.taken (relayOf p outs) = RelayEvent.given (relayOf p outs) ++ c.unwritten) ∧
      ∀ before piece after, relayOf p outs = before ++ .took piece :: after →
        RelayEvent.given before = RelayEvent.taken before := by
  have hk := echoMachine_kept h
  obtain ⟨r, htrace⟩ : ∃ r, Trace RelayStep .idle (relayOf p outs) r := by
    by_cases hp : .accepted p ∈ outs
    · obtain ⟨r, htrace, -⟩ := hk.relays p hp
      exact ⟨r, htrace⟩
    · rw [(hk.waiting p hp).2]
      exact ⟨.idle, .nil _⟩
  refine ⟨htrace.given_prefix, ?_, fun before piece after hevs => htrace.balanced hevs⟩
  intro c hc
  obtain ⟨-, r, htrace, hrep, hopen⟩ := hk.represents hc
  obtain ⟨hunwritten, hlen⟩ := hrep.unwritten_eq hopen
  rw [hunwritten]
  exact ⟨hlen, htrace.taken_eq⟩

/-- Two connections. The first one reads three bytes, writes two of them, and its next write fails;
the second one echoes its byte in between. -/
def EchoInput.sample : List EchoInput :=
  let data : Buffer 128 := ⟨List.replicate 128 0, List.length_replicate⟩
  [.accept 0 true data, .accept 1 true data, .read 0 none (.ok [97, 98, 99]),
    .read 1 none (.ok [120]), .write 0 none (.ok 2), .write 1 none (.ok 1),
    .write 0 none (.error .other)]

/-- What is seen of the two. -/
def EchoEvent.sample : List EchoEvent :=
  [.accepted 0, .accepted 1, .relay 0 (.took [97, 98, 99]), .relay 1 (.took [120]),
    .relay 0 (.gave [97, 98]), .relay 1 (.gave [120]), .relay 0 .closed]

theorem exists_run_echo_sample : ∃ s, echoMachine.Run .new EchoInput.sample s EchoEvent.sample :=
  ⟨_, Machine.run_of_exec rfl⟩

theorem echo_streams_sample : ∃ s, echoMachine.Run .new EchoInput.sample s EchoEvent.sample ∧
    ∀ c ∈ s.connections 1, [120] = [120] ++ c.unwritten := by
  obtain ⟨s, hrun⟩ := exists_run_echo_sample
  exact ⟨s, hrun, fun c hc => ((echo_streams hrun 1).2.1 c hc).2⟩

/-- **One wait each.** In every run one accept is under way, of a connection that is new; a
connection is there exactly from its accept until it is closed, and then it is open and waits for
the one thing its session wants; nothing is seen of it afterwards; and no step can go wrong. -/
theorem echo_one_wait (h : echoMachine.Run .new ins s outs) :
    (∃ p, s.accepts = [p] ∧ .accepted p ∉ outs) ∧
      (∀ p, (s.connections p).isSome ↔ .accepted p ∈ outs ∧ .relay p .closed ∉ outs) ∧
      (∀ p, ∀ c ∈ s.connections p, c.isOpen ∧ ∃ w, c.waits = [w] ∧
        (w = .read ↔ c.session.wantRead) ∧ (w = .write ↔ c.session.wantWrite)) ∧
      (∀ p before after, relayOf p outs = before ++ .closed :: after → after = []) ∧
      ∀ i, echoMachine.allowed s i → (echoMachine.step s i).isSome := by
  have hk := echoMachine_kept h
  refine ⟨?_, ?_, ?_, ?_, ?_⟩
  · obtain ⟨p, haccepts, hcreated⟩ := hk.accepting
    refine ⟨p, haccepts, ?_⟩
    intro hp
    have := hk.fresh p hp
    omega
  · intro p
    rw [← mem_relayOf]
    constructor
    · intro hsome
      obtain ⟨c, hc⟩ := Option.isSome_iff_exists.mp hsome
      obtain ⟨hp, r, htrace, -, hopen⟩ := hk.represents hc
      refine ⟨hp, ?_⟩
      intro hmem
      rw [htrace.closed_iff.mpr (Or.inr hmem)] at hopen
      cases hopen
    · rintro ⟨hp, hnot⟩
      obtain ⟨r, htrace, -, hclosed⟩ := hk.relays p hp
      rw [Option.isSome_iff_ne_none]
      intro hnone
      rcases htrace.closed_iff.mp (hclosed hnone) with hidle | hmem
      · cases hidle
      · exact hnot hmem
  · intro p c hc
    obtain ⟨-, r, -, hrep, hopen⟩ := hk.represents hc
    exact hrep.one_wait hopen
  · intro p before after hevs
    by_cases hp : .accepted p ∈ outs
    · obtain ⟨r, htrace, -⟩ := hk.relays p hp
      exact htrace.closed_last hevs
    · rw [(hk.waiting p hp).2] at hevs
      exact absurd hevs nil_ne_split
  · intro i hi
    obtain ⟨t, o, hs, -⟩ := hk.step hi
    rw [hs]
    rfl

theorem echo_one_wait_sample : ∃ s, echoMachine.Run .new EchoInput.sample s EchoEvent.sample ∧
    (s.connections 1).isSome ∧ ¬ (s.connections 0).isSome := by
  obtain ⟨s, hrun⟩ := exists_run_echo_sample
  obtain ⟨-, hthere, -⟩ := echo_one_wait hrun
  exact ⟨s, hrun, (hthere 1).mpr (by simp [EchoEvent.sample]),
    fun h => ((hthere 0).mp h).2 (by simp [EchoEvent.sample])⟩

end Exec02
