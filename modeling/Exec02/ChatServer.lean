import Exec02.ChatMessage
import Exec02.ChatOutbox
import Mathlib.Logic.Function.Basic

/-!
# The chat server

`chat_session` and `chat_server` of `MyTCPChatSrv01.cpp`: any number of sessions and their room, on
one `io_context`. A session reads and writes at the same time, in two chains of handlers that know
nothing of each other. Each of them takes the session out of the room when it fails; a read that
fails also ends its chain, but a write that fails leaves the other chain running.
`members_speak_iff` says when that matters.

## Reading the model

A session is named by its place in the order of `participants_`, and a new session has a
name of its own. One step is one handler: a connection accepted, a read completed, a write
completed. A step answers `none` where the runtime ends the process over a header. An accept
that fails changes nothing and is left out.

## Main results

* `onRead_spec`, `onWrite_spec` — what a handler does to the room and to the readers
* `serverMachine_roster` — a session that reads is in the room, unless one of its writes failed
* `members_speak_iff` — exactly which runs have only members speak
-/

namespace Exec02

variable {π : Type} [LinearOrder π]

/-- `class chat_session`. -/
structure ChatSession where
  reader : Reader
  outbox : Outbox ChatMessage

/-- `class chat_server`: its room, and the sessions it has made. -/
structure ChatServer (π : Type) [LinearOrder π] where
  room : ChatRoom π ChatMessage
  sessions : π → Option ChatSession

/-- What an observer sees of a server: a session joining the room and leaving it, a message
delivered to the room on behalf of a session, with the members at that moment, and what becomes of
a session's queue. -/
inductive ServerEvent (π : Type) [LinearOrder π]
  | joined (p : π)
  | left (p : π)
  | spoke (p : π) (members : SortedSet π) (msg : ChatMessage)
  | queue (p : π) (e : WriteEvent ChatMessage)

/-- What can happen to a server: a connection is accepted, over storage that held `readMsg`, and the
read or the `k`-th write outstanding of a session completes. -/
inductive ServerInput (π : Type)
  | accept (p : π) (readMsg : ChatMessage)
  | read (p : π) (op : ReadOp) (bytes : Option (List UInt8))
  | complete (p : π) (k : ℕ) (ok : Bool)

namespace ChatServer

/-- A server before its first connection. -/
def empty : ChatServer π := ⟨.empty, fun _ => none⟩

/-- The members of the room. -/
def members (s : ChatServer π) : SortedSet π := s.room.participants

/-- The reading halves of the sessions. -/
def readers (s : ChatServer π) (p : π) : Option Reader := (s.sessions p).map (·.reader)

/-- Put a session in its place. -/
def setSession (s : ChatServer π) (p : π) (session : ChatSession) : ChatServer π :=
  { s with sessions := Function.update s.sessions p (some session) }

/-- `chat_session::deliver`, for each of the calls that a member function of the room makes. -/
def deliver (s : ChatServer π) :
    List (π × ChatMessage) → Option (ChatServer π × List (ServerEvent π))
  | [] => some (s, [])
  | (p, msg) :: calls => do
    let session ← s.sessions p
    let ((room, outbox), evs) ← (chatSession p).push s.room session.outbox msg
    let (s, outs) ← deliver ({ s with room }.setSession p { session with outbox }) calls
    return (s, evs.map (.queue p) ++ outs)

/-- The handler of `do_accept`, and `start`. -/
def onAccept (s : ChatServer π) (p : π) (readMsg : ChatMessage) :
    Option (ChatServer π × List (ServerEvent π)) := do
  let s := s.setSession p ⟨Reader.doReadHeader ⟨readMsg, none⟩, .empty⟩
  let (room, calls) := s.room.join p
  let (s, outs) ← { s with room }.deliver calls
  return (s, .joined p :: outs)

/-- The handlers of `do_read_header` and `do_read_body`. -/
def onRead (crt : InvalidParameter) (s : ChatServer π) (p : π) (op : ReadOp)
    (bytes : Option (List UInt8)) : Option (ChatServer π × List (ServerEvent π)) := do
  let session ← s.sessions p
  let (reader, action) ← session.reader.onRead crt op bytes
  let s := s.setSession p { session with reader }
  match action with
  | .proceed => return (s, [])
  | .deliver msg =>
    let (room, calls) := s.room.deliver msg
    let (t, outs) ← { s with room }.deliver calls
    return (t, .spoke p s.members msg :: outs)
  | .stop => return ({ s with room := s.room.leave p }, [.left p])

/-- The handler of `do_write`, which leaves the room where the write has failed. -/
def onWrite (s : ChatServer π) (p : π) (k : ℕ) (ok : Bool) :
    Option (ChatServer π × List (ServerEvent π)) := do
  let session ← s.sessions p
  let ((room, outbox), evs) ← (chatSession p).complete s.room session.outbox k ok
  let s := { s with room }.setSession p { session with outbox }
  return (s, evs.map (.queue p) ++ if ok then [] else [.left p])

end ChatServer

/-- The server as a machine. -/
def serverMachine (crt : InvalidParameter) :
    Machine (ChatServer π) (ServerInput π) (ServerEvent π) where
  allowed s
    | .accept p _ => s.sessions p = none
    | .read p op bytes => ∃ session ∈ s.sessions p, session.reader.Awaits op bytes
    | .complete p k _ => ∃ session ∈ s.sessions p, k < session.outbox.writes.length
  step s
    | .accept p readMsg => s.onAccept p readMsg
    | .read p op bytes => s.onRead crt p op bytes
    | .complete p k ok => s.onWrite p k ok

instance (crt : InvalidParameter) (s : ChatServer π) :
    (i : ServerInput π) → Decidable ((serverMachine crt).allowed s i)
  | .accept p _ => decidable_of_iff ((s.sessions p).isNone) Option.isNone_iff_eq_none
  | .read p op bytes =>
    inferInstanceAs (Decidable (∃ session ∈ s.sessions p, session.reader.Awaits op bytes))
  | .complete p k _ =>
    inferInstanceAs (Decidable (∃ session ∈ s.sessions p, k < session.outbox.writes.length))

/-! ### What a handler does to the room and the readers -/

/-- Nobody leaves and nobody speaks. -/
def Quiet (outs : List (ServerEvent π)) : Prop :=
  ∀ e ∈ outs, (∀ p, e ≠ .left p) ∧ ∀ p members msg, e ≠ .spoke p members msg

theorem quiet_nil : Quiet ([] : List (ServerEvent π)) := fun _ h => absurd h List.not_mem_nil

theorem quiet_queue (p : π) (evs : List (WriteEvent ChatMessage)) :
    Quiet (evs.map (ServerEvent.queue p)) := by
  intro e he
  obtain ⟨w, -, rfl⟩ := List.mem_map.mp he
  exact ⟨fun _ => nofun, fun _ _ _ => nofun⟩

theorem Quiet.append {outs outs' : List (ServerEvent π)} (h : Quiet outs) (h' : Quiet outs') :
    Quiet (outs ++ outs') := by
  intro e he
  rcases List.mem_append.mp he with he | he
  · exact h e he
  · exact h' e he

namespace ChatServer

variable {s t : ChatServer π} {p : π} {outs : List (ServerEvent π)}

theorem readers_setSession (s : ChatServer π) (p : π) (session : ChatSession) :
    (s.setSession p session).readers = Function.update s.readers p (some session.reader) := by
  funext q
  by_cases hq : q = p
  · subst hq
    simp [readers, setSession]
  · simp [readers, setSession, hq]

/-- A session that only writes keeps its reader. -/
theorem readers_setSession_self {session session' : ChatSession} (h : s.sessions p = some session)
    (hreader : session'.reader = session.reader) :
    (s.setSession p session').readers = s.readers := by
  rw [readers_setSession, hreader, Function.update_eq_self_iff, readers, h]
  rfl

/-- Delivering to sessions touches neither the room nor the readers. -/
theorem deliver_frame {calls : List (π × ChatMessage)} (h : s.deliver calls = some (t, outs)) :
    t.room = s.room ∧ t.readers = s.readers ∧ Quiet outs := by
  induction calls generalizing s outs with
  | nil =>
    obtain ⟨rfl, rfl⟩ : s = t ∧ [] = outs := by simpa [deliver] using h
    exact ⟨rfl, rfl, quiet_nil⟩
  | cons call calls ih =>
    obtain ⟨p, msg⟩ := call
    cases hsession : s.sessions p with
    | none => simp [deliver, hsession] at h
    | some session =>
      cases hpush : session.outbox.push true msg with
      | none => simp [deliver, hsession, WriteOwner.push, chatSession, hpush] at h
      | some r =>
        obtain ⟨outbox, evs⟩ := r
        cases hrest : (s.setSession p { session with outbox }).deliver calls with
        | none => simp [deliver, hsession, WriteOwner.push, chatSession, hpush, hrest] at h
        | some r =>
          obtain ⟨u, outs'⟩ := r
          obtain ⟨rfl, rfl⟩ : u = t ∧ evs.map (.queue p) ++ outs' = outs := by
            simpa [deliver, hsession, WriteOwner.push, chatSession, hpush, hrest] using h
          obtain ⟨hroom, hreaders, hquiet⟩ := ih hrest
          refine ⟨hroom, ?_, (quiet_queue p evs).append hquiet⟩
          rw [hreaders]
          exact readers_setSession_self hsession rfl

/-- A new session is a member, and reads. -/
theorem onAccept_spec {readMsg : ChatMessage} (h : s.onAccept p readMsg = some (t, outs)) :
    t.members = s.members.insert p ∧ (∃ r, t.readers = Function.update s.readers p (some r)) ∧
      Quiet outs := by
  obtain ⟨⟨u, rest⟩, hrest, hret⟩ := Option.bind_eq_some_iff.mp h
  obtain ⟨rfl, rfl⟩ : u = t ∧ .joined p :: rest = outs := by simpa using hret
  obtain ⟨hroom, hreaders, hquiet⟩ := deliver_frame hrest
  refine ⟨by rw [members, hroom]; rfl, ⟨_, hreaders.trans (readers_setSession s p _)⟩, ?_⟩
  exact List.forall_mem_cons.mpr ⟨⟨fun _ => nofun, fun _ _ _ => nofun⟩, hquiet⟩

/-- What a read comes to: a header lets the session read on, a body is spoken, and anything
else ends the membership and the reading. -/
theorem onRead_spec {crt : InvalidParameter} {op : ReadOp} {bytes : Option (List UInt8)}
    (h : s.onRead crt p op bytes = some (t, outs)) :
    ∃ r, t.readers = Function.update s.readers p (some r) ∧
      if op = .body ∧ bytes.isSome then
        t.members = s.members ∧ ∃ msg rest, outs = .spoke p s.members msg :: rest ∧ Quiet rest
      else
        t.members = s.members ∧ outs = [] ∨
          t.members = s.members.erase p ∧ outs = [.left p] ∧ r.reading = none := by
  obtain ⟨session, hsession, h⟩ := Option.bind_eq_some_iff.mp h
  obtain ⟨⟨reader, action⟩, hread, h⟩ := Option.bind_eq_some_iff.mp h
  have haction := Reader.onRead_action hread
  refine ⟨reader, ?_⟩
  cases action with
  | proceed =>
    obtain ⟨rfl, rfl⟩ : s.setSession p { session with reader } = t ∧ [] = outs := by simpa using h
    rw [if_neg haction]
    exact ⟨readers_setSession s p _, Or.inl ⟨rfl, rfl⟩⟩
  | stop =>
    obtain ⟨rfl, rfl⟩ : { s.setSession p { session with reader } with
        room := s.room.leave p } = t ∧ [.left p] = outs := by
      simpa [setSession] using h
    rw [if_neg haction.1]
    exact ⟨readers_setSession s p _, Or.inr ⟨rfl, rfl, haction.2⟩⟩
  | deliver msg =>
    obtain ⟨⟨u, rest⟩, hrest, hret⟩ := Option.bind_eq_some_iff.mp h
    obtain ⟨rfl, rfl⟩ : u = t ∧ .spoke p s.members msg :: rest = outs := by
      simpa [members, setSession] using hret
    obtain ⟨hroom, hreaders, hquiet⟩ := deliver_frame hrest
    rw [if_pos haction]
    refine ⟨hreaders.trans (readers_setSession s p _), ?_, msg, rest, rfl, hquiet⟩
    rw [members, hroom]
    rfl

/-- What the completion of a write comes to: a failure ends the membership, and nobody's reading. -/
theorem onWrite_spec {k : ℕ} {ok : Bool} (h : s.onWrite p k ok = some (t, outs)) :
    t.readers = s.readers ∧
      if ok then t.members = s.members ∧ Quiet outs
      else t.members = s.members.erase p ∧ ∃ rest, outs = rest ++ [.left p] ∧ Quiet rest := by
  obtain ⟨session, hsession, h⟩ := Option.bind_eq_some_iff.mp h
  obtain ⟨⟨⟨room, outbox⟩, evs⟩, hcomplete, h⟩ := Option.bind_eq_some_iff.mp h
  obtain ⟨rfl, rfl⟩ : { s with room }.setSession p { session with outbox } = t ∧
      (evs.map (.queue p) ++ if ok then [] else [.left p]) = outs := by
    simpa using h
  refine ⟨readers_setSession_self (s := { s with room }) hsession rfl, ?_⟩
  cases ok with
  | true =>
    obtain rfl := (chatSession p).complete_true hcomplete
    exact ⟨rfl, (quiet_queue p evs).append quiet_nil⟩
  | false =>
    obtain ⟨rfl, -⟩ := (chatSession p).complete_false hcomplete
    exact ⟨rfl, _, rfl, quiet_queue p evs⟩

end ChatServer

/-! ### Membership -/

section Failed

variable {π : Type} {p : π} {ins : List (ServerInput π)} {i : ServerInput π}

/-- Who has had a write fail. -/
def Failed (p : π) (ins : List (ServerInput π)) : Prop := ∃ k, .complete p k false ∈ ins

theorem not_failed_nil : ¬ Failed p [] := fun ⟨_, hk⟩ => List.not_mem_nil hk

theorem failed_snoc : Failed p (ins ++ [i]) ↔ Failed p ins ∨ ∃ k, i = .complete p k false := by
  simp only [Failed, List.mem_append, List.mem_singleton, exists_or, eq_comm]

/-- Nothing but a write that fails makes one fail. -/
theorem failed_snoc_of_ne (hi : ∀ k, i ≠ .complete p k false) :
    Failed p (ins ++ [i]) ↔ Failed p ins := by
  rw [failed_snoc, or_iff_left]
  rintro ⟨k, hk⟩
  exact hi k hk

end Failed

/-- What holds after the inputs `ins` have shown `outs`. -/
structure Roster (ins : List (ServerInput π)) (s : ChatServer π)
    (outs : List (ServerEvent π)) : Prop where
  /-- A session that reads is a member, unless one of its writes has failed. -/
  reading : ∀ p, ∀ r ∈ s.readers p, r.reading ≠ none → p ∈ s.members ∨ Failed p ins
  /-- A failed write takes its session out of the room. -/
  failed : ∀ p, Failed p ins → .left p ∈ outs
  /-- Who has left is not there, and its name is taken. -/
  left : ∀ p, .left p ∈ outs → p ∉ s.members ∧ s.readers p ≠ none

theorem Quiet.left_notMem {outs : List (ServerEvent π)} (h : Quiet outs) (p : π) : .left p ∉ outs :=
  fun hmem => (h _ hmem).1 p rfl

/-- After a read the room is as it was and nobody has left, or `p` is taken out of it and stops
reading. -/
theorem ChatServer.onRead_members {s t : ChatServer π} {outs : List (ServerEvent π)} {p : π}
    {crt : InvalidParameter} {op : ReadOp} {bytes : Option (List UInt8)}
    (h : s.onRead crt p op bytes = some (t, outs)) :
    ∃ r, t.readers = Function.update s.readers p (some r) ∧
      (t.members = s.members ∧ (∀ q, .left q ∉ outs) ∨
        t.members = s.members.erase p ∧ outs = [.left p] ∧ r.reading = none) := by
  obtain ⟨r, hreaders, hcase⟩ := ChatServer.onRead_spec h
  refine ⟨r, hreaders, ?_⟩
  split_ifs at hcase with hbody
  · obtain ⟨hmembers, msg, rest, rfl, hquiet⟩ := hcase
    refine Or.inl ⟨hmembers, ?_⟩
    intro q hq
    rcases List.mem_cons.mp hq with h | h
    · cases h
    · exact hquiet.left_notMem q h
  · refine hcase.imp_left ?_
    rintro ⟨hmembers, rfl⟩
    exact ⟨hmembers, fun _ => List.not_mem_nil⟩

theorem ChatServer.readers_of_mem {s : ChatServer π} {p : π} {session : ChatSession}
    (h : session ∈ s.sessions p) : s.readers p = some session.reader := by
  rw [ChatServer.readers, h]
  rfl

namespace Roster

variable {ins : List (ServerInput π)} {s t : ChatServer π} {outs o : List (ServerEvent π)} {p : π}

/-- A session that is waiting for a read is a member, unless one of its writes has failed. -/
theorem awaits {op : ReadOp} {bytes : Option (List UInt8)} (hm : Roster ins s outs)
    (ha : ∃ session ∈ s.sessions p, session.reader.Awaits op bytes) :
    p ∈ s.members ∨ Failed p ins := by
  obtain ⟨session, hsession, hawaits, -⟩ := ha
  refine hm.reading p _ (ChatServer.readers_of_mem hsession) ?_
  rw [hawaits]
  exact Option.some_ne_none op

/-- So it is a member, and has not left, exactly when none of its writes has failed. -/
theorem speaker_iff (hm : Roster ins s outs) (hp : p ∈ s.members ∨ Failed p ins) :
    p ∈ s.members ∧ .left p ∉ outs ↔ ¬ Failed p ins := by
  constructor
  · rintro ⟨-, hstays⟩ hfailed
    exact hstays (hm.failed p hfailed)
  · intro hok
    have hmem := hp.resolve_right hok
    exact ⟨hmem, fun hleft => (hm.left p hleft).1 hmem⟩

theorem accept {readMsg : ChatMessage} (hm : Roster ins s outs) (ha : s.sessions p = none)
    (hs : s.onAccept p readMsg = some (t, o)) :
    Roster (ins ++ [.accept p readMsg]) t (outs ++ o) := by
  obtain ⟨hmembers, ⟨r, hreaders⟩, hquiet⟩ := ChatServer.onAccept_spec hs
  have hnew : s.readers p = none := by
    rw [ChatServer.readers, ha]
    rfl
  refine ⟨?_, ?_, ?_⟩
  · intro q r' hr' hreading
    rw [hmembers, SortedSet.mem_insert, failed_snoc]
    by_cases hqp : q = p
    · exact Or.inl (Or.inl hqp)
    · rw [hreaders, Function.update_of_ne hqp] at hr'
      exact (hm.reading q r' hr' hreading).imp Or.inr Or.inl
  · intro q hq
    obtain hq | ⟨k, hk⟩ := failed_snoc.mp hq
    · exact List.mem_append_left _ (hm.failed q hq)
    · cases hk
  · intro q hq
    have hleft := (List.mem_append.mp hq).resolve_right (hquiet.left_notMem q)
    obtain ⟨hnot, htaken⟩ := hm.left q hleft
    have hqp : q ≠ p := fun h => htaken (h ▸ hnew)
    rw [hmembers, SortedSet.mem_insert, hreaders, Function.update_of_ne hqp]
    exact ⟨not_or.mpr ⟨hqp, hnot⟩, htaken⟩

theorem read {crt : InvalidParameter} {op : ReadOp} {bytes : Option (List UInt8)}
    (hm : Roster ins s outs)
    (ha : ∃ session ∈ s.sessions p, session.reader.Awaits op bytes)
    (hs : s.onRead crt p op bytes = some (t, o)) :
    Roster (ins ++ [.read p op bytes]) t (outs ++ o) := by
  obtain ⟨r, hreaders, hcase⟩ := ChatServer.onRead_members hs
  have hfailed (q : π) : Failed q (ins ++ [.read p op bytes]) ↔ Failed q ins :=
    failed_snoc_of_ne fun _ => nofun
  have hsub : ∀ q, q ∈ t.members → q ∈ s.members := by
    intro q hq
    rcases hcase with ⟨hmembers, -⟩ | ⟨hmembers, -, -⟩
    · rwa [hmembers] at hq
    · rw [hmembers, SortedSet.mem_erase] at hq
      exact hq.2
  refine ⟨?_, ?_, ?_⟩
  · intro q r' hr' hreading
    rw [hfailed]
    rw [hreaders] at hr'
    by_cases hqp : q = p
    · subst hqp
      obtain rfl : r = r' := by simpa using hr'
      rcases hcase with ⟨hmembers, -⟩ | ⟨-, -, hstopped⟩
      · rw [hmembers]
        exact hm.awaits ha
      · exact absurd hstopped hreading
    · rw [Function.update_of_ne hqp] at hr'
      refine (hm.reading q r' hr' hreading).imp_left ?_
      intro hmem
      rcases hcase with ⟨hmembers, -⟩ | ⟨hmembers, -, -⟩
      · rwa [hmembers]
      · rw [hmembers, SortedSet.mem_erase]
        exact ⟨hqp, hmem⟩
  · intro q hq
    exact List.mem_append_left _ (hm.failed q ((hfailed q).mp hq))
  · intro q hq
    have htaken : q = p ∨ s.readers q ≠ none → t.readers q ≠ none := by
      rintro h
      rw [hreaders]
      by_cases hqp : q = p
      · subst hqp
        simp
      · rw [Function.update_of_ne hqp]
        exact h.resolve_left hqp
    rcases List.mem_append.mp hq with hq | hq
    · obtain ⟨hnot, hq⟩ := hm.left q hq
      exact ⟨fun h => hnot (hsub q h), htaken (Or.inr hq)⟩
    · rcases hcase with ⟨-, hnone⟩ | ⟨hmembers, rfl, -⟩
      · exact absurd hq (hnone q)
      · obtain rfl : q = p := by simpa using hq
        rw [hmembers, SortedSet.mem_erase]
        exact ⟨fun h => h.1 rfl, htaken (Or.inl rfl)⟩

theorem complete {k : ℕ} {ok : Bool} (hm : Roster ins s outs) (ha : s.readers p ≠ none)
    (hs : s.onWrite p k ok = some (t, o)) :
    Roster (ins ++ [.complete p k ok]) t (outs ++ o) := by
  obtain ⟨hreaders, hcase⟩ := ChatServer.onWrite_spec hs
  cases ok with
  | true =>
    obtain ⟨hmembers, hquiet⟩ := hcase
    have hfailed (q : π) : Failed q (ins ++ [.complete p k true]) ↔ Failed q ins :=
      failed_snoc_of_ne fun _ => nofun
    refine ⟨?_, ?_, ?_⟩
    · intro q
      rw [hreaders, hmembers, hfailed]
      exact hm.reading q
    · intro q hq
      exact List.mem_append_left _ (hm.failed q ((hfailed q).mp hq))
    · intro q hq
      rw [hreaders, hmembers]
      exact hm.left q ((List.mem_append.mp hq).resolve_right (hquiet.left_notMem q))
  | false =>
    obtain ⟨hmembers, rest, rfl, hquiet⟩ := hcase
    have hleft : .left p ∈ outs ++ (rest ++ [.left p]) := by simp
    refine ⟨?_, ?_, ?_⟩
    · intro q r hr hreading
      rw [hmembers, SortedSet.mem_erase, failed_snoc]
      by_cases hqp : q = p
      · exact Or.inr (Or.inr ⟨k, by rw [hqp]⟩)
      · rw [hreaders] at hr
        exact (hm.reading q r hr hreading).imp (And.intro hqp) Or.inl
    · intro q hq
      obtain hq | ⟨l, hl⟩ := failed_snoc.mp hq
      · exact List.mem_append_left _ (hm.failed q hq)
      · cases hl
        exact hleft
    · intro q hq
      rw [hmembers, hreaders, SortedSet.mem_erase]
      by_cases hqp : q = p
      · subst hqp
        exact ⟨fun h => h.1 rfl, ha⟩
      · have hq : .left q ∈ outs := by
          simpa [hqp, hquiet.left_notMem q] using hq
        obtain ⟨hnot, htaken⟩ := hm.left q hq
        exact ⟨fun h => hnot h.2, htaken⟩

end Roster

/-- **Roster.** Every run keeps it: whoever reads is a member, unless one of its writes has
failed, and that takes it out of the room for good. -/
theorem serverMachine_roster {crt : InvalidParameter} {s : ChatServer π}
    {ins : List (ServerInput π)} {outs : List (ServerEvent π)}
    (h : (serverMachine crt).Run .empty ins s outs) : Roster ins s outs := by
  refine h.invariant (P := Roster) ?_ ?_
  · exact ⟨fun _ _ => nofun, fun _ hfailed => absurd hfailed not_failed_nil,
      fun _ hleft => absurd hleft List.not_mem_nil⟩
  · intro ins s outs i t o _ hm ha hs
    cases i with
    | accept p readMsg => exact hm.accept ha hs
    | read p op bytes => exact hm.read ha hs
    | complete p k ok =>
      obtain ⟨session, hsession, -⟩ := ha
      refine hm.complete ?_ hs
      rw [ChatServer.readers_of_mem hsession]
      exact Option.some_ne_none _

/-! ### Who speaks -/

/-- Only members speak: whoever speaks is in the room at that moment, and whoever has left it says
no more. -/
def OnlyMembersSpeak (outs : List (ServerEvent π)) : Prop :=
  (∀ p members msg, .spoke p members msg ∈ outs → p ∈ members) ∧
    outs.Pairwise fun e e' => ∀ p members msg, e = .left p → e' ≠ .spoke p members msg

/-- No body arrives from a session after one of its writes has failed. -/
def NoReadAfterFailure (ins : List (ServerInput π)) : Prop :=
  ins.Pairwise fun i j => ∀ p k bytes, i = .complete p k false → j ≠ .read p .body (some bytes)

omit [LinearOrder π] in
theorem noReadAfterFailure_snoc {ins : List (ServerInput π)} {i : ServerInput π} :
    NoReadAfterFailure (ins ++ [i]) ↔
      NoReadAfterFailure ins ∧ ∀ p bytes, i = .read p .body (some bytes) → ¬ Failed p ins := by
  rw [NoReadAfterFailure, List.pairwise_append]
  refine and_congr_right ?_
  intro _
  constructor
  · rintro ⟨-, h⟩ p bytes rfl ⟨k, hk⟩
    exact h _ hk _ (List.mem_singleton_self _) p k bytes rfl rfl
  · intro h
    refine ⟨List.pairwise_singleton _ _, ?_⟩
    intro j hj i' hi' p k bytes hfailed hread
    obtain rfl := List.mem_singleton.mp hi'
    exact h p bytes hread ⟨k, hfailed ▸ hj⟩

/-- Where nobody speaks nothing changes. -/
theorem onlyMembersSpeak_append {outs o : List (ServerEvent π)}
    (ho : ∀ p members msg, .spoke p members msg ∉ o) :
    OnlyMembersSpeak (outs ++ o) ↔ OnlyMembersSpeak outs := by
  have hsilent (e : ServerEvent π) : ∀ e' ∈ o, ∀ p members msg,
      e = .left p → e' ≠ .spoke p members msg := by
    rintro e' he' p members msg - rfl
    exact ho p members msg he'
  rw [OnlyMembersSpeak, OnlyMembersSpeak, List.pairwise_append]
  constructor
  · rintro ⟨hmem, hpair, -⟩
    exact ⟨fun p members msg h => hmem p members msg (List.mem_append_left _ h), hpair⟩
  · rintro ⟨hmem, hpair⟩
    refine ⟨?_, hpair, ?_, fun e _ e' he' => hsilent e e' he'⟩
    · intro p members msg h
      exact hmem p members msg ((List.mem_append.mp h).resolve_right (ho p members msg))
    · exact List.pairwise_of_forall_mem_list fun e _ e' he' => hsilent e e' he'

/-- Who speaks has to be a member, and not to have left. -/
theorem onlyMembersSpeak_spoke {outs : List (ServerEvent π)} {p : π} {members : SortedSet π}
    {msg : ChatMessage} :
    OnlyMembersSpeak (outs ++ [.spoke p members msg]) ↔
      OnlyMembersSpeak outs ∧ p ∈ members ∧ .left p ∉ outs := by
  rw [OnlyMembersSpeak, OnlyMembersSpeak, List.pairwise_append]
  constructor
  · rintro ⟨hmem, hpair, -, hcross⟩
    refine ⟨⟨fun p members msg h => hmem p members msg (List.mem_append_left _ h), hpair⟩,
      hmem p members msg (by simp), ?_⟩
    intro hleft
    exact hcross _ hleft _ (List.mem_singleton_self _) p members msg rfl rfl
  · rintro ⟨⟨hmem, hpair⟩, hp, hleft⟩
    refine ⟨?_, hpair, List.pairwise_singleton _ _, ?_⟩
    · intro q members' msg' h
      rcases List.mem_append.mp h with h | h
      · exact hmem q members' msg' h
      · obtain ⟨rfl, rfl, -⟩ : q = p ∧ members' = members ∧ msg' = msg := by simpa using h
        exact hp
    · rintro e he e' he' q members' msg' rfl rfl
      obtain ⟨rfl, -, -⟩ : q = p ∧ members' = members ∧ msg' = msg := by simpa using he'
      exact hleft he

/-- **Only members speak**, in every run in which no body arrives from a session after one of its
writes has failed, and in no other. -/
theorem members_speak_iff (crt : InvalidParameter) {s : ChatServer π}
    {ins : List (ServerInput π)} {outs : List (ServerEvent π)}
    (h : (serverMachine crt).Run .empty ins s outs) :
    OnlyMembersSpeak outs ↔ NoReadAfterFailure ins := by
  refine h.invariant (P := fun ins _ outs => OnlyMembersSpeak outs ↔ NoReadAfterFailure ins) ?_ ?_
  · exact iff_of_true ⟨fun _ _ _ h => absurd h List.not_mem_nil, .nil⟩ .nil
  intro ins s outs i t o hrun ih ha hs
  have hm := serverMachine_roster hrun
  rw [noReadAfterFailure_snoc, ← ih]
  cases i with
  | accept p readMsg =>
    obtain ⟨-, -, hquiet⟩ := ChatServer.onAccept_spec hs
    rw [onlyMembersSpeak_append fun p members msg hmem => (hquiet _ hmem).2 p members msg rfl]
    exact (and_iff_left fun _ _ => nofun).symm
  | complete p k ok =>
    obtain ⟨-, hcase⟩ := ChatServer.onWrite_spec hs
    have hsilent : ∀ q members msg, .spoke q members msg ∉ o := by
      intro q members msg hmem
      split_ifs at hcase with hok
      · exact (hcase.2 _ hmem).2 q members msg rfl
      · obtain ⟨-, rest, rfl, hquiet⟩ := hcase
        have hmem : .spoke q members msg ∈ rest := by simpa using hmem
        exact (hquiet _ hmem).2 q members msg rfl
    rw [onlyMembersSpeak_append hsilent]
    exact (and_iff_left fun _ _ => nofun).symm
  | read p op bytes =>
    obtain ⟨r, -, hcase⟩ := ChatServer.onRead_spec hs
    split_ifs at hcase with hbody
    · obtain ⟨rfl, hbytes⟩ := hbody
      obtain ⟨bytes, rfl⟩ := Option.isSome_iff_exists.mp hbytes
      obtain ⟨-, msg, rest, rfl, hquiet⟩ := hcase
      rw [List.append_cons,
        onlyMembersSpeak_append fun p members msg hmem => (hquiet _ hmem).2 p members msg rfl,
        onlyMembersSpeak_spoke, hm.speaker_iff (hm.awaits ha)]
      refine and_congr_right fun _ => ⟨?_, fun hall => hall p bytes rfl⟩
      intro hok q bytes' hq
      cases hq
      exact hok
    · have hsilent : ∀ q members msg, .spoke q members msg ∉ o := by
        intro q members msg hmem
        rcases hcase with ⟨-, rfl⟩ | ⟨-, rfl, -⟩
        · cases hmem
        · simp at hmem
      rw [onlyMembersSpeak_append hsilent]
      refine (and_iff_left ?_).symm
      intro q bytes' hq
      cases hq
      exact absurd ⟨rfl, rfl⟩ hbody

/-- A session whose write fails while it waits for a body, up to that point: it says `A`, which is
written back to it, and announces another body. -/
def ServerInput.sample : List (ServerInput ℕ) :=
  [.accept 0 .blank, .read 0 .header (some [49, 0, 0, 0]), .read 0 .body (some [65]),
    .read 0 .header (some [49, 0, 0, 0]), .complete 0 0 false]

theorem members_speak_iff_sample : ∃ s outs,
    (serverMachine .terminates).Run .empty ServerInput.sample s outs ∧ OnlyMembersSpeak outs := by
  have hrun : (serverMachine .terminates).Run .empty ServerInput.sample _ _ :=
    Machine.run_of_exec rfl
  refine ⟨_, _, hrun, (members_speak_iff .terminates hrun).mpr ?_⟩
  simp [NoReadAfterFailure, ServerInput.sample]

/-- The body arrives all the same, and is delivered to a room that its session has left. -/
theorem not_members_speak : ∃ s outs msg,
    (serverMachine .terminates).Run .empty (ServerInput.sample ++ [.read 0 .body (some [66])]) s
      outs ∧ .spoke 0 .empty msg ∈ outs ∧ ¬ OnlyMembersSpeak outs := by
  have hrun : (serverMachine .terminates).Run .empty ServerInput.sample _ _ :=
    Machine.run_of_exec rfl
  have hlast := hrun.snoc (i := .read 0 .body (some [66])) (of_decide_eq_true rfl) rfl
  refine ⟨_, _, _, hlast, List.mem_append_right _ (List.mem_singleton_self _), ?_⟩
  intro h
  exact SortedSet.notMem_empty 0
    (h.1 0 .empty _ (List.mem_append_right _ (List.mem_singleton_self _)))

end Exec02
