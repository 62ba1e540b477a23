import Exec02.Lib.CString
import Exec02.Lib.Machine
import Mathlib.Data.List.Forall2

/-!
# The UDP service

`MyService.c`: the loop of `startUDPService` receives into a buffer of `MAXLINE` bytes, at most
`MAXLINE` at a time, stores a NUL behind what has come and calls `recv` with the buffer. What
`recvfrom` answers is not looked at: it is the index of the NUL, even where it is -1.

## Reading the model

A round is what `recvfrom` answers and what the callback leaves behind, in `run` and in the buffer.
The callback is observed, with the buffer it is called with. The socket is there.

## Main results

* `hasRoom_of_receive`, `receive_of_hasRoom` — which answers go through, and what the callback gets
* `served_of_run`, `handed_over_iff` — the sequences of answers that are served
-/

namespace Exec02

/-- `MAXLINE`. -/
def maxLine : ℕ := 1024

/-- What `recvfrom` answers: -1, or as many bytes as have come. -/
inductive RecvResult
  | error
  | datagram (bytes : List UInt8) (length_le : bytes.length ≤ maxLine)

namespace RecvResult

/-- The value that is returned. -/
def n : RecvResult → ℤ
  | .error => -1
  | .datagram bytes _ => bytes.length

/-- The bytes that are received. -/
def bytes : RecvResult → List UInt8
  | .error => []
  | .datagram bytes _ => bytes

/-- The datagram, if there is one. -/
def datagram? : RecvResult → Option (List UInt8)
  | .error => none
  | .datagram bytes _ => some bytes

end RecvResult

/-- A round of the loop: what is received, and `svc->run` and the buffer after the callback. -/
structure ServiceRound where
  result : RecvResult
  run : ℤ
  buffer : Buffer maxLine

/-- The service: `svc->run`, and `buffer`. -/
structure UDPService where
  run : ℤ
  buffer : Buffer maxLine

namespace UDPService

/-- `buffer[n] = '\0'`, which has to be inside. -/
def terminate (buffer : Buffer maxLine) (n : ℤ) : Option (Buffer maxLine) :=
  if 0 ≤ n then buffer.write n.toNat [0] else none

/-- A round of the loop in `startUDPService`, with the buffer that the callback gets. -/
def receive (svc : UDPService) (round : ServiceRound) : Option (UDPService × Buffer maxLine) := do
  let buffer ← svc.buffer.write 0 round.result.bytes
  let buffer ← terminate buffer round.result.n
  return (⟨round.run, round.buffer⟩, buffer)

end UDPService

/-- The loop as a machine, observed at the callbacks. -/
def serviceMachine : Machine UDPService ServiceRound (Buffer maxLine) where
  allowed svc _ := svc.run ≠ 0
  step svc round := (svc.receive round).map fun r => (r.1, [r.2])

instance (svc : UDPService) (round : ServiceRound) : Decidable (serviceMachine.allowed svc round) :=
  inferInstanceAs (Decidable (svc.run ≠ 0))

/-- The callback gets the datagram, and a NUL behind it. -/
def HandedOver (datagram : List UInt8) (buffer : Buffer maxLine) : Prop :=
  datagram ++ [0] <+: buffer.bytes

/-- What is received leaves room for the NUL. -/
def ServiceRound.HasRoom (round : ServiceRound) : Prop :=
  0 ≤ round.result.n ∧ round.result.n < maxLine

variable {svc t : UDPService} {round : ServiceRound} {rounds : List ServiceRound}
  {b : Buffer maxLine} {outs : List (Buffer maxLine)}

/-! ### One round -/

/-- The NUL has to be inside the buffer. -/
theorem hasRoom_of_receive (h : svc.receive round = some (t, b)) : round.HasRoom := by
  obtain ⟨read, -, h⟩ := Option.bind_eq_some_iff.mp h
  obtain ⟨buffer, hterminate, -⟩ := Option.bind_eq_some_iff.mp h
  rw [UDPService.terminate] at hterminate
  split at hterminate
  · next hn =>
    rw [Buffer.write] at hterminate
    split at hterminate
    · next hfit =>
      rw [List.length_singleton] at hfit
      exact ⟨hn, by omega⟩
    · cases hterminate
  · cases hterminate

/-- **One round.** Where there is room for the NUL, the callback gets the datagram. -/
theorem receive_of_hasRoom (svc : UDPService) (h : round.HasRoom) : ∃ datagram b,
    round.result.datagram? = some datagram ∧
      svc.receive round = some (⟨round.run, round.buffer⟩, b) ∧ HandedOver datagram b := by
  obtain ⟨result, run, left⟩ := round
  cases result with
  | error => exact absurd h.1 (show ¬ (0 : ℤ) ≤ -1 by decide)
  | datagram bytes hle =>
    have hlt : bytes.length < maxLine := Int.ofNat_lt.mp h.2
    obtain ⟨read, hread, hbytes⟩ := svc.buffer.exists_write_zero hle
    obtain ⟨b, hb⟩ :=
      read.write_isSome (show bytes.length + [(0 : UInt8)].length ≤ maxLine from hlt)
    refine ⟨bytes, b, rfl, ?_, ?_⟩
    · simp [UDPService.receive, RecvResult.bytes, RecvResult.n, UDPService.terminate, hread, hb]
    · rw [HandedOver, Buffer.bytes_of_write hb, hbytes, List.take_left]
      exact List.prefix_append _ _

/-! ### Runs -/

theorem step_iff {o : List (Buffer maxLine)} : serviceMachine.step svc round = some (t, o) ↔
    ∃ b, svc.receive round = some (t, b) ∧ o = [b] := by
  show (svc.receive round).map _ = _ ↔ _
  rw [Option.map_eq_some_iff]
  constructor
  · rintro ⟨⟨t', b⟩, h, ho⟩
    obtain ⟨rfl, rfl⟩ := Prod.mk.inj ho
    exact ⟨b, h, rfl⟩
  · rintro ⟨b, h, rfl⟩
    exact ⟨(t, b), h, rfl⟩

/-- In a run there has been room for every NUL, every datagram has been handed over, and the service
goes on if no callback has stopped it. -/
theorem served_of_run (hrun : svc.run ≠ 0) (h : serviceMachine.Run svc rounds t outs) :
    (∀ round ∈ rounds, round.HasRoom) ∧
    List.Forall₂ HandedOver (rounds.filterMap fun round => round.result.datagram?) outs ∧
    ((∀ round ∈ rounds, round.run ≠ 0) → t.run ≠ 0) := by
  refine h.invariant (P := fun rounds t outs => (∀ round ∈ rounds, round.HasRoom) ∧
    List.Forall₂ HandedOver (rounds.filterMap fun round => round.result.datagram?) outs ∧
    ((∀ round ∈ rounds, round.run ≠ 0) → t.run ≠ 0))
    ⟨fun _ hround => absurd hround List.not_mem_nil, .nil, fun _ => hrun⟩ ?_
  rintro rounds t outs round u o - ⟨hroom, hall, -⟩ - hstep
  obtain ⟨b, hreceive, rfl⟩ := step_iff.mp hstep
  have hlast := hasRoom_of_receive hreceive
  obtain ⟨datagram, b', hdatagram, hreceive', hb⟩ := receive_of_hasRoom t hlast
  obtain ⟨rfl, rfl⟩ := Prod.mk.inj (Option.some.inj (hreceive'.symm.trans hreceive))
  refine ⟨List.forall_mem_append.mpr ⟨hroom, List.forall_mem_singleton.mpr hlast⟩, ?_, ?_⟩
  · have hone : [round].filterMap (fun round => round.result.datagram?) = [datagram] := by
      simp [hdatagram]
    rw [List.filterMap_append, hone]
    exact List.rel_append hall (.cons hb .nil)
  · exact fun hgoes => hgoes round (List.mem_append_right _ (List.mem_singleton_self round))

/-- **The datagrams are handed over.** In a loop that is not stopped before its last round, the
callback gets every datagram once, with a NUL behind it, and is called for nothing else, exactly if
every answer leaves room for the NUL. -/
theorem handed_over_iff (svc : UDPService) (hrun : svc.run ≠ 0) (rounds : List ServiceRound)
    (hgoes : ∀ round ∈ rounds.dropLast, round.run ≠ 0) :
    (∃ t outs, serviceMachine.Run svc rounds t outs ∧
      List.Forall₂ HandedOver (rounds.filterMap fun round => round.result.datagram?) outs) ↔
    ∀ round ∈ rounds, round.HasRoom := by
  refine ⟨fun ⟨t, outs, h, _⟩ => (served_of_run hrun h).1, ?_⟩
  intro hroom
  have hruns : ∃ t outs, serviceMachine.Run svc rounds t outs := by
    refine Machine.exists_run ?_
    intro rounds' round t outs hpfx h
    have hround : round ∈ rounds :=
      hpfx.subset (List.mem_append_right _ (List.mem_singleton_self round))
    have hbefore : ∀ round ∈ rounds', round.run ≠ 0 := by
      obtain ⟨more, rfl⟩ := hpfx
      intro round hround
      refine hgoes round ?_
      rw [List.append_assoc, List.dropLast_append_of_ne_nil (by simp)]
      exact List.mem_append_left _ hround
    obtain ⟨datagram, b, -, hreceive, -⟩ := receive_of_hasRoom t (hroom round hround)
    exact ⟨(served_of_run hrun h).2.2 hbefore, _, _, step_iff.mpr ⟨b, hreceive, rfl⟩⟩
  obtain ⟨t, outs, h⟩ := hruns
  exact ⟨t, outs, h, (served_of_run hrun h).2.1⟩

/-- A service whose buffer is zero. -/
def UDPService.sample : UDPService := ⟨1, ⟨List.replicate maxLine 0, List.length_replicate⟩⟩

/-- A datagram without bytes, and one that stops the service. -/
def ServiceRound.sample : List ServiceRound :=
  [⟨.datagram [] (Nat.zero_le _), 1, UDPService.sample.buffer⟩,
    ⟨.datagram [97] (by decide), 0, UDPService.sample.buffer⟩]

theorem handed_over_sample : ∃ t outs,
    serviceMachine.Run .sample ServiceRound.sample t outs ∧
      List.Forall₂ HandedOver [[], [97]] outs := by
  refine (handed_over_iff .sample (by decide) ServiceRound.sample ?_).mpr ?_
  · simp [ServiceRound.sample]
  · simp [ServiceRound.sample, ServiceRound.HasRoom, RecvResult.n, maxLine]

/-- An error stores the NUL in front of the buffer, and a full datagram behind it. -/
theorem not_handed_over :
    (¬ ∃ t outs, serviceMachine.Run .sample [⟨.error, 1, UDPService.sample.buffer⟩] t outs) ∧
    ¬ ∃ t outs, serviceMachine.Run .sample
      [⟨.datagram (List.replicate maxLine 97) List.length_replicate.le, 1,
        UDPService.sample.buffer⟩] t outs := by
  constructor
  · rintro ⟨t, outs, h⟩
    exact absurd ((served_of_run (by decide) h).1 _ (List.mem_singleton_self _)).1 (by decide)
  · rintro ⟨t, outs, h⟩
    have hlt := ((served_of_run (by decide) h).1 _ (List.mem_singleton_self _)).2
    simp [RecvResult.n] at hlt

end Exec02
