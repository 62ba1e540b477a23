import Exec02.Lib.Progress
import Mathlib.Data.List.Basic
import Mathlib.Tactic.Common

/-!
# A message there and back

A sender sends a whole message before it receives anything; a half-duplex relay takes pieces of it
and gives them back; and the two channels between them hold no more than so much. So all that the
sender can do while nothing comes back is limited, and a message that is too long never arrives.

## Main definitions

* `Pipeline`, `Capacity` — where the symbols of the message are, and where how many of them may be
* `Pipeline.machine` — the moves, of any number of symbols at a time

## Main results

* `Pipeline.run_onTheWay` — the message is all there, in order
* `Pipeline.run_countP_le` — no symbol moves more than four times
* `Pipeline.OnTheWay.blocked_iff` — what a jam looks like
* `Pipeline.blocked_done_iff` — exactly which messages always come back whole
-/

namespace Exec02

variable {α : Type*}

/-- The symbols of a message, by where they are. -/
structure Pipeline (α : Type*) where
  unsent : List α
  up : List α
  held : List α
  down : List α
  received : List α
  deriving DecidableEq

/-- How many symbols the relay and the two channels hold. -/
structure Capacity where
  relay : ℕ
  up : ℕ
  down : ℕ
  relay_pos : 0 < relay
  up_pos : 0 < up
  down_pos : 0 < down

/-- A move, of so many symbols. In between the relay may find that it cannot do anything yet. -/
inductive PipelineInput
  | send (n : ℕ)
  | take (n : ℕ)
  | give (n : ℕ)
  | receive (n : ℕ)
  | again

/-- Whether an input moves anything. -/
def PipelineInput.moves : PipelineInput → Bool
  | .again => false
  | _ => true

namespace Pipeline

/-- A message before it is sent. -/
def start (text : List α) : Pipeline α := ⟨text, [], [], [], []⟩

/-- All of it, in order. -/
def text (s : Pipeline α) : List α := s.received ++ s.down ++ s.held ++ s.up ++ s.unsent

/-- A symbol that is received has been moved four times. -/
def toGo (s : Pipeline α) : ℕ :=
  4 * s.unsent.length + 3 * s.up.length + 2 * s.held.length + s.down.length

/-- Everything is received. -/
def Done (s : Pipeline α) : Prop := s.unsent = [] ∧ s.up = [] ∧ s.held = [] ∧ s.down = []

def send (s : Pipeline α) (n : ℕ) : Pipeline α :=
  { s with unsent := s.unsent.drop n, up := s.up ++ s.unsent.take n }

def take (s : Pipeline α) (n : ℕ) : Pipeline α := { s with up := s.up.drop n, held := s.up.take n }

def give (s : Pipeline α) (n : ℕ) : Pipeline α :=
  { s with held := s.held.drop n, down := s.down ++ s.held.take n }

def receive (s : Pipeline α) (n : ℕ) : Pipeline α :=
  { s with down := s.down.drop n, received := s.received ++ s.down.take n }

/-- The moves as a machine. -/
def machine (cap : Capacity) : Machine (Pipeline α) PipelineInput Empty where
  allowed s
    | .send n => 0 < n ∧ n ≤ s.unsent.length ∧ s.up.length + n ≤ cap.up
    | .take n => s.held = [] ∧ 0 < n ∧ n ≤ s.up.length ∧ n ≤ cap.relay
    | .give n => 0 < n ∧ n ≤ s.held.length ∧ s.down.length + n ≤ cap.down
    | .receive n => s.unsent = [] ∧ 0 < n ∧ n ≤ s.down.length
    | .again => True
  step s
    | .send n => some (s.send n, [])
    | .take n => some (s.take n, [])
    | .give n => some (s.give n, [])
    | .receive n => some (s.receive n, [])
    | .again => some (s, [])

instance (cap : Capacity) (s : Pipeline α) :
    (i : PipelineInput) → Decidable ((machine cap).allowed s i)
  | .send _ => inferInstanceAs (Decidable (_ ∧ _))
  | .take _ => decidable_of_iff (s.held.isEmpty ∧ _) (and_congr_left' List.isEmpty_iff)
  | .give _ => inferInstanceAs (Decidable (_ ∧ _))
  | .receive _ => decidable_of_iff (s.unsent.isEmpty ∧ _) (and_congr_left' List.isEmpty_iff)
  | .again => inferInstanceAs (Decidable True)

/-! ### The message, and what is left to do -/

/-- What holds of a message on its way: it is all there, nothing is received before all of it is
sent, and the channels hold no more than they can. -/
structure OnTheWay (cap : Capacity) (msg : List α) (s : Pipeline α) : Prop where
  text_eq : s.text = msg
  sent : s.received ≠ [] → s.unsent = []
  up_le : s.up.length ≤ cap.up
  down_le : s.down.length ≤ cap.down

variable {msg : List α} {cap : Capacity} {s t : Pipeline α}

theorem onTheWay_start (cap : Capacity) (msg : List α) : OnTheWay cap msg (start msg) :=
  ⟨rfl, fun h => absurd rfl h, Nat.zero_le _, Nat.zero_le _⟩

/-- **One move.** The message is still all there, and there is less to do. -/
theorem OnTheWay.step (h : OnTheWay cap msg s) {i : PipelineInput} {o : List Empty}
    (ha : (machine cap).allowed s i) (hs : (machine cap).step s i = some (t, o)) :
    OnTheWay cap msg t ∧ t.toGo + (if i.moves then 1 else 0) ≤ s.toGo := by
  obtain ⟨htext, hsent, hup, hdown⟩ := h
  cases i with
  | send n =>
    obtain ⟨rfl, -⟩ : s.send n = t ∧ [] = o := by simpa [machine] using hs
    obtain ⟨hpos, hle, hroom⟩ := ha
    refine ⟨⟨?_, ?_, ?_, hdown⟩, ?_⟩
    · rw [← htext]
      simp [text, send]
    · intro hreceived
      simp [send, hsent hreceived]
    · simp only [send, List.length_append, List.length_take]
      omega
    · simp only [toGo, send, PipelineInput.moves, List.length_drop, List.length_append,
        List.length_take]
      simp
      omega
  | take n =>
    obtain ⟨rfl, -⟩ : s.take n = t ∧ [] = o := by simpa [machine] using hs
    obtain ⟨hheld, hpos, hle, -⟩ := ha
    refine ⟨⟨?_, hsent, ?_, hdown⟩, ?_⟩
    · rw [← htext]
      simp [text, take, hheld]
    · simp only [take, List.length_drop]
      omega
    · simp only [toGo, take, PipelineInput.moves, List.length_drop, List.length_take]
      simp
      omega
  | give n =>
    obtain ⟨rfl, -⟩ : s.give n = t ∧ [] = o := by simpa [machine] using hs
    obtain ⟨hpos, hle, hroom⟩ := ha
    refine ⟨⟨?_, hsent, hup, ?_⟩, ?_⟩
    · rw [← htext]
      simp [text, give]
    · simp only [give, List.length_append, List.length_take]
      omega
    · simp only [toGo, give, PipelineInput.moves, List.length_drop, List.length_append,
        List.length_take]
      simp
      omega
  | receive n =>
    obtain ⟨rfl, -⟩ : s.receive n = t ∧ [] = o := by simpa [machine] using hs
    obtain ⟨hunsent, hpos, hle⟩ := ha
    refine ⟨⟨?_, fun _ => hunsent, hup, ?_⟩, ?_⟩
    · rw [← htext]
      simp [text, receive]
    · simp only [receive, List.length_drop]
      omega
    · simp only [toGo, receive, PipelineInput.moves, List.length_drop]
      simp
      omega
  | again =>
    obtain ⟨rfl, -⟩ : s = t ∧ [] = o := by simpa [machine] using hs
    exact ⟨⟨htext, hsent, hup, hdown⟩, by simp [PipelineInput.moves]⟩

/-- **Conservation.** The message is all there, in order, whatever has been moved. -/
theorem run_onTheWay {ins : List PipelineInput} {outs : List Empty}
    (h : (machine cap).Run (start msg) ins s outs) : OnTheWay cap msg s :=
  h.invariant (P := fun _ s _ => OnTheWay cap msg s) (onTheWay_start cap msg)
    fun _ hs ha hstep => (hs.step ha hstep).1

/-- **An end.** There are at most four moves for every symbol, and what is to go makes up for those
not made. -/
theorem run_countP_le {ins : List PipelineInput} {outs : List Empty}
    (h : (machine cap).Run (start msg) ins s outs) :
    ins.countP PipelineInput.moves + s.toGo ≤ 4 * msg.length := by
  have hle : ins.countP PipelineInput.moves + s.toGo ≤ (start msg).toGo :=
    h.countP_add_le (onTheWay_start cap msg) fun hs ha hstep => hs.step ha hstep
  simpa [toGo, start] using hle

/-! ### Where nothing moves -/

/-- If any number of symbols can be moved then one can. -/
theorem exists_move_iff {a b c : ℕ} : (∃ n, 0 < n ∧ n ≤ a ∧ b + n ≤ c) ↔ 0 < a ∧ b < c := by
  constructor
  · rintro ⟨n, hpos, hle, hroom⟩
    omega
  · rintro ⟨ha, hroom⟩
    exact ⟨1, Nat.one_pos, ha, hroom⟩

theorem can_send_iff : (∃ n, (machine cap).allowed s (.send n)) ↔
    s.unsent ≠ [] ∧ s.up.length < cap.up := by
  rw [← List.length_pos_iff]
  exact exists_move_iff

theorem can_take_iff : (∃ n, (machine cap).allowed s (.take n)) ↔ s.held = [] ∧ s.up ≠ [] := by
  rw [← List.length_pos_iff]
  constructor
  · rintro ⟨n, hheld, hpos, hle, -⟩
    exact ⟨hheld, by omega⟩
  · rintro ⟨hheld, hup⟩
    exact ⟨1, hheld, Nat.one_pos, hup, cap.relay_pos⟩

theorem can_give_iff : (∃ n, (machine cap).allowed s (.give n)) ↔
    s.held ≠ [] ∧ s.down.length < cap.down := by
  rw [← List.length_pos_iff]
  exact exists_move_iff

theorem can_receive_iff : (∃ n, (machine cap).allowed s (.receive n)) ↔
    s.unsent = [] ∧ s.down ≠ [] := by
  rw [← List.length_pos_iff]
  constructor
  · rintro ⟨n, hunsent, hpos, hle⟩
    exact ⟨hunsent, by omega⟩
  · rintro ⟨hunsent, hdown⟩
    exact ⟨1, hunsent, Nat.one_pos, hdown⟩

/-- Something can be moved if it can be sent, taken, given or received. -/
theorem blocked_iff_not : (machine cap).Blocked PipelineInput.moves s ↔
    ¬ (s.unsent ≠ [] ∧ s.up.length < cap.up) ∧ ¬ (s.held = [] ∧ s.up ≠ []) ∧
      ¬ (s.held ≠ [] ∧ s.down.length < cap.down) ∧ ¬ (s.unsent = [] ∧ s.down ≠ []) := by
  rw [← can_send_iff, ← can_take_iff, ← can_give_iff, ← can_receive_iff]
  constructor
  · intro hno
    exact ⟨fun ⟨n, hn⟩ => hno (.send n) rfl hn, fun ⟨n, hn⟩ => hno (.take n) rfl hn,
      fun ⟨n, hn⟩ => hno (.give n) rfl hn, fun ⟨n, hn⟩ => hno (.receive n) rfl hn⟩
  · rintro ⟨hsend, htake, hgive, hreceive⟩ i hi ha
    cases i with
    | send n => exact hsend ⟨n, ha⟩
    | take n => exact htake ⟨n, ha⟩
    | give n => exact hgive ⟨n, ha⟩
    | receive n => exact hreceive ⟨n, ha⟩
    | again => cases hi

/-- **The jam.** Nothing moves when all is done, or when some of the message is unsent, both
channels are full, and the relay still holds something. -/
theorem OnTheWay.blocked_iff (h : OnTheWay cap msg s) :
    (machine cap).Blocked PipelineInput.moves s ↔
      s.Done ∨ s.unsent ≠ [] ∧ s.up.length = cap.up ∧ s.held ≠ [] ∧ s.down.length = cap.down := by
  have hup := h.up_le
  have hdown := h.down_le
  have hupPos := cap.up_pos
  have hdownPos := cap.down_pos
  rw [blocked_iff_not, Done]
  simp only [ne_eq, ← List.length_eq_zero_iff]
  omega

/-! ### Which messages jam -/

/-- A state in which so many symbols have come through and wait at the sender's end, some more are
held, and some more are before the relay. -/
structure Jamming (cap : Capacity) (msg : List α) (down held up : ℕ) (s : Pipeline α) : Prop where
  reached : ∃ ins outs, (machine cap).Run (start msg) ins s outs
  down_eq : s.down.length = down
  held_eq : s.held.length = held
  up_eq : s.up.length = up
  received_eq : s.received = []

theorem Jamming.unsent {down held up : ℕ} (h : Jamming cap msg down held up s) :
    down + held + up + s.unsent.length = msg.length := by
  obtain ⟨ins, outs, hrun⟩ := h.reached
  have htext := congrArg List.length (run_onTheWay hrun).text_eq
  simpa only [text, h.received_eq, List.nil_append, List.length_append, h.down_eq, h.held_eq,
    h.up_eq] using htext

theorem Jamming.move {down held up : ℕ} (h : Jamming cap msg down held up s) {i : PipelineInput}
    {t : Pipeline α} (ha : (machine cap).allowed s i) (hs : (machine cap).step s i = some (t, [])) :
    ∃ ins outs, (machine cap).Run (start msg) ins t outs := by
  obtain ⟨ins, outs, hrun⟩ := h.reached
  exact ⟨_, _, hrun.snoc ha hs⟩

/-- One more symbol is sent. -/
theorem Jamming.send {down held up : ℕ} (h : Jamming cap msg down held up s) (hup : up < cap.up)
    (hmsg : down + held + up < msg.length) :
    ∃ t : Pipeline α, Jamming cap msg down held (up + 1) t := by
  have hunsent := h.unsent
  have hone : 1 ≤ s.unsent.length := by omega
  refine ⟨s.send 1, h.move (i := .send 1) ⟨Nat.one_pos, hone, ?_⟩ rfl, h.down_eq, h.held_eq, ?_,
    h.received_eq⟩
  · rw [h.up_eq]
    exact hup
  · simp [Pipeline.send, h.up_eq, hone]

/-- The relay takes one. -/
theorem Jamming.take {down up : ℕ} (h : Jamming cap msg down 0 (up + 1) s) :
    ∃ t : Pipeline α, Jamming cap msg down 1 up t := by
  have hup := h.up_eq
  refine ⟨s.take 1, h.move (i := .take 1) ⟨List.length_eq_zero_iff.mp h.held_eq, Nat.one_pos, ?_,
    cap.relay_pos⟩ rfl, h.down_eq, ?_, ?_, h.received_eq⟩
  · omega
  · simp [Pipeline.take]
    omega
  · simp [Pipeline.take, hup]

/-- The relay gives it. -/
theorem Jamming.give {down up : ℕ} (h : Jamming cap msg down 1 up s) (hdown : down < cap.down) :
    ∃ t : Pipeline α, Jamming cap msg (down + 1) 0 up t := by
  have hheld := h.held_eq
  refine ⟨s.give 1, h.move (i := .give 1) ⟨Nat.one_pos, hheld.ge, ?_⟩ rfl, ?_, ?_, h.up_eq,
    h.received_eq⟩
  · rw [h.down_eq]
    exact hdown
  · simp [Pipeline.give, h.down_eq, hheld]
  · simp [Pipeline.give, hheld]

/-- So many symbols come through one by one. -/
theorem exists_jamming_down : ∀ {down : ℕ}, down ≤ cap.down → down < msg.length →
    ∃ s : Pipeline α, Jamming cap msg down 0 0 s := by
  intro down
  induction down with
  | zero =>
    intro _ _
    exact ⟨start msg, ⟨[], [], .nil⟩, rfl, rfl, rfl, rfl⟩
  | succ down ih =>
    intro hdown hmsg
    obtain ⟨s, hs⟩ := ih (by omega) (by omega)
    obtain ⟨t, ht⟩ := hs.send cap.up_pos (by omega)
    obtain ⟨u, hu⟩ := ht.take
    exact hu.give (by omega)

/-- And when the sender's end is full, one is held and the others come up behind it. -/
theorem exists_jamming_up : ∀ {up : ℕ}, up ≤ cap.up → cap.down + 1 + up ≤ msg.length →
    ∃ s : Pipeline α, Jamming cap msg cap.down 1 up s := by
  intro up
  induction up with
  | zero =>
    intro _ hmsg
    obtain ⟨s, hs⟩ : ∃ s : Pipeline α, Jamming cap msg cap.down 0 0 s :=
      exists_jamming_down le_rfl (by omega)
    obtain ⟨t, ht⟩ := hs.send cap.up_pos (by omega)
    exact ht.take
  | succ up ih =>
    intro hup hmsg
    obtain ⟨s, hs⟩ := ih (by omega) (by omega)
    exact hs.send (by omega) (by omega)

/-- **Which messages come back.** Nothing ever jams exactly if the message fits into the two
channels and one place more. -/
theorem blocked_done_iff (cap : Capacity) (msg : List α) :
    (∀ ins s outs, (machine cap).Run (start msg) ins s outs →
      (machine cap).Blocked PipelineInput.moves s → s.Done) ↔
        msg.length ≤ cap.up + cap.down + 1 := by
  constructor
  · intro hall
    by_contra! hlong
    obtain ⟨s, hs⟩ : ∃ s : Pipeline α, Jamming cap msg cap.down 1 cap.up s :=
      exists_jamming_up le_rfl (by omega)
    obtain ⟨ins, outs, hrun⟩ := hs.reached
    have hunsent := hs.unsent
    have hjam : s.unsent ≠ [] := List.length_pos_iff.mp (by omega)
    have hheld : s.held ≠ [] := List.length_pos_iff.mp (by rw [hs.held_eq]; exact Nat.one_pos)
    have hblocked := (run_onTheWay hrun).blocked_iff.mpr
      (Or.inr ⟨hjam, hs.up_eq, hheld, hs.down_eq⟩)
    exact hjam (hall ins s outs hrun hblocked).1
  · intro hshort ins s outs hrun hblocked
    have hway := run_onTheWay hrun
    rcases hway.blocked_iff.mp hblocked with hdone | ⟨hunsent, hup, hheld, hdown⟩
    · exact hdone
    · have htext := congrArg List.length hway.text_eq
      simp only [text, List.length_append] at htext
      have := List.length_pos_iff.mpr hunsent
      have := List.length_pos_iff.mpr hheld
      omega

end Pipeline

end Exec02
