import Exec02.Lib.CString
import Exec02.MLogger

/-!
# The logger's stream

What `MLogger.cpp` does with the characters inserted into an `MLog`: they are gathered in its
`ostringstream`, and `flush`, `endl` and `clear` are meant to start afresh. All three of them call
`os.clear()`, which is not what its name suggests: it resets the error flags of the stream and
leaves its characters alone. So nothing is ever taken out of the buffer, and every message contains
everything inserted before it. `messages_eq_pieces_iff` says which sequences of calls are not
affected.

A text is a C string, so it has no NUL inside.

## Main results

* `messages_eq_inserted` — what is handed to `log` at any moment
* `messages_eq_pieces_iff` — the sequences of calls whose messages are the pieces of the text
-/

namespace Exec02

/-- A text without a NUL. -/
abbrev LogText := { text : Text // (0 : UInt8) ∉ text }

/-- `std::endl`, on a stream that has nothing to flush to. -/
def newline : UInt8 := 10

/-- The member `os`: the characters in its buffer, and whether an error flag is set. -/
structure MLogStream where
  buffer : Text
  failed : Bool

/-- A call on an `MLog`: `operator<<(text)`, `flush()`, `operator<<(endl)` and `clear()`. -/
inductive StreamCall
  | insert (text : LogText)
  | flush
  | endl
  | clear

/-- Whether a call hands a message to `log`. -/
def StreamCall.Logs : StreamCall → Prop
  | .flush | .endl => True
  | .insert _ | .clear => False

/-- Whether a call is to start a new piece of text. -/
def StreamCall.Cuts : StreamCall → Prop
  | .flush | .endl | .clear => True
  | .insert _ => False

instance : DecidablePred StreamCall.Logs
  | .flush | .endl => inferInstanceAs (Decidable True)
  | .insert _ | .clear => inferInstanceAs (Decidable False)

namespace MLogStream

/-- `std::ostringstream()`. -/
def empty : MLogStream := ⟨[], false⟩

/-- `os << text`: a stream with an error flag set takes nothing. -/
def put (s : MLogStream) (text : Text) : MLogStream :=
  if s.failed then s else { s with buffer := s.buffer ++ text }

/-- `os.clear()`: the error flags are reset. -/
def clearFlags (s : MLogStream) : MLogStream := { s with failed := false }

/-- One call, with the messages it hands to `log`: each is the string the buffer starts with. -/
def call (s : MLogStream) : StreamCall → MLogStream × List Text
  | .insert text => (s.put text, [])
  | .flush => (s.clearFlags, [cstr s.buffer])
  | .endl => ((s.put [newline]).clearFlags, [cstr (s.put [newline]).buffer])
  | .clear => (s.clearFlags, [])

/-- A sequence of calls, with the messages it hands to `log`. -/
def calls (s : MLogStream) : List StreamCall → MLogStream × List Text
  | [] => (s, [])
  | c :: cs =>
    let (s, msgs) := s.call c
    let (s, msgs') := s.calls cs
    (s, msgs ++ msgs')

theorem calls_append (s : MLogStream) (cs ds : List StreamCall) :
    s.calls (cs ++ ds) =
      (((s.calls cs).1.calls ds).1, (s.calls cs).2 ++ ((s.calls cs).1.calls ds).2) := by
  induction cs generalizing s with
  | nil => rfl
  | cons c cs ih => simp only [List.cons_append, calls, ih, List.append_assoc]

end MLogStream

/-- The messages of a new logger. -/
def messages (cs : List StreamCall) : List Text := (MLogStream.empty.calls cs).2

/-! ### The text inserted -/

/-- The characters a call inserts. -/
def StreamCall.text : StreamCall → Text
  | .insert text => text
  | .endl => [newline]
  | .flush | .clear => []

/-- All characters inserted. -/
def inserted (cs : List StreamCall) : Text := cs.flatMap StreamCall.text

/-- The piece of text under way after some calls, `text` being under way before them. -/
def underWay (text : Text) : List StreamCall → Text
  | [] => text
  | .insert t :: cs => underWay (text ++ t) cs
  | .flush :: cs | .endl :: cs | .clear :: cs => underWay [] cs

/-- The pieces that are to be logged: what was inserted since the cut before, and the newline of an
`endl`. -/
def piecesFrom (text : Text) : List StreamCall → List Text
  | [] => []
  | .insert t :: cs => piecesFrom (text ++ t) cs
  | .flush :: cs => text :: piecesFrom [] cs
  | .endl :: cs => (text ++ [newline]) :: piecesFrom [] cs
  | .clear :: cs => piecesFrom [] cs

/-- The pieces of what is inserted into a new logger. -/
def pieces (cs : List StreamCall) : List Text := piecesFrom [] cs

/-- Nothing is logged any more once a cut has left text in the buffer. -/
def NothingAfterCut (cs : List StreamCall) : Prop :=
  ∀ before c after, cs = before ++ c :: after → c.Cuts → inserted (before ++ [c]) ≠ [] →
    ∀ d ∈ after, ¬ d.Logs

section Snoc

variable (cs : List StreamCall) (c : StreamCall)

theorem inserted_snoc : inserted (cs ++ [c]) = inserted cs ++ c.text := by
  rw [inserted, inserted, List.flatMap_append, List.flatMap_singleton]

theorem zero_notMem_inserted : (0 : UInt8) ∉ inserted cs := by
  intro h
  obtain ⟨c, -, hc⟩ := List.mem_flatMap.mp h
  cases c with
  | insert text => exact text.2 hc
  | endl => exact absurd (List.mem_singleton.mp hc) (by decide)
  | flush => cases hc
  | clear => cases hc

theorem cstr_inserted : cstr (inserted cs) = inserted cs := by
  rw [cstr, List.takeWhile_eq_self_iff]
  intro b hb
  rw [decide_eq_true_eq]
  rintro rfl
  exact zero_notMem_inserted cs hb

/-- Nothing ever leaves the buffer. -/
theorem calls_fst : (MLogStream.empty.calls cs).1 = ⟨inserted cs, false⟩ := by
  induction cs using List.reverseRecOn with
  | nil => rfl
  | append_singleton cs c ih =>
    rw [MLogStream.calls_append, ih, inserted_snoc]
    cases c with
    | insert text => rfl
    | endl => rfl
    | flush => exact congrArg (MLogStream.mk · false) (List.append_nil _).symm
    | clear => exact congrArg (MLogStream.mk · false) (List.append_nil _).symm

/-- **What is logged.** Every message is everything inserted before it. -/
theorem messages_eq_inserted :
    messages (cs ++ [c]) = messages cs ++ if c.Logs then [inserted (cs ++ [c])] else [] := by
  rw [messages, MLogStream.calls_append, calls_fst, inserted_snoc]
  refine congrArg (messages cs ++ ·) ?_
  have hcstr := cstr_inserted (cs ++ [c])
  rw [inserted_snoc] at hcstr
  cases c with
  | insert text => rfl
  | clear => rfl
  | flush =>
    rw [if_pos (show StreamCall.flush.Logs from trivial), ← hcstr, StreamCall.text, List.append_nil]
    rfl
  | endl =>
    rw [if_pos (show StreamCall.endl.Logs from trivial), ← hcstr]
    rfl

theorem underWay_snoc (text : Text) : underWay text (cs ++ [c]) = match c with
    | .insert t => underWay text cs ++ t
    | .flush | .endl | .clear => [] := by
  induction cs generalizing text with
  | nil => cases c <;> rfl
  | cons d cs ih => cases d <;> exact ih _

theorem piecesFrom_snoc (text : Text) : piecesFrom text (cs ++ [c]) =
    piecesFrom text cs ++ if c.Logs then [underWay text cs ++ c.text] else [] := by
  induction cs generalizing text with
  | nil =>
    cases c with
    | insert t => rfl
    | clear => rfl
    | endl => rfl
    | flush => exact congrArg (fun t => [t]) (List.append_nil text).symm
  | cons d cs ih =>
    cases d with
    | insert t => exact ih _
    | clear => exact ih _
    | endl => exact congrArg (_ :: ·) (ih [])
    | flush => exact congrArg (_ :: ·) (ih [])

/-- The piece under way is everything inserted exactly where no cut has found any text. -/
theorem underWay_eq_inserted_iff : underWay [] cs = inserted cs ↔
    ∀ before d after, cs = before ++ d :: after → d.Cuts → inserted (before ++ [d]) = [] := by
  induction cs using List.reverseRecOn with
  | nil =>
    refine iff_of_true rfl ?_
    intro before d after h
    exact absurd h nil_ne_split
  | append_singleton cs c ih =>
    rw [underWay_snoc, inserted_snoc, forall_split_snoc]
    -- what a cut finds, earlier cuts have found already
    have hcut (hc : c.Cuts) : [] = inserted cs ++ c.text ↔
        (∀ before d after, cs = before ++ d :: after → d.Cuts → inserted (before ++ [d]) = []) ∧
          (c.Cuts → inserted (cs ++ [c]) = []) := by
      rw [← inserted_snoc]
      constructor
      · intro h
        refine ⟨?_, fun _ => h.symm⟩
        intro before d after hcs _
        rw [hcs, inserted_snoc, List.append_cons, inserted, List.flatMap_append] at h
        exact (List.append_eq_nil_iff.mp (List.append_eq_nil_iff.mp h.symm).1).1
      · rintro ⟨-, h⟩
        exact (h hc).symm
    cases c with
    | insert t =>
      rw [← ih, StreamCall.text]
      exact (List.append_left_inj _).trans (and_iff_left fun hc => hc.elim).symm
    | flush => exact hcut trivial
    | endl => exact hcut trivial
    | clear => exact hcut trivial

/-- One call more: a message is logged only while no cut has left text behind. -/
theorem nothingAfterCut_snoc : NothingAfterCut (cs ++ [c]) ↔
    NothingAfterCut cs ∧ (c.Logs → underWay [] cs = inserted cs) := by
  rw [underWay_eq_inserted_iff, NothingAfterCut, forall_split_snoc]
  constructor
  · rintro ⟨h, -⟩
    refine ⟨?_, ?_⟩
    · intro before d after hcs hd htext e he
      exact h before d after hcs hd htext e (List.mem_append_left _ he)
    · intro hc before d after hcs hd
      by_contra htext
      exact h before d after hcs hd htext c
        (List.mem_append_right _ (List.mem_singleton_self c)) hc
  · rintro ⟨hcs, hc⟩
    refine ⟨?_, fun _ _ _ => nofun⟩
    intro before d after hsplit hd htext e he hlogs
    rcases List.mem_append.mp he with he | he
    · exact hcs before d after hsplit hd htext e he hlogs
    · rw [List.mem_singleton.mp he] at hlogs
      exact htext (hc hlogs before d after hsplit hd)

end Snoc

/-- **Pieces.** The messages are the pieces of the text exactly when nothing is logged after a cut
that has left text in the buffer. -/
theorem messages_eq_pieces_iff (cs : List StreamCall) :
    messages cs = pieces cs ↔ NothingAfterCut cs := by
  induction cs using List.reverseRecOn with
  | nil =>
    refine iff_of_true rfl ?_
    intro before d after h
    exact absurd h nil_ne_split
  | append_singleton cs c ih =>
    rw [messages_eq_inserted, pieces, piecesFrom_snoc, nothingAfterCut_snoc, ← ih, inserted_snoc]
    by_cases hc : c.Logs
    · rw [if_pos hc, if_pos hc]
      constructor
      · intro h
        obtain ⟨hcs, hlast⟩ := List.append_inj' h rfl
        exact ⟨hcs, fun _ => (List.append_cancel_right (List.singleton_inj.mp hlast)).symm⟩
      · rintro ⟨hcs, hlast⟩
        rw [hcs, hlast hc, pieces]
    · rw [if_neg hc, if_neg hc, List.append_nil, List.append_nil]
      exact (and_iff_left fun h => absurd h hc).symm

/-- Two texts, each followed by a flush: the second message is both of them. -/
theorem not_messages_eq_pieces :
    let cs : List StreamCall :=
      [.insert ⟨[97], by decide⟩, .flush, .insert ⟨[98], by decide⟩, .flush]
    messages cs = [[97], [97, 98]] ∧ pieces cs = [[97], [98]] ∧ messages cs ≠ pieces cs :=
  ⟨rfl, rfl, by decide⟩

end Exec02
