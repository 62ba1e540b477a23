import Exec02.Lib.CString
import Exec02.Lib.Lines
import Exec02.Lib.Machine

/-!
# The log that marks its lines

`MLog2.cpp`: a `Log` puts a header in front of what is inserted first into a line. `_next_is_begin`
says that nothing has been inserted into the line yet. Data resets it; and a manipulator sets it,
whichever it is, though `std::endl` is the only one that ends a line.

## Reading the model

The output is what has been inserted into the stream: headers, data, and what `std::endl` and
`std::ends` put there. Data has no newline. The text that a `Log` is given for its headers may have
one: what is behind it is on another line than the header has begun.

## Main results

* `headers_mark_lines_iff` — the runs in which the headers are where they are to be
-/

namespace Exec02

/-- The fields of a `struct tm` that are printed. -/
structure LogTime where
  tmHour : ℤ
  tmMin : ℤ
  tmSec : ℤ

/-- What is inserted into the stream. -/
inductive LogPiece
  | header (text : List UInt8)
  | data (text : List UInt8)
  | newline
  | nul

namespace LogPiece

/-- The characters of a piece. -/
def text : LogPiece → List UInt8
  | .header text | .data text => text
  | .newline => [10]
  | .nul => [0]

/-- The piece is a header. -/
def isHeader : LogPiece → Bool
  | .header _ => true
  | .data _ | .newline | .nul => false

/-- The piece is data. -/
def isData : LogPiece → Bool
  | .data _ => true
  | .header _ | .newline | .nul => false

/-- There is a newline in the piece. -/
def endsLine (p : LogPiece) : Bool := 10 ∈ p.text

end LogPiece

/-- A manipulator of the type `std::ostream&(std::ostream&)`. -/
inductive Manipulator
  | endl
  | flush
  | ends

/-- What the manipulator inserts. -/
def Manipulator.pieces : Manipulator → List LogPiece
  | .endl => [.newline]
  | .flush => []
  | .ends => [.nul]

/-- `class Log`. -/
structure Log where
  outStream : List LogPiece
  nextIsBegin : Bool
  logHeader : List UInt8

namespace Log

/-- `default_log_header`. -/
def defaultLogHeader : List UInt8 := ascii "Log entry"

/-- `Log(log_header, out_stream)`. -/
def new (logHeader : List UInt8) : Log := ⟨[], true, logHeader⟩

/-- The header of a line, with the time. -/
def headerText (log : Log) (now : LogTime) : List UInt8 :=
  log.logHeader ++ ascii "(" ++ formatInt 0 now.tmHour ++ ascii ":" ++ formatInt 0 now.tmMin ++
    ascii ":" ++ formatInt 0 now.tmSec ++ ascii "): "

/-- `operator<<(endl)`. -/
def insertManipulator (log : Log) (manipulator : Manipulator) : Log :=
  { log with nextIsBegin := true, outStream := log.outStream ++ manipulator.pieces }

/-- `operator<<(data)`. -/
def insert (log : Log) (now : LogTime) (data : List UInt8) : Log :=
  let pieces := if log.nextIsBegin then [.header (log.headerText now), .data data] else [.data data]
  { log with nextIsBegin := false, outStream := log.outStream ++ pieces }

end Log

/-- An insertion. -/
inductive LogCall
  | data (now : LogTime) (text : List UInt8)
  | manipulator (m : Manipulator)

/-- The data has no newline. -/
def LogCall.Allowed : LogCall → Prop
  | .data _ text => 10 ∉ text
  | .manipulator _ => True

instance LogCall.decidableAllowed : (c : LogCall) → Decidable c.Allowed
  | .data _ text => inferInstanceAs (Decidable (10 ∉ text))
  | .manipulator _ => inferInstanceAs (Decidable True)

/-- The log as a machine. -/
def logMachine : Machine Log LogCall Empty where
  allowed _ c := c.Allowed
  step log
    | .data now text => some (log.insert now text, [])
    | .manipulator m => some (log.insertManipulator m, [])

instance (log : Log) (c : LogCall) : Decidable (logMachine.allowed log c) :=
  inferInstanceAs (Decidable c.Allowed)

/-! ### Lines and their headers -/

/-- A line has no header but at its start, where it has one if there is data in it. -/
structure Headed (line : List LogPiece) : Prop where
  onlyFirst : ∀ p ∈ line.tail, p.isHeader = false
  first : (∃ p ∈ line, p.isData) → ∃ p ∈ line.head?, p.isHeader

/-- Data is inserted at the start of a line, if the log takes it to be there, and behind a header
that is on one line. -/
def LogCall.AtStart (log : Log) : LogCall → Prop
  | .data _ _ => log.nextIsBegin →
      10 ∉ log.logHeader ∧ ∀ p ∈ log.outStream.getLast?, p.endsLine
  | .manipulator _ => True

instance LogCall.decidableAtStart (log : Log) : (c : LogCall) → Decidable (c.AtStart log)
  | .data _ _ => inferInstanceAs (Decidable (log.nextIsBegin →
      10 ∉ log.logHeader ∧ ∀ p ∈ log.outStream.getLast?, p.endsLine))
  | .manipulator _ => inferInstanceAs (Decidable True)

theorem Headed.nil : Headed [] := ⟨nofun, fun ⟨_, hp, _⟩ => absurd hp List.not_mem_nil⟩

/-- One more piece, which is not a header, and is not the first data of the line. -/
theorem headed_snoc_iff {line : List LogPiece} {p : LogPiece} (hp : p.isHeader = false)
    (hdata : p.isData → ∃ q ∈ line, q.isData) : Headed (line ++ [p]) ↔ Headed line := by
  by_cases hline : line = []
  · subst hline
    refine iff_of_true ⟨nofun, ?_⟩ .nil
    rintro ⟨q, hq, hqdata⟩
    rw [List.nil_append, List.mem_singleton] at hq
    obtain ⟨_, hmem, _⟩ := hdata (hq ▸ hqdata)
    exact absurd hmem List.not_mem_nil
  · have htail : (line ++ [p]).tail = line.tail ++ [p] := List.tail_append_of_ne_nil hline
    have hhead : (line ++ [p]).head? = line.head? := List.head?_append_of_ne_nil _ hline
    constructor
    · rintro ⟨honly, hfirst⟩
      rw [htail] at honly
      rw [hhead] at hfirst
      exact ⟨fun q hq => honly q (List.mem_append_left _ hq),
        fun ⟨q, hq, hqdata⟩ => hfirst ⟨q, List.mem_append_left _ hq, hqdata⟩⟩
    · rintro ⟨honly, hfirst⟩
      refine ⟨?_, ?_⟩
      · rw [htail]
        exact List.forall_mem_append.mpr ⟨honly, List.forall_mem_singleton.mpr hp⟩
      · rw [hhead]
        rintro ⟨q, hq, hqdata⟩
        rcases List.mem_append.mp hq with hq | hq
        · exact hfirst ⟨q, hq, hqdata⟩
        · obtain rfl := List.mem_singleton.mp hq
          exact hfirst (hdata hqdata)

/-- A header, and the data behind it. -/
theorem headed_insert_iff (line : List LogPiece) (header data : List UInt8) :
    Headed (line ++ [LogPiece.header header] ++ [LogPiece.data data]) ↔ line = [] := by
  constructor
  · rintro ⟨honly, -⟩
    by_contra hline
    have hmem : LogPiece.header header ∈
        (line ++ [LogPiece.header header] ++ [LogPiece.data data]).tail := by
      rw [List.append_assoc, List.tail_append_of_ne_nil hline]
      exact List.mem_append_right _ List.mem_cons_self
    cases honly _ hmem
  · rintro rfl
    exact ⟨List.forall_mem_singleton.mpr rfl, fun _ => ⟨_, rfl, rfl⟩⟩

/-- A header that is cut leaves the data without one. -/
theorem not_headed_data (data : List UInt8) : ¬ Headed [LogPiece.data data] := by
  rintro ⟨-, hfirst⟩
  obtain ⟨p, hp, hheader⟩ := hfirst ⟨_, List.mem_cons_self, rfl⟩
  obtain rfl := Option.some.inj hp
  cases hheader

/-- The time adds no newline to a header. -/
theorem endsLine_header (log : Log) (now : LogTime) :
    (LogPiece.header (log.headerText now)).endsLine ↔ 10 ∈ log.logHeader := by
  have hopen : 10 ∉ ascii "(" := by decide
  have hcolon : 10 ∉ ascii ":" := by decide
  have hclose : 10 ∉ ascii "): " := by decide
  simp [LogPiece.endsLine, LogPiece.text, Log.headerText, newline_notMem_formatInt, hopen, hcolon,
    hclose]

/-! ### Runs -/

/-- All lines of the output are headed. -/
def Log.AllHeaded (log : Log) : Prop :=
  ∀ line ∈ linesOf LogPiece.endsLine log.outStream, Headed line

/-- The output, cut behind its last newline. Where a header is not to come there is data. -/
structure Log.CutAt (log : Log) (pre cur : List LogPiece) : Prop where
  outStream : log.outStream = pre ++ cur
  cut : Cut LogPiece.endsLine pre cur
  data : log.nextIsBegin = false → ∃ p ∈ cur, p.isData

namespace Log.CutAt

variable {log : Log} {pre cur : List LogPiece}

theorem allHeaded_iff (h : log.CutAt pre cur) :
    log.AllHeaded ↔ (∀ line ∈ linesOf LogPiece.endsLine pre, Headed line) ∧ Headed cur := by
  rw [AllHeaded, h.outStream, h.cut.forall_linesOf_iff .nil]

/-- A piece that needs no header leaves the lines as they are. -/
theorem allHeaded_snoc_iff (h : log.CutAt pre cur) {p : LogPiece} (hp : p.isHeader = false)
    (hdata : p.isData → ∃ q ∈ cur, q.isData) :
    (∀ line ∈ linesOf LogPiece.endsLine (pre ++ (cur ++ [p])), Headed line) ↔ log.AllHeaded := by
  rw [h.cut.forall_linesOf_snoc_iff p, headed_snoc_iff hp hdata, h.allHeaded_iff]

theorem insert (h : log.CutAt pre cur) (now : LogTime) {text : List UInt8} (htext : 10 ∉ text) :
    (∃ pre' cur', (log.insert now text).CutAt pre' cur') ∧
      ((log.insert now text).AllHeaded ↔ log.AllHeaded ∧ (LogCall.data now text).AtStart log) := by
  have hdata : (LogPiece.data text).endsLine = false := decide_eq_false htext
  by_cases hbegin : log.nextIsBegin
  · have hout : (log.insert now text).outStream =
        pre ++ (cur ++ [.header (log.headerText now)] ++ [.data text]) := by
      simp [Log.insert, hbegin, h.outStream]
    by_cases hline : 10 ∈ log.logHeader
    · have hcut : Cut LogPiece.endsLine (pre ++ cur ++ [.header (log.headerText now)]) [] :=
        Cut.snoc_end ((endsLine_header log now).mpr hline) _
      have hout' : (log.insert now text).outStream =
          pre ++ cur ++ [.header (log.headerText now)] ++ ([] ++ [.data text]) := by
        simp [hout]
      refine ⟨⟨_, _, hout', hcut.snoc hdata, fun _ => ⟨.data text, by simp, rfl⟩⟩, ?_⟩
      -- the data is on a line of its own
      refine iff_of_false ?_ fun hstart => (hstart.2 hbegin).1 hline
      intro hall
      rw [AllHeaded, hout', hcut.forall_linesOf_snoc_iff] at hall
      exact not_headed_data text hall.2
    · have hheader : (LogPiece.header (log.headerText now)).endsLine = false := by
        rwa [← Bool.not_eq_true, endsLine_header]
      have hcut : Cut LogPiece.endsLine pre (cur ++ [.header (log.headerText now)]) :=
        h.cut.snoc hheader
      refine ⟨⟨pre, _, hout, hcut.snoc hdata, fun _ => ⟨.data text, by simp, rfl⟩⟩, ?_⟩
      have hstart : (LogCall.data now text).AtStart log ↔ cur = [] := by
        rw [← h.cut.forall_getLast?_iff, ← h.outStream]
        exact ⟨fun hstart => (hstart hbegin).2, fun hlast _ => ⟨hline, hlast⟩⟩
      rw [AllHeaded, hout, hcut.forall_linesOf_snoc_iff, headed_insert_iff, hstart,
        h.allHeaded_iff, and_assoc]
      refine and_congr_right fun _ => ⟨fun hcur => ⟨?_, hcur⟩, fun hcur => hcur.2⟩
      rw [hcur]
      exact .nil
  · rw [Bool.not_eq_true] at hbegin
    have hout : (log.insert now text).outStream = pre ++ (cur ++ [.data text]) := by
      simp [Log.insert, hbegin, h.outStream]
    refine ⟨⟨pre, _, hout, h.cut.snoc hdata, fun _ => ⟨.data text, by simp, rfl⟩⟩, ?_⟩
    have hstart : (LogCall.data now text).AtStart log := by
      intro hbegin'
      rw [hbegin] at hbegin'
      cases hbegin'
    rw [and_iff_left hstart, AllHeaded, hout, h.allHeaded_snoc_iff rfl fun _ => h.data hbegin]

theorem insertManipulator (h : log.CutAt pre cur) (m : Manipulator) :
    (∃ pre' cur', (log.insertManipulator m).CutAt pre' cur') ∧
      ((log.insertManipulator m).AllHeaded ↔ log.AllHeaded) := by
  cases m with
  | endl =>
    have hout : (log.insertManipulator .endl).outStream = pre ++ (cur ++ [.newline]) := by
      simp [Log.insertManipulator, Manipulator.pieces, h.outStream]
    refine ⟨⟨pre ++ cur ++ [.newline], [], ?_, Cut.snoc_end rfl _, nofun⟩, ?_⟩
    · rw [hout, List.append_nil, List.append_assoc]
    · rw [AllHeaded, hout]
      exact h.allHeaded_snoc_iff (p := .newline) rfl nofun
  | flush =>
    have hout : (log.insertManipulator .flush).outStream = log.outStream := List.append_nil _
    refine ⟨⟨pre, cur, hout.trans h.outStream, h.cut, nofun⟩, ?_⟩
    rw [AllHeaded, AllHeaded, hout]
  | ends =>
    have hout : (log.insertManipulator .ends).outStream = pre ++ (cur ++ [.nul]) := by
      simp [Log.insertManipulator, Manipulator.pieces, h.outStream]
    refine ⟨⟨pre, _, hout, h.cut.snoc rfl, nofun⟩, ?_⟩
    rw [AllHeaded, hout]
    exact h.allHeaded_snoc_iff (p := .nul) rfl nofun

/-- One insertion. -/
theorem step (h : log.CutAt pre cur) {c : LogCall} {u : Log} {outs : List Empty}
    (ha : logMachine.allowed log c) (hstep : logMachine.step log c = some (u, outs)) :
    (∃ pre' cur', u.CutAt pre' cur') ∧ (u.AllHeaded ↔ log.AllHeaded ∧ c.AtStart log) := by
  cases c with
  | data now text =>
    obtain ⟨rfl, -⟩ := Prod.mk.inj (Option.some.inj hstep)
    exact h.insert now ha
  | manipulator m =>
    obtain ⟨rfl, -⟩ := Prod.mk.inj (Option.some.inj hstep)
    obtain ⟨hcut, hheaded⟩ := h.insertManipulator m
    exact ⟨hcut, hheaded.trans (and_iff_left trivial).symm⟩

end Log.CutAt

/-- **Headers mark the lines.** Every line with data in it starts with its one header, and no header
stands elsewhere, exactly if no data is inserted where the log takes a line to start and none
does, and none behind a header that is cut. -/
theorem headers_mark_lines_iff {header : List UInt8} {calls : List LogCall} {log : Log}
    {outs : List Empty} (h : logMachine.Run (.new header) calls log outs) :
    (∀ line ∈ linesOf LogPiece.endsLine log.outStream, Headed line) ↔
      (logMachine.restrict fun log c => c.AtStart log).Run (.new header) calls log outs := by
  have hrecord := h.exists_record_iff (C := fun log c => c.AtStart log)
    (I := fun _ log _ (cut : List LogPiece × List LogPiece) => log.CutAt cut.1 cut.2)
    (Q := fun _ log _ _ => log.AllHeaded)
    ⟨([], []), ⟨rfl, .nil _, nofun⟩, fun _ hline => absurd hline List.not_mem_nil⟩ ?_
  · obtain ⟨cut, -, hheaded⟩ := hrecord
    exact hheaded
  · intro calls log outs c u o cut _ hcut ha hstep
    obtain ⟨⟨pre', cur', hcut'⟩, hheaded'⟩ := hcut.step ha hstep
    exact ⟨(pre', cur'), hcut', hheaded'⟩

/-- Two lines, one of them begun by a NUL. -/
def LogCall.sample : List LogCall :=
  [.data ⟨1, 2, 3⟩ [97], .manipulator .ends, .manipulator .flush, .manipulator .endl,
    .manipulator .flush, .data ⟨1, 2, 4⟩ [98], .data ⟨1, 2, 4⟩ []]

theorem headers_mark_lines_sample : ∃ log outs,
    logMachine.Run (.new Log.defaultLogHeader) LogCall.sample log outs ∧
      ∀ line ∈ linesOf LogPiece.endsLine log.outStream, Headed line := by
  have hrun : (logMachine.restrict fun log c => c.AtStart log).Run (.new Log.defaultLogHeader)
      LogCall.sample _ _ := Machine.run_of_exec rfl
  exact ⟨_, _, hrun.of_restrict, (headers_mark_lines_iff hrun.of_restrict).mpr hrun⟩

/-- After `std::flush` there is a second header in the line. -/
theorem not_headers_mark_lines : ∃ log outs, logMachine.Run (.new Log.defaultLogHeader)
    [.data ⟨1, 2, 3⟩ [97], .manipulator .flush, .data ⟨1, 2, 4⟩ [98]] log outs ∧
      ¬ ∀ line ∈ linesOf LogPiece.endsLine log.outStream, Headed line := by
  refine ⟨_, _, Machine.run_of_exec rfl, ?_⟩
  intro hall
  have hline := hall _ List.mem_cons_self
  cases hline.onlyFirst _ (List.mem_cons_of_mem _ List.mem_cons_self)

end Exec02
