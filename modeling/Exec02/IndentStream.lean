import Exec02.Lib.Lines
import Exec02.Lib.Machine
import Mathlib.Algebra.Ring.Int.Defs
import Mathlib.Algebra.Ring.Nat
import Mathlib.Data.List.Basic

/-!
# The indenting stream

`IndentStream.cpp`: an `indentbuf` stands in front of another `streambuf` and puts spaces before the
first character of every line. `m_need` says that the next character is one. It is reset when the
spaces have been put, before it is known what became of them; an `ostreambuf_iterator` that has
failed puts nothing more and tells nobody.

## Reading the model

Put number `n` of the sink is accepted if `accepts n`. A character for which `overflow` returned
`eof` is submitted again, and until it is accepted nothing else happens. `m_indent` is an `int`, and
going past its largest value is undefined.

## Main results

* `overflow_spec` — one character, whatever the sink does
* `indent_per_line` — with a sink that accepts everything, the lines are indented
* `indent_survives_iff` — the runs that come to the same with one that rejects
-/

namespace Exec02

/-- A `streambuf` to write to: what it has accepted, and how many puts there were. -/
structure Sink where
  contents : List UInt8
  puts : ℕ

namespace Sink

variable (accepts : ℕ → Bool)

/-- `sputc(c)`, which fails with `eof`. -/
def sputc (sink : Sink) (c : UInt8) : Bool × Sink :=
  if accepts sink.puts then (true, ⟨sink.contents ++ [c], sink.puts + 1⟩)
  else (false, { sink with puts := sink.puts + 1 })

/-- `fill_n(ostreambuf_iterator<char>(sink), n, c)`. -/
def fillN (c : UInt8) : ℕ → Sink → Sink
  | 0, sink => sink
  | n + 1, sink =>
    match sink.sputc accepts c with
    | (true, sink) => fillN c n sink
    | (false, sink) => sink

end Sink

/-- `class indentbuf`. -/
structure Indentbuf where
  mSbuf : Sink
  mIndent : ℤ
  mNeed : Bool

namespace Indentbuf

/-- `indentbuf(sbuf)`. -/
def new (sbuf : Sink) : Indentbuf := ⟨sbuf, 4, true⟩

/-- `indent()`. -/
def indent (b : Indentbuf) : Option Indentbuf :=
  if b.mIndent + 4 < 2 ^ 31 then some { b with mIndent := b.mIndent + 4 } else none

/-- `deindent()`. -/
def deindent (b : Indentbuf) : Indentbuf :=
  if b.mIndent ≥ 4 then { b with mIndent := b.mIndent - 4 } else b

/-- `overflow(c)`, with `none` for `eof`. -/
def overflow (accepts : ℕ → Bool) (b : Indentbuf) : Option UInt8 → Option UInt8 × Indentbuf
  | none =>
    let (ok, mSbuf) := b.mSbuf.sputc accepts 255
    (if ok then some 255 else none, { b with mSbuf })
  | some c =>
    let b := if b.mNeed then
        { b with mSbuf := b.mSbuf.fillN accepts 32 b.mIndent.toNat, mNeed := false }
      else b
    let (ok, mSbuf) := b.mSbuf.sputc accepts c
    if ok then (some c, { b with mSbuf, mNeed := c = 10 || b.mNeed })
    else (none, { b with mSbuf })

end Indentbuf

/-- A character is put, or the indent is changed. -/
inductive IndentCall
  | put (c : UInt8)
  | indent
  | deindent
  deriving DecidableEq

/-- An `indentbuf`, and the character it has rejected. -/
structure IndentRun where
  buf : Indentbuf
  rejected : Option UInt8

/-- A character that was rejected is submitted again. -/
def IndentCall.Allowed (s : IndentRun) : IndentCall → Prop
  | .put c => ∀ p ∈ s.rejected, c = p
  | .indent | .deindent => s.rejected = none

instance IndentCall.decidableAllowed (s : IndentRun) : (c : IndentCall) → Decidable (c.Allowed s)
  | .put _ => Option.decidableForallMem s.rejected
  | .indent | .deindent => inferInstanceAs (Decidable (s.rejected = none))

/-- The stream as a machine, observed at the calls that have succeeded. -/
def indentMachine (accepts : ℕ → Bool) : Machine IndentRun IndentCall IndentCall where
  allowed s c := c.Allowed s
  step s
    | .put c =>
      match s.buf.overflow accepts (some c) with
      | (some _, buf) => some (⟨buf, none⟩, [.put c])
      | (none, buf) => some (⟨buf, some c⟩, [])
    | .indent => do
      let buf ← s.buf.indent
      return (⟨buf, none⟩, [.indent])
    | .deindent => some (⟨s.buf.deindent, none⟩, [.deindent])

instance (accepts : ℕ → Bool) (s : IndentRun) (c : IndentCall) :
    Decidable ((indentMachine accepts).allowed s c) :=
  inferInstanceAs (Decidable (c.Allowed s))

/-! ### The text and its indents -/

/-- The indent in force behind a call. -/
def IndentCall.next (k : ℕ) : IndentCall → ℕ
  | .put _ => k
  | .indent => k + 4
  | .deindent => k - 4

/-- The same, behind several calls. -/
def indentAfter (k : ℕ) (calls : List IndentCall) : ℕ := calls.foldl IndentCall.next k

/-- The characters that are put, each with the indent in force. -/
def stamped (k : ℕ) : List IndentCall → List (UInt8 × ℕ)
  | [] => []
  | .put c :: calls => (c, k) :: stamped k calls
  | .indent :: calls => stamped (k + 4) calls
  | .deindent :: calls => stamped (k - 4) calls

/-- A line, behind the indent of its first character. -/
def indented : List (UInt8 × ℕ) → List UInt8
  | [] => []
  | (c, k) :: line => List.replicate k 32 ++ c :: line.map Prod.fst

/-- A newline. -/
def isNewline (c : UInt8 × ℕ) : Bool := c.1 = 10

variable {accepts : ℕ → Bool}

/-! ### One character -/

/-- What the sink has got is a start of what is to be put, and all of it if nothing was rejected. -/
theorem Sink.fillN_spec (accepts : ℕ → Bool) (c : UInt8) (n : ℕ) (sink : Sink) : ∃ j ≤ n,
    (sink.fillN accepts c n).contents = sink.contents ++ List.replicate j c ∧
      (j = n ↔ ∀ i < n, accepts (sink.puts + i)) := by
  induction n generalizing sink with
  | zero => exact ⟨0, le_rfl, (List.append_nil _).symm, iff_of_true rfl nofun⟩
  | succ n ih =>
    by_cases hput : accepts sink.puts
    · obtain ⟨j, hj, hcontents, hall⟩ := ih ⟨sink.contents ++ [c], sink.puts + 1⟩
      refine ⟨j + 1, Nat.succ_le_succ hj, ?_, ?_⟩
      · rw [fillN, sputc, if_pos hput, hcontents, List.append_assoc, List.singleton_append,
          List.replicate_succ]
      · rw [Nat.add_right_cancel_iff, hall]
        constructor
        · intro h i hi
          cases i with
          | zero => exact hput
          | succ i =>
            rw [show sink.puts + (i + 1) = sink.puts + 1 + i by omega]
            exact h i (by omega)
        · intro h i hi
          rw [show sink.puts + 1 + i = sink.puts + (i + 1) by omega]
          exact h (i + 1) (by omega)
    · refine ⟨0, Nat.zero_le _, ?_, iff_of_false (by omega) fun h => hput (h 0 (by omega))⟩
      rw [fillN, sputc, if_neg hput, List.replicate_zero, List.append_nil]

/-- The spaces that go before the next character. -/
def Indentbuf.owed (b : Indentbuf) : ℕ := if b.mNeed then b.mIndent.toNat else 0

/-- None of the spaces is rejected that go before the next character. -/
def Indentbuf.FillsAll (accepts : ℕ → Bool) (b : Indentbuf) : Prop :=
  ∀ i < b.owed, accepts (b.mSbuf.puts + i)

/-- **One character.** Some of the spaces are put, all of them if none is rejected; then none is
owed any more, and the character is put or rejected. -/
theorem overflow_spec (accepts : ℕ → Bool) (b : Indentbuf) (c : UInt8) : ∃ j ≤ b.owed,
    (j = b.owed ↔ b.FillsAll accepts) ∧ ∃ puts,
      b.overflow accepts (some c) =
        if accepts puts then
          (some c, ⟨⟨b.mSbuf.contents ++ List.replicate j 32 ++ [c], puts + 1⟩, b.mIndent, c = 10⟩)
        else (none, ⟨⟨b.mSbuf.contents ++ List.replicate j 32, puts + 1⟩, b.mIndent, false⟩) := by
  obtain ⟨⟨contents, puts⟩, mIndent, mNeed⟩ := b
  cases mNeed with
  | false =>
    refine ⟨0, le_rfl, iff_of_true rfl nofun, puts, ?_⟩
    by_cases hput : accepts puts <;>
      simp [Indentbuf.overflow, Sink.sputc, hput]
  | true =>
    obtain ⟨j, hj, hcontents, hall⟩ :=
      Sink.fillN_spec accepts 32 mIndent.toNat ⟨contents, puts⟩
    refine ⟨j, hj, hall, (Sink.fillN accepts 32 mIndent.toNat ⟨contents, puts⟩).puts, ?_⟩
    by_cases hput : accepts (Sink.fillN accepts 32 mIndent.toNat ⟨contents, puts⟩).puts <;>
      simp [Indentbuf.overflow, Sink.sputc, hput, hcontents]

/-- The same, with a sink that accepts everything. -/
theorem overflow_accepting (b : Indentbuf) (c : UInt8) : ∃ puts,
    b.overflow (fun _ => true) (some c) = (some c, ⟨⟨b.mSbuf.contents ++
      List.replicate b.owed 32 ++ [c], puts + 1⟩, b.mIndent, c = 10⟩) := by
  obtain ⟨j, -, hall, puts, hover⟩ := overflow_spec (fun _ => true) b c
  obtain rfl := hall.mpr fun _ _ => rfl
  exact ⟨puts, hover⟩

/-! ### Lines -/

theorem indentAfter_append (k : ℕ) (xs ys : List IndentCall) :
    indentAfter k (xs ++ ys) = indentAfter (indentAfter k xs) ys := List.foldl_append

theorem stamped_append (k : ℕ) (xs ys : List IndentCall) :
    stamped k (xs ++ ys) = stamped k xs ++ stamped (indentAfter k xs) ys := by
  induction xs generalizing k with
  | nil => rfl
  | cons call xs ih =>
    cases call with
    | put c => exact congrArg ((c, k) :: ·) (ih k)
    | indent => exact ih (k + 4)
    | deindent => exact ih (k - 4)

theorem indented_snoc {line : List (UInt8 × ℕ)} (h : line ≠ []) (x : UInt8 × ℕ) :
    indented (line ++ [x]) = indented line ++ [x.1] := by
  cases line with
  | nil => exact absurd rfl h
  | cons y line => simp [indented]

/-- What the sink has been sent is lines with their indents. The next character is the first one of
a line exactly if spaces are needed. -/
structure Indentbuf.Lined (contents₀ : List UInt8) (calls : List IndentCall) (b : Indentbuf)
    (pre cur : List (UInt8 × ℕ)) : Prop where
  stamped : stamped 4 calls = pre ++ cur
  cut : Cut isNewline pre cur
  need : b.mNeed = decide (cur = [])
  indent : b.mIndent = indentAfter 4 calls
  contents : b.mSbuf.contents = contents₀ ++ (linesOf isNewline (pre ++ cur)).flatMap indented

namespace Indentbuf.Lined

variable {contents₀ : List UInt8} {calls : List IndentCall} {b : Indentbuf}
  {pre cur : List (UInt8 × ℕ)}

theorem owed_eq (h : b.Lined contents₀ calls pre cur) :
    b.owed = if cur = [] then indentAfter 4 calls else 0 := by
  simp [owed, h.need, h.indent]

/-- The line with one more character. -/
theorem lines_snoc (h : b.Lined contents₀ calls pre cur) (c : UInt8) :
    (linesOf isNewline (pre ++ (cur ++ [(c, indentAfter 4 calls)]))).flatMap indented =
      (linesOf isNewline (pre ++ cur)).flatMap indented ++ List.replicate b.owed 32 ++ [c] := by
  rw [h.cut.linesOf_append, List.flatMap_append, List.flatMap_singleton, h.owed_eq]
  by_cases hcur : cur = []
  · subst hcur
    simp [indented]
  · rw [h.cut.linesOf_eq hcur, indented_snoc hcur, if_neg hcur]
    simp

/-- One more character. -/
theorem put (h : b.Lined contents₀ calls pre cur) (c : UInt8) (puts : ℕ) :
    ∃ pre' cur', Lined contents₀ (calls ++ [.put c]) ⟨⟨b.mSbuf.contents ++
      List.replicate b.owed 32 ++ [c], puts⟩, b.mIndent, c = 10⟩ pre' cur' := by
  have hstamped : Exec02.stamped 4 (calls ++ [.put c]) =
      pre ++ (cur ++ [(c, indentAfter 4 calls)]) := by
    rw [stamped_append, h.stamped, List.append_assoc]
    rfl
  have hindent : b.mIndent = indentAfter 4 (calls ++ [.put c]) := by
    rw [h.indent, indentAfter_append]
    rfl
  have hcontents := h.contents
  by_cases hc : c = 10
  · refine ⟨pre ++ (cur ++ [(c, indentAfter 4 calls)]), [], ?_, ?_, by simp [hc], hindent, ?_⟩
    · rw [hstamped, List.append_nil]
    · rw [← List.append_assoc]
      exact Cut.snoc_end (by simp [isNewline, hc]) _
    · simp only [List.append_nil, h.lines_snoc, hcontents, List.append_assoc]
  · refine ⟨pre, cur ++ [(c, indentAfter 4 calls)], hstamped, ?_, by simp [hc], hindent, ?_⟩
    · exact h.cut.snoc (by simp [isNewline, hc])
    · simp only [h.lines_snoc, hcontents, List.append_assoc]

/-- A change of the indent. -/
theorem setIndent (h : b.Lined contents₀ calls pre cur) {call : IndentCall}
    (hcall : Exec02.stamped (indentAfter 4 calls) [call] = []) {k : ℤ}
    (hk : k = indentAfter 4 (calls ++ [call])) :
    Lined contents₀ (calls ++ [call]) { b with mIndent := k } pre cur where
  stamped := by rw [stamped_append, hcall, List.append_nil, h.stamped]
  cut := h.cut
  need := h.need
  indent := hk
  contents := h.contents

end Indentbuf.Lined

/-! ### Runs -/

/-- Where no character has been rejected, everything may be called. -/
theorem allowed_of_rejected_none {s : IndentRun} (h : s.rejected = none) (call : IndentCall) :
    (indentMachine accepts).allowed s call := by
  cases call with
  | put c =>
    intro p hp
    rw [h] at hp
    cases hp
  | indent => exact h
  | deindent => exact h

theorem step_put (accepts : ℕ → Bool) (s : IndentRun) (c : UInt8) : ∃ j ≤ s.buf.owed,
    (j = s.buf.owed ↔ s.buf.FillsAll accepts) ∧ ∃ puts,
      (indentMachine accepts).step s (.put c) =
        if accepts puts then
          some (⟨⟨⟨s.buf.mSbuf.contents ++ List.replicate j 32 ++ [c], puts + 1⟩, s.buf.mIndent,
            c = 10⟩, none⟩, [.put c])
        else some (⟨⟨⟨s.buf.mSbuf.contents ++ List.replicate j 32, puts + 1⟩, s.buf.mIndent,
            false⟩, some c⟩, []) := by
  obtain ⟨j, hj, hall, puts, hover⟩ := overflow_spec accepts s.buf c
  refine ⟨j, hj, hall, puts, ?_⟩
  by_cases hput : accepts puts <;> simp [indentMachine, hover, hput]

theorem step_put_accepting (s : IndentRun) (c : UInt8) : ∃ puts,
    (indentMachine fun _ => true).step s (.put c) = some (⟨⟨⟨s.buf.mSbuf.contents ++
      List.replicate s.buf.owed 32 ++ [c], puts + 1⟩, s.buf.mIndent, c = 10⟩, none⟩, [.put c]) := by
  obtain ⟨puts, hover⟩ := overflow_accepting s.buf c
  exact ⟨puts, by simp [indentMachine, hover]⟩

theorem step_indent_iff {s t : IndentRun} {outs : List IndentCall} :
    (indentMachine accepts).step s .indent = some (t, outs) ↔ s.buf.mIndent + 4 < 2 ^ 31 ∧
      t = ⟨{ s.buf with mIndent := s.buf.mIndent + 4 }, none⟩ ∧ outs = [.indent] := by
  have hstep : (indentMachine accepts).step s .indent =
      s.buf.indent.bind fun buf => some (⟨buf, none⟩, [.indent]) := rfl
  rw [hstep, Indentbuf.indent]
  by_cases h : s.buf.mIndent + 4 < 2 ^ 31
  · rw [if_pos h, and_iff_right h]
    constructor
    · intro ht
      obtain ⟨rfl, rfl⟩ := Prod.mk.inj (Option.some.inj ht)
      exact ⟨rfl, rfl⟩
    · rintro ⟨rfl, rfl⟩
      rfl
  · rw [if_neg h]
    exact iff_of_false nofun fun h' => h h'.1

theorem dvd_indentAfter (calls : List IndentCall) : 4 ∣ indentAfter 4 calls := by
  induction calls using List.reverseRecOn with
  | nil => exact Nat.dvd_refl 4
  | append_singleton calls call ih =>
    rw [indentAfter_append]
    cases call with
    | put c => exact ih
    | indent => exact Nat.dvd_add ih (Nat.dvd_refl 4)
    | deindent => exact Nat.dvd_sub ih (Nat.dvd_refl 4)

/-- The guard of `deindent` keeps the indent from being negative. -/
theorem deindent_eq {b : Indentbuf} {calls : List IndentCall}
    (h : b.mIndent = indentAfter 4 calls) : b.deindent =
      { b with mIndent := (indentAfter 4 (calls ++ [.deindent]) : ℕ) } := by
  have hdvd := dvd_indentAfter calls
  have hafter : indentAfter 4 (calls ++ [.deindent]) = indentAfter 4 calls - 4 := by
    rw [indentAfter_append]
    rfl
  by_cases hk : b.mIndent ≥ 4
  · rw [Indentbuf.deindent, if_pos hk, hafter, Indentbuf.mk.injEq]
    exact ⟨rfl, by omega, rfl⟩
  · obtain ⟨sbuf, mIndent, mNeed⟩ := b
    rw [Indentbuf.deindent, if_neg hk, hafter, Indentbuf.mk.injEq]
    have hk : ¬ mIndent ≥ 4 := hk
    have h : mIndent = indentAfter 4 calls := h
    exact ⟨rfl, by omega, rfl⟩

/-- One call keeps the lines with their indents, and takes place as long as the indent is an
`int`. -/
theorem Indentbuf.Lined.step {contents₀ : List UInt8} {calls : List IndentCall} {s : IndentRun}
    {pre cur : List (UInt8 × ℕ)} (h : s.buf.Lined contents₀ calls pre cur)
    (hfits : indentAfter 4 calls < 2 ^ 31) (call : IndentCall) :
    (indentAfter 4 (calls ++ [call]) < 2 ^ 31 →
      ∃ t o, (indentMachine fun _ => true).step s call = some (t, o)) ∧
    ∀ t o, (indentMachine fun _ => true).step s call = some (t, o) →
      indentAfter 4 (calls ++ [call]) < 2 ^ 31 ∧ t.rejected = none ∧
        ∃ pre' cur', t.buf.Lined contents₀ (calls ++ [call]) pre' cur' := by
  have hafter : indentAfter 4 (calls ++ [call]) = call.next (indentAfter 4 calls) :=
    indentAfter_append ..
  cases call with
  | put c =>
    obtain ⟨puts, hstep⟩ := step_put_accepting s c
    rw [hstep]
    refine ⟨fun _ => ⟨_, _, rfl⟩, ?_⟩
    intro t o ht
    obtain ⟨rfl, -⟩ := Prod.mk.inj (Option.some.inj ht)
    exact ⟨hafter ▸ hfits, rfl, h.put c _⟩
  | indent =>
    have hnext : indentAfter 4 (calls ++ [.indent]) = indentAfter 4 calls + 4 := hafter
    have hindent := h.indent
    refine ⟨fun hlt => ⟨_, _, step_indent_iff.mpr ⟨by omega, rfl, rfl⟩⟩, ?_⟩
    intro t o ht
    obtain ⟨hlt, rfl, -⟩ := step_indent_iff.mp ht
    exact ⟨by omega, rfl, pre, cur, h.setIndent rfl (by omega)⟩
  | deindent =>
    refine ⟨fun _ => ⟨_, _, rfl⟩, ?_⟩
    intro t o ht
    obtain ⟨rfl, -⟩ := Prod.mk.inj (Option.some.inj ht)
    refine ⟨hafter ▸ (Nat.sub_le _ _).trans_lt hfits, rfl, pre, cur, ?_⟩
    show Indentbuf.Lined contents₀ (calls ++ [.deindent]) s.buf.deindent pre cur
    rw [deindent_eq h.indent]
    exact h.setIndent rfl rfl

theorem lined_of_run {contents₀ : List UInt8} {n : ℕ} {calls outs : List IndentCall}
    {t : IndentRun}
    (h : (indentMachine fun _ => true).Run ⟨.new ⟨contents₀, n⟩, none⟩ calls t outs) :
    (∀ calls', calls' <+: calls → indentAfter 4 calls' < 2 ^ 31) ∧ t.rejected = none ∧
      ∃ pre cur, t.buf.Lined contents₀ calls pre cur := by
  refine h.invariant (P := fun calls t _ => (∀ calls', calls' <+: calls →
    indentAfter 4 calls' < 2 ^ 31) ∧ t.rejected = none ∧
      ∃ pre cur, t.buf.Lined contents₀ calls pre cur) ?_ ?_
  · refine ⟨?_, rfl, [], [], rfl, .nil _, rfl, rfl, ?_⟩
    · intro calls' hpfx
      obtain rfl := List.prefix_nil.mp hpfx
      decide
    · exact (List.append_nil _).symm
  · rintro calls t outs call u o - ⟨hfits, -, pre, cur, hlined⟩ - hstep
    obtain ⟨hlt, hrejected, hlined⟩ :=
      (hlined.step (hfits calls List.prefix_rfl) call).2 u o hstep
    refine ⟨?_, hrejected, hlined⟩
    intro calls' hpfx
    rcases List.prefix_concat_iff.mp hpfx with rfl | hpfx
    · exact hlt
    · exact hfits calls' hpfx

/-- **The indent of every line.** In front of a sink that accepts everything, every call takes place
exactly as long as the indent in force is an `int`; and the sink gets the lines of the text, each
behind as many spaces as the indent was when its first character came. -/
theorem indent_per_line (contents₀ : List UInt8) (n : ℕ) (calls : List IndentCall) :
    ((∃ t outs, (indentMachine fun _ => true).Run ⟨.new ⟨contents₀, n⟩, none⟩ calls t outs) ↔
      ∀ calls', calls' <+: calls → indentAfter 4 calls' < 2 ^ 31) ∧
    ∀ t outs, (indentMachine fun _ => true).Run ⟨.new ⟨contents₀, n⟩, none⟩ calls t outs →
      t.buf.mSbuf.contents =
        contents₀ ++ (linesOf isNewline (stamped 4 calls)).flatMap indented ∧
      t.buf.mIndent = indentAfter 4 calls ∧ 0 ≤ t.buf.mIndent := by
  refine ⟨⟨fun ⟨t, outs, h⟩ => (lined_of_run h).1, ?_⟩, ?_⟩
  · intro hfits
    refine Machine.exists_run ?_
    intro calls' call t outs hpfx hrun
    obtain ⟨-, hrejected, pre, cur, hlined⟩ := lined_of_run hrun
    have hbefore := hfits calls' ((List.prefix_append _ _).trans hpfx)
    exact ⟨allowed_of_rejected_none hrejected call,
      (hlined.step hbefore call).1 (hfits _ hpfx)⟩
  · intro t outs h
    obtain ⟨-, -, pre, cur, hlined⟩ := lined_of_run h
    rw [hlined.stamped, hlined.indent]
    exact ⟨hlined.contents, rfl, Int.natCast_nonneg _⟩

/-- A line, and one that is empty, with a smaller indent. -/
def IndentCall.sample : List IndentCall :=
  [.put 97, .indent, .put 10, .deindent, .deindent, .put 10, .deindent, .put 98]

theorem indent_per_line_sample : ∃ t outs, (indentMachine fun _ => true).Run
    ⟨.new ⟨[], 0⟩, none⟩ IndentCall.sample t outs ∧
      t.buf.mSbuf.contents = [32, 32, 32, 32, 97, 10, 10, 98] := by
  have hrun : (indentMachine fun _ => true).Run ⟨.new ⟨[], 0⟩, none⟩ IndentCall.sample _ _ :=
    Machine.run_of_exec rfl
  have hlines : (linesOf isNewline (stamped 4 IndentCall.sample)).flatMap indented =
      [32, 32, 32, 32, 97, 10, 10, 98] := by decide
  refine ⟨_, _, hrun, ?_⟩
  exact ((indent_per_line [] 0 IndentCall.sample).2 _ _ hrun).1.trans hlines

/-- After that many calls the indent is no `int` any more. -/
theorem not_indent_per_line : ¬ ∃ t outs, (indentMachine fun _ => true).Run
    ⟨.new ⟨[], 0⟩, none⟩ (List.replicate (2 ^ 29 - 1) .indent) t outs := by
  rintro ⟨t, outs, h⟩
  have hlt := (lined_of_run h).1 _ List.prefix_rfl
  have hafter : ∀ k n, indentAfter k (List.replicate n .indent) = k + 4 * n := by
    intro k n
    induction n generalizing k with
    | zero => rfl
    | succ n ih =>
      rw [List.replicate_succ]
      exact (ih (k + 4)).trans (by omega)
  rw [hafter] at hlt
  omega

/-! ### A sink that rejects -/

/-- None of the spaces is rejected that go before the character. -/
def IndentCall.FillsAll (accepts : ℕ → Bool) (s : IndentRun) : IndentCall → Prop
  | .put _ => s.buf.FillsAll accepts
  | .indent | .deindent => True

instance IndentCall.decidableFillsAll (accepts : ℕ → Bool) (s : IndentRun) :
    (call : IndentCall) → Decidable (call.FillsAll accepts s)
  | .put _ => inferInstanceAs (Decidable (∀ i < s.buf.owed, accepts (s.buf.mSbuf.puts + i)))
  | .indent | .deindent => inferInstanceAs (Decidable True)

/-- A buffer that is `lost` spaces behind one whose sink accepts everything. The spaces that it has
put already, if the character behind them was rejected, are still owed by the other. -/
structure Indentbuf.Behind (b b' : Indentbuf) (lost : ℕ) : Prop where
  indent : b.mIndent = b'.mIndent
  length : b.mSbuf.contents.length + b.owed + lost = b'.mSbuf.contents.length + b'.owed
  contents : lost = 0 → b.mSbuf.contents ++ List.replicate b.owed 32 =
    b'.mSbuf.contents ++ List.replicate b'.owed 32

/-- Both owe the same. -/
theorem Indentbuf.Behind.of_owed_eq {b b' : Indentbuf} {lost : ℕ} (hindent : b.mIndent = b'.mIndent)
    (howed : b.owed = b'.owed)
    (hlength : b.mSbuf.contents.length + lost = b'.mSbuf.contents.length)
    (hcontents : lost = 0 → b.mSbuf.contents = b'.mSbuf.contents) : b.Behind b' lost where
  indent := hindent
  length := by omega
  contents hlost := by rw [howed, hcontents hlost]

/-- The two states of a run and of the one that it is compared with. -/
structure IndentRun.Follows (s s' : IndentRun) (lost : ℕ) : Prop where
  behind : s.buf.Behind s'.buf lost
  need : s.rejected = none → s.buf.mNeed = s'.buf.mNeed
  rejected : s'.rejected = none

namespace IndentRun.Follows

variable {s s' t : IndentRun} {lost : ℕ} {outs : List IndentCall}

theorem owed_eq (h : s.Follows s' lost) (hs : s.rejected = none) : s.buf.owed = s'.buf.owed := by
  rw [Indentbuf.owed, Indentbuf.owed, h.need hs, h.behind.indent]

/-- Where no character is left that was rejected, the contents are the same if nothing is lost. -/
theorem contents_eq_iff (h : s.Follows s' lost) (hs : s.rejected = none) :
    s.buf.mSbuf.contents = s'.buf.mSbuf.contents ↔ lost = 0 := by
  have howed := h.owed_eq hs
  have hlength := h.behind.length
  constructor
  · intro hcontents
    rw [hcontents] at hlength
    omega
  · intro hlost
    have hcontents := h.behind.contents hlost
    rw [howed] at hcontents
    exact List.append_cancel_right hcontents

/-- A new indent, which is the same on both sides. -/
theorem setIndent (h : s.Follows s' lost) (hs : s.rejected = none) (k : ℤ) :
    Follows ⟨{ s.buf with mIndent := k }, none⟩ ⟨{ s'.buf with mIndent := k }, none⟩ lost := by
  have howed := h.owed_eq hs
  have hlength := h.behind.length
  refine ⟨.of_owed_eq rfl ?_ ?_ (h.contents_eq_iff hs).mpr, fun _ => h.need hs, rfl⟩
  · rw [Indentbuf.owed, Indentbuf.owed, h.need hs]
  · show s.buf.mSbuf.contents.length + lost = s'.buf.mSbuf.contents.length
    omega

/-- **A character.** What is lost more is the spaces that were rejected, whatever becomes of the
character. -/
theorem put (h : s.Follows s' lost) {c : UInt8}
    (hstep : (indentMachine accepts).step s (.put c) = some (t, outs)) : ∃ lost' t' outs',
      (indentMachine fun _ => true).Run s' outs t' outs' ∧ t.Follows t' lost' ∧
        (lost' = 0 ↔ lost = 0 ∧ s.buf.FillsAll accepts) := by
  obtain ⟨j, hj, hall, puts, hstep'⟩ := step_put accepts s c
  have hlength := h.behind.length
  have hcontents : lost + (s.buf.owed - j) = 0 → s.buf.mSbuf.contents ++ List.replicate j 32 =
      s'.buf.mSbuf.contents ++ List.replicate s'.buf.owed 32 := by
    intro hlost
    obtain rfl : j = s.buf.owed := by omega
    exact h.behind.contents (by omega)
  have hlost : lost + (s.buf.owed - j) = 0 ↔ lost = 0 ∧ s.buf.FillsAll accepts := by
    rw [← hall]
    omega
  refine ⟨lost + (s.buf.owed - j), ?_⟩
  rw [hstep'] at hstep
  split_ifs at hstep with hput
  · obtain ⟨rfl, rfl⟩ := Prod.mk.inj (Option.some.inj hstep)
    obtain ⟨puts', haccept⟩ := step_put_accepting s' c
    refine ⟨_, _, .single (allowed_of_rejected_none h.rejected _) haccept,
      ⟨.of_owed_eq h.behind.indent ?_ ?_ ?_, fun _ => rfl, rfl⟩, hlost⟩
    · rw [Indentbuf.owed, Indentbuf.owed, h.behind.indent]
    · simp only [List.length_append, List.length_replicate, List.length_singleton]
      omega
    · intro hlost'
      exact congrArg (· ++ [c]) (hcontents hlost')
  · -- nothing is owed any more, and nothing has happened on the other side
    obtain ⟨rfl, rfl⟩ := Prod.mk.inj (Option.some.inj hstep)
    have howed : ∀ sbuf, Indentbuf.owed ⟨sbuf, s.buf.mIndent, false⟩ = 0 := fun _ => rfl
    refine ⟨_, _, .nil, ⟨⟨h.behind.indent, ?_, ?_⟩, nofun, h.rejected⟩, hlost⟩
    · rw [howed]
      simp only [List.length_append, List.length_replicate]
      omega
    · intro hlost'
      rw [howed, List.replicate_zero, List.append_nil]
      exact hcontents hlost'

/-- One call. -/
theorem step (h : s.Follows s' lost) {call : IndentCall}
    (ha : (indentMachine accepts).allowed s call)
    (hstep : (indentMachine accepts).step s call = some (t, outs)) : ∃ lost' t' outs',
      (indentMachine fun _ => true).Run s' outs t' outs' ∧ t.Follows t' lost' ∧
        (lost' = 0 ↔ lost = 0 ∧ call.FillsAll accepts s) := by
  cases call with
  | put c => exact h.put hstep
  | indent =>
    obtain ⟨hlt, rfl, rfl⟩ := step_indent_iff.mp hstep
    rw [h.behind.indent] at hlt
    refine ⟨lost, _, _, .single (allowed_of_rejected_none h.rejected _)
      (step_indent_iff.mpr ⟨hlt, rfl, rfl⟩), ?_, (and_iff_left trivial).symm⟩
    rw [h.behind.indent]
    exact h.setIndent ha _
  | deindent =>
    obtain ⟨rfl, rfl⟩ := Prod.mk.inj (Option.some.inj hstep)
    refine ⟨lost, _, _, .single (allowed_of_rejected_none h.rejected _) rfl, ?_,
      (and_iff_left trivial).symm⟩
    simp only [Indentbuf.deindent, h.behind.indent]
    split_ifs
    · exact h.setIndent ha _
    · exact ⟨h.behind, fun _ => h.need ha, rfl⟩

end IndentRun.Follows

/-- **Indents that survive.** A run that submits again every character that was rejected, until it
is accepted, leaves what a run leaves in which nothing is rejected, exactly if no space in front of
a line has been rejected. -/
theorem indent_survives_iff {b : Indentbuf} {calls outs : List IndentCall} {t : IndentRun}
    (h : (indentMachine accepts).Run ⟨b, none⟩ calls t outs) (ht : t.rejected = none) :
    ∃ t' outs', (indentMachine fun _ => true).Run ⟨b, none⟩ outs t' outs' ∧
      (t.buf.mSbuf.contents = t'.buf.mSbuf.contents ↔
        ((indentMachine accepts).restrict fun s c => c.FillsAll accepts s).Run
          ⟨b, none⟩ calls t outs) := by
  -- the record is the number of spaces that have been lost, next to the run without rejections
  have hrecord := h.exists_record_iff (C := fun s c => c.FillsAll accepts s)
    (I := fun _ t outs lost => ∃ t' outs',
      (indentMachine fun _ => true).Run ⟨b, none⟩ outs t' outs' ∧ t.Follows t' lost)
    (Q := fun _ _ _ lost => lost = 0)
    ⟨0, ⟨_, _, .nil, ⟨⟨rfl, rfl, fun _ => rfl⟩, fun _ => rfl, rfl⟩⟩, rfl⟩ ?_
  · obtain ⟨lost, ⟨t', outs', hrun, hfollows⟩, hlost⟩ := hrecord
    exact ⟨t', outs', hrun, (hfollows.contents_eq_iff ht).trans hlost⟩
  · rintro calls t outs call u o lost - ⟨t', outs', hrun', hfollows⟩ ha hstep
    obtain ⟨lost', u', o', hrun'', hfollows', hlost'⟩ := hfollows.step ha hstep
    exact ⟨lost', ⟨u', outs' ++ o', hrun'.append hrun'', hfollows'⟩, hlost'⟩

/-- The letter is rejected once, and what is put in front of it is not lost. -/
theorem indent_survives_sample : ∃ t outs t' outs',
    (indentMachine fun n => n ≠ 4).Run ⟨.new ⟨[], 0⟩, none⟩ [.put 97, .put 97] t outs ∧
    (indentMachine fun _ => true).Run ⟨.new ⟨[], 0⟩, none⟩ outs t' outs' ∧
      t.buf.mSbuf.contents = t'.buf.mSbuf.contents := by
  have hrun : ((indentMachine fun n => n ≠ 4).restrict fun s c => c.FillsAll (fun n => n ≠ 4) s).Run
      ⟨.new ⟨[], 0⟩, none⟩ [.put 97, .put 97] _ _ := Machine.run_of_exec rfl
  obtain ⟨t', outs', hrun', hiff⟩ := indent_survives_iff hrun.of_restrict rfl
  exact ⟨_, _, t', outs', hrun.of_restrict, hrun', hiff.mpr hrun⟩

/-- The first space is rejected, and with it the others are lost. -/
theorem not_indent_survives : ∃ t outs t' outs',
    (indentMachine fun n => n ≠ 0).Run ⟨.new ⟨[], 0⟩, none⟩ [.put 97] t outs ∧
      t.rejected = none ∧
    (indentMachine fun _ => true).Run ⟨.new ⟨[], 0⟩, none⟩ outs t' outs' ∧
      t.buf.mSbuf.contents = [97] ∧ t'.buf.mSbuf.contents = [32, 32, 32, 32, 97] :=
  ⟨_, _, _, _, Machine.run_of_exec rfl, rfl, Machine.run_of_exec rfl, rfl, rfl⟩

end Exec02
