import Exec02.Lib.Machine
import Mathlib.Data.List.Infix

/-!
# One write at a time

What an output queue with asynchronous writes is *for*: messages are enqueued at any time, one at
a time is under way, and the first one that fails is the last one started. The writer below is the
specification of that, over one observation at a time. It says who may be under way and says
nothing about how a program finds out whether to start the next one.

## Main definitions

* `WriteEvent`, `SerialWriter`, `WriteStep` — the observations, and the writer they act on
* `enqueued`, `started`, `written` — the messages of a trace

## Main results

* `Trace.enqueued_eq` — what was enqueued is what was written and what is pending, in order
* `Trace.failed_iff` — a writer has failed exactly when a failure was seen
* `Trace.not_started` — a writer that has failed starts nothing
* `Trace.started_prefix` — what was started is the first of what was enqueued
-/

namespace Exec02

variable {μ : Type*}

/-- One observation of a writer. -/
inductive WriteEvent (μ : Type*)
  | enqueued (msg : μ)
  | started (msg : μ)
  | written (msg : μ)
  | failed (msg : μ)
  deriving DecidableEq

/-- A writer: what has not been written yet, whether its first message is under way, and whether a
write has failed. -/
structure SerialWriter (μ : Type*) where
  pending : List μ
  busy : Bool
  failed : Bool

/-- A writer that has not begun. -/
def SerialWriter.idle : SerialWriter μ := ⟨[], false, false⟩

/-- The steps of a writer. -/
inductive WriteStep : SerialWriter μ → WriteEvent μ → SerialWriter μ → Prop
  | enqueue (w : SerialWriter μ) (msg : μ) :
    WriteStep w (.enqueued msg) { w with pending := w.pending ++ [msg] }
  | start (msg : μ) (rest : List μ) :
    WriteStep ⟨msg :: rest, false, false⟩ (.started msg) ⟨msg :: rest, true, false⟩
  | written (msg : μ) (rest : List μ) (failed : Bool) :
    WriteStep ⟨msg :: rest, true, failed⟩ (.written msg) ⟨rest, false, failed⟩
  | fail (msg : μ) (rest : List μ) (failed : Bool) :
    WriteStep ⟨msg :: rest, true, failed⟩ (.failed msg) ⟨msg :: rest, false, true⟩

/-! ### The messages of a trace -/

/-- The messages enqueued, in order. -/
def enqueued : List (WriteEvent μ) → List μ :=
  List.filterMap fun
    | .enqueued msg => some msg
    | _ => none

/-- The messages whose writing has begun, in order. -/
def started : List (WriteEvent μ) → List μ :=
  List.filterMap fun
    | .started msg => some msg
    | _ => none

/-- The messages written, in order. -/
def written : List (WriteEvent μ) → List μ :=
  List.filterMap fun
    | .written msg => some msg
    | _ => none

theorem enqueued_append (evs₁ evs₂ : List (WriteEvent μ)) :
    enqueued (evs₁ ++ evs₂) = enqueued evs₁ ++ enqueued evs₂ := List.filterMap_append

theorem started_append (evs₁ evs₂ : List (WriteEvent μ)) :
    started (evs₁ ++ evs₂) = started evs₁ ++ started evs₂ := List.filterMap_append

theorem written_append (evs₁ evs₂ : List (WriteEvent μ)) :
    written (evs₁ ++ evs₂) = written evs₁ ++ written evs₂ := List.filterMap_append

/-! ### What holds along a trace -/

variable {w w' : SerialWriter μ} {evs : List (WriteEvent μ)}

/-- **Conservation.** What was pending and what was enqueued is what was written and what is
pending, in order. -/
theorem Trace.enqueued_eq (h : Trace WriteStep w evs w') :
    w.pending ++ enqueued evs = written evs ++ w'.pending := by
  induction h with
  | nil w => simp [enqueued, written]
  | cons step rest ih =>
    cases step with
    | enqueue w msg => simpa [enqueued, written] using ih
    | start msg rest => exact ih
    | written msg rest failed => exact congrArg (msg :: ·) ih
    | fail msg rest failed => exact ih

/-- A writer has failed when it had, or when a failure was seen. -/
theorem Trace.failed_iff (h : Trace WriteStep w evs w') :
    w'.failed ↔ w.failed ∨ ∃ msg, .failed msg ∈ evs := by
  induction h with
  | nil w => simp
  | cons step rest ih =>
    cases step with
    | enqueue w msg => simpa using ih
    | start msg rest => simpa using ih
    | written msg rest failed => simpa using ih
    | fail msg rest failed =>
      refine iff_of_true (ih.mpr (Or.inl rfl)) (Or.inr ⟨msg, List.mem_cons_self⟩)

/-- **Silence.** A writer that has failed starts nothing. -/
theorem Trace.not_started (h : Trace WriteStep w evs w') (hw : w.failed) (msg : μ) :
    .started msg ∉ evs := by
  induction h with
  | nil w => simp
  | cons step rest ih =>
    cases step with
    | enqueue w msg => simpa using ih hw
    | start msg rest => cases hw
    | written msg rest failed => simpa using ih hw
    | fail msg rest failed => simpa using ih rfl

/-- The message that has been started and not written, if there is one. -/
def SerialWriter.begun (w : SerialWriter μ) : List μ :=
  if w.busy || w.failed then w.pending.take 1 else []

/-- There is such a message whenever the writer says so, and one that has failed is not under
way. -/
structure SerialWriter.Proper (w : SerialWriter μ) : Prop where
  pending : w.busy || w.failed → w.pending ≠ []
  failed : ¬ (w.busy ∧ w.failed)

theorem SerialWriter.begun_prefix (w : SerialWriter μ) : w.begun <+: w.pending := by
  rw [begun]
  split_ifs
  · exact List.take_prefix 1 _
  · exact List.nil_prefix

theorem SerialWriter.Proper.begun_enqueue (hw : w.Proper) (msg : μ) :
    SerialWriter.begun { w with pending := w.pending ++ [msg] } = w.begun := by
  simp only [SerialWriter.begun]
  split_ifs with hflag
  · exact List.take_append_of_le_length (List.length_pos_iff.mpr (hw.pending hflag))
  · rfl

/-- What was under way and what was started is what was written and what is under way. -/
theorem Trace.started_eq (h : Trace WriteStep w evs w') (hw : w.Proper) :
    w.begun ++ started evs = written evs ++ w'.begun := by
  induction h with
  | nil w => simp [started, written]
  | cons step rest ih =>
    cases step with
    | enqueue _ msg =>
      have ih := ih ⟨fun _ => by simp, hw.failed⟩
      rw [hw.begun_enqueue] at ih
      exact ih
    | start msg rest => exact ih ⟨fun _ => by simp, by simp⟩
    | written msg rest failed =>
      obtain rfl : failed = false := by simpa using hw.failed
      exact congrArg (msg :: ·) (ih ⟨by simp, by simp⟩)
    | fail msg rest failed => exact ih ⟨fun _ => by simp, by simp⟩

/-- **No skipping.** What was started is the first of what was enqueued, in order. -/
theorem Trace.started_prefix (h : Trace WriteStep .idle evs w') : started evs <+: enqueued evs := by
  have hproper : SerialWriter.Proper (.idle : SerialWriter μ) := ⟨by simp [SerialWriter.idle],
    by simp [SerialWriter.idle]⟩
  have hstarted : started evs = written evs ++ w'.begun := h.started_eq hproper
  have henqueued : enqueued evs = written evs ++ w'.pending := h.enqueued_eq
  rw [hstarted, henqueued, List.prefix_append_right_inj]
  exact w'.begun_prefix

end Exec02
