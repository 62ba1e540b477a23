import Exec02.Lib.Machine
import Mathlib.Data.List.Infix

/-!
# Giving back what was taken

What a half-duplex echo is *for*: it takes a piece when it holds nothing, gives what it holds in
pieces, and does neither once it is closed. The relay below is the specification of that, over one
observation at a time. It does not say how large the pieces are.

## Main definitions

* `RelayEvent`, `Relay`, `RelayStep` — the observations, and the relay they act on
* `RelayEvent.taken`, `RelayEvent.given` — the symbols of a trace

## Main results

* `Trace.taken_eq` — what was taken is what was given and what is held, in order
* `Trace.given_prefix`, `Trace.balanced` — never more is given than was taken, and whenever
  something is taken everything has been given
* `Trace.closed_iff`, `Trace.silent` — a relay is closed when that was seen, and then it is silent
-/

namespace Exec02

variable {α : Type*}

/-- One observation of a relay. -/
inductive RelayEvent (α : Type*)
  | took (piece : List α)
  | gave (piece : List α)
  | closed

/-- A relay: what it holds, and whether it is closed. -/
structure Relay (α : Type*) where
  held : List α
  closed : Bool

/-- A relay that has not begun. -/
def Relay.idle : Relay α := ⟨[], false⟩

/-- The steps of a relay. -/
inductive RelayStep : Relay α → RelayEvent α → Relay α → Prop
  | take (piece : List α) : RelayStep ⟨[], false⟩ (.took piece) ⟨piece, false⟩
  | give (piece rest : List α) : RelayStep ⟨piece ++ rest, false⟩ (.gave piece) ⟨rest, false⟩
  | close (held : List α) : RelayStep ⟨held, false⟩ .closed ⟨held, true⟩

/-! ### The symbols of a trace -/

/-- The symbols taken, in order. -/
def RelayEvent.taken : List (RelayEvent α) → List α :=
  List.flatMap fun
    | .took piece => piece
    | _ => []

/-- The symbols given, in order. -/
def RelayEvent.given : List (RelayEvent α) → List α :=
  List.flatMap fun
    | .gave piece => piece
    | _ => []

theorem RelayEvent.taken_append (evs₁ evs₂ : List (RelayEvent α)) :
    taken (evs₁ ++ evs₂) = taken evs₁ ++ taken evs₂ := List.flatMap_append

theorem RelayEvent.given_append (evs₁ evs₂ : List (RelayEvent α)) :
    given (evs₁ ++ evs₂) = given evs₁ ++ given evs₂ := List.flatMap_append

/-! ### What holds along a trace -/

variable {r r' : Relay α} {evs : List (RelayEvent α)}

/-- **Conservation.** What was held and what was taken is what was given and what is held, in
order. -/
theorem Trace.taken_eq (h : Trace RelayStep r evs r') :
    r.held ++ RelayEvent.taken evs = RelayEvent.given evs ++ r'.held := by
  induction h with
  | nil r => simp [RelayEvent.taken, RelayEvent.given]
  | cons step rest ih =>
    cases step with
    | take piece => exact ih
    | give piece rest =>
      rw [List.append_assoc]
      exact (congrArg (piece ++ ·) ih).trans (List.append_assoc ..).symm
    | close held => exact ih

/-- A relay is closed when it was, or when that was seen. -/
theorem Trace.closed_iff (h : Trace RelayStep r evs r') : r'.closed ↔ r.closed ∨ .closed ∈ evs := by
  induction h with
  | nil r => simp
  | cons step rest ih =>
    cases step with
    | take piece => simpa using ih
    | give piece rest => simpa using ih
    | close held => exact iff_of_true (ih.mpr (Or.inl rfl)) (Or.inr List.mem_cons_self)

/-- **Silence.** A relay that is closed shows nothing any more. -/
theorem Trace.silent (h : Trace RelayStep r evs r') (hclosed : r.closed) : evs = [] := by
  cases h with
  | nil r => rfl
  | cons step rest => cases step <;> cases hclosed

/-- Never more is given than was taken. -/
theorem Trace.given_prefix (h : Trace RelayStep .idle evs r') :
    RelayEvent.given evs <+: RelayEvent.taken evs :=
  ⟨r'.held, h.taken_eq.symm⟩

/-- **Balance.** Whenever something is taken, all that was taken before has been given. -/
theorem Trace.balanced (h : Trace RelayStep .idle evs r') {before after : List (RelayEvent α)}
    {piece : List α} (hevs : evs = before ++ .took piece :: after) :
    RelayEvent.given before = RelayEvent.taken before := by
  subst hevs
  obtain ⟨r, hbefore, hafter⟩ := h.split
  cases hafter with
  | cons step rest => cases step with
    | take piece =>
      have heq := hbefore.taken_eq
      rw [List.append_nil] at heq
      exact heq.symm

/-- After a relay is closed nothing more is seen of it. -/
theorem Trace.closed_last (h : Trace RelayStep r evs r') {before after : List (RelayEvent α)}
    (hevs : evs = before ++ .closed :: after) : after = [] := by
  subst hevs
  obtain ⟨r₁, -, hafter⟩ := h.split
  cases hafter with
  | cons step rest => cases step with
    | close held => exact rest.silent rfl

end Exec02
