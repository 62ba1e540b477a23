import Exec02.Lib.Machine
import Mathlib.Data.ENat.Basic

/-!
# The double-ended sequence, as a specification

What a bounded or unbounded queue, stack or deque is *for*, said once: a finite sequence that
grows at either end and is taken from the front. A component refines it when everything an
observer sees of a run is a `Trace` of `DequeStep`.

The capacity is an extended natural number, so the unbounded case is `⊤` and needs no second
definition: `full` is then never observed.

## Main definitions

* `DequeEvent`, `DequeStep` — the observations, and the sequence they act on
* `accepted`, `taken` — what went in and what came out, in order of time
* `Balanced` — a stretch of a stack's life in which everything pushed is taken again
* `Stacked` — the contents of a stack as its unanswered pushes

## Main results

* `Trace.accepted_perm` — nothing is lost, duplicated or invented
* `Trace.fifo` — without front insertions, first in is first out
* `Trace.lifo` — without back insertions, a take answers the latest unanswered push
* `Trace.refused_iff` — a take is refused exactly when everything accepted was taken
-/

namespace Exec02

variable {α : Type*}

/-- One observation of a deque: an accepted insertion at either end, an element taken, a take
refused, or an insertion refused. -/
inductive DequeEvent (α : Type*)
  | pushBack (x : α)
  | pushFront (x : α)
  | take (x : α)
  | empty
  | full (x : α)
  deriving DecidableEq

/-- The deque of capacity `cap`: which observations are possible at which contents. -/
inductive DequeStep (cap : ℕ∞) : List α → DequeEvent α → List α → Prop
  | pushBack {xs x} (h : (xs.length : ℕ∞) < cap) : DequeStep cap xs (.pushBack x) (xs ++ [x])
  | pushFront {xs x} (h : (xs.length : ℕ∞) < cap) : DequeStep cap xs (.pushFront x) (x :: xs)
  | take {x xs} : DequeStep cap (x :: xs) (.take x) xs
  | empty : DequeStep cap [] .empty []
  | full {xs x} (h : (xs.length : ℕ∞) = cap) : DequeStep cap xs (.full x) xs

namespace DequeEvent

/-- The element an event puts into the deque. -/
def input : DequeEvent α → Option α
  | .pushBack x | .pushFront x => some x
  | _ => none

/-- The element an event gets out of the deque. -/
def output : DequeEvent α → Option α
  | .take x => some x
  | _ => none

/-- What a caller sees of an insertion that answers `0` when it succeeds. -/
def ofPut (put : α → DequeEvent α) (x : α) (ret : ℤ) : DequeEvent α :=
  if ret = 0 then put x else .full x

/-- What a caller sees of a removal that answers `0` when it succeeds. -/
def ofTake (ret : ℤ) (x : α) : DequeEvent α :=
  if ret = 0 then .take x else .empty

/-- An observation a first-in first-out queue can make. -/
def IsQueue : DequeEvent α → Prop
  | .pushFront _ => False
  | _ => True

theorem isQueue_ofPut (x : α) (ret : ℤ) : (ofPut .pushBack x ret).IsQueue := by
  unfold ofPut
  split <;> trivial

theorem isQueue_ofTake (x : α) (ret : ℤ) : (ofTake ret x).IsQueue := by
  unfold ofTake
  split <;> trivial

/-- An observation an unbounded stack can make. -/
def IsStack : DequeEvent α → Prop
  | .pushFront _ | .take _ | .empty => True
  | _ => False

end DequeEvent

/-- The elements accepted during a trace, oldest first. -/
def accepted (evs : List (DequeEvent α)) : List α := evs.filterMap DequeEvent.input

/-- The elements taken during a trace, oldest first. -/
def taken (evs : List (DequeEvent α)) : List α := evs.filterMap DequeEvent.output

@[simp] theorem accepted_nil : accepted ([] : List (DequeEvent α)) = [] := rfl

@[simp] theorem taken_nil : taken ([] : List (DequeEvent α)) = [] := rfl

theorem accepted_cons (e : DequeEvent α) (evs : List (DequeEvent α)) :
    accepted (e :: evs) = e.input.toList ++ accepted evs := by
  cases e <;> rfl

theorem taken_cons (e : DequeEvent α) (evs : List (DequeEvent α)) :
    taken (e :: evs) = e.output.toList ++ taken evs := by
  cases e <;> rfl

variable {cap : ℕ∞} {xs ys : List α} {evs : List (DequeEvent α)}

/-- **Conservation.** What was there and what was accepted is, up to order, what was taken and
what is left. -/
theorem Trace.accepted_perm (h : Trace (DequeStep cap) xs evs ys) :
    (xs ++ accepted evs).Perm (taken evs ++ ys) := by
  induction h with
  | nil => simp
  | cons step _ ih =>
    rw [accepted_cons, taken_cons]
    cases step with
    | pushBack => simpa [DequeEvent.input, DequeEvent.output] using ih
    | pushFront =>
      refine List.Perm.trans ?_ ih
      simp [DequeEvent.input]
    | take => simpa [DequeEvent.input, DequeEvent.output] using ih
    | empty => simpa [DequeEvent.input, DequeEvent.output] using ih
    | full => simpa [DequeEvent.input, DequeEvent.output] using ih

/-- **First in, first out.** Without front insertions the order of arrival is the order of
departure, and what is left is what arrived last. -/
theorem Trace.fifo (h : Trace (DequeStep cap) xs evs ys) (hq : ∀ e ∈ evs, e.IsQueue) :
    xs ++ accepted evs = taken evs ++ ys := by
  induction h with
  | nil => simp
  | cons step _ ih =>
    have ih := ih fun e he => hq e (List.mem_cons_of_mem _ he)
    rw [accepted_cons, taken_cons]
    cases step with
    | pushFront => exact (hq _ (List.mem_cons_self ..)).elim
    | pushBack => simpa [DequeEvent.input, DequeEvent.output] using ih
    | take => simpa [DequeEvent.input, DequeEvent.output] using ih
    | empty => simpa [DequeEvent.input, DequeEvent.output] using ih
    | full => simpa [DequeEvent.input, DequeEvent.output] using ih

/-- Starting empty, the deque is empty again exactly when as much was taken as accepted. -/
theorem Trace.nil_iff (h : Trace (DequeStep cap) [] evs ys) :
    ys = [] ↔ (accepted evs).length = (taken evs).length := by
  have hlen := h.accepted_perm.length_eq
  simp only [List.nil_append, List.length_append] at hlen
  rw [← List.length_eq_zero_iff]
  omega

/-- **A refusal means everything was returned.** Starting empty, the next take is refused exactly
when every accepted element has already been taken. -/
theorem Trace.refused_iff (h : Trace (DequeStep cap) [] evs ys) :
    (∃ zs, DequeStep cap ys .empty zs) ↔ (accepted evs).Perm (taken evs) := by
  have hperm : (accepted evs).Perm (taken evs ++ ys) := by simpa using h.accepted_perm
  constructor
  · rintro ⟨zs, hstep⟩
    cases hstep
    simpa using hperm
  · intro hp
    obtain rfl : ys = [] := h.nil_iff.mpr hp.length_eq
    exact ⟨[], .empty⟩

/-! ### Last in, first out -/

/-- A stretch in which every element pushed at the front is taken again: properly nested pairs of
a push and a take. -/
inductive Balanced : List (DequeEvent α) → Prop
  | nil : Balanced []
  | snoc {evs inner x} (before : Balanced evs) (nested : Balanced inner) :
      Balanced (evs ++ (.pushFront x :: inner ++ [.take x]))

/-- `Stacked evs xs`: the contents `xs` are, top first, the pushes of `evs` still unanswered — what
happened since each of them is balanced. -/
inductive Stacked : List (DequeEvent α) → List α → Prop
  | nil (evs : List (DequeEvent α)) : Stacked evs []
  | cons {before inner xs x} (below : Stacked before xs) (since : Balanced inner) :
      Stacked (before ++ .pushFront x :: inner) (x :: xs)

/-- A push and its take, with everything between them balanced, change nothing for what lies
below. -/
theorem Stacked.close {before inner : List (DequeEvent α)} {x : α} (h : Stacked before xs)
    (hb : Balanced inner) : Stacked (before ++ (.pushFront x :: inner ++ [.take x])) xs := by
  cases h with
  | nil => exact .nil _
  | cons below since =>
    rw [List.append_assoc, List.cons_append]
    exact .cons below (since.snoc hb)

theorem Trace.stacked (h : Trace (DequeStep cap) xs evs ys) (hs : ∀ e ∈ evs, e.IsStack) :
    ∀ {pre : List (DequeEvent α)}, Stacked pre xs → Stacked (pre ++ evs) ys := by
  induction h with
  | nil => intro pre hpre; simpa using hpre
  | @cons xs _ _ e evs step _ ih =>
    intro pre hpre
    rw [← List.singleton_append, ← List.append_assoc]
    refine ih (fun e he => hs e (List.mem_cons_of_mem _ he)) ?_
    cases step with
    | pushBack => exact (hs _ (List.mem_cons_self ..)).elim
    | pushFront => exact .cons hpre .nil
    | take =>
      cases hpre with
      | cons below since => simpa using below.close since
    | empty => exact .nil _
    | full => exact (hs _ (List.mem_cons_self ..)).elim

/-- **Last in, first out.** Without back insertions an element that is taken answers the latest
push not answered yet: between the two, every push was answered. -/
theorem Trace.lifo {y : α} (h : Trace (DequeStep cap) [] (evs ++ [.take y]) ys)
    (hs : ∀ e ∈ evs, e.IsStack) :
    ∃ before inner, evs = before ++ .pushFront y :: inner ∧ Balanced inner := by
  obtain ⟨zs, hevs, htake⟩ := h.split
  have hstack : Stacked ([] ++ evs) zs := hevs.stacked hs (.nil [])
  rw [List.nil_append] at hstack
  cases htake with
  | cons step _ =>
    cases step
    cases hstack with
    | cons _ since => exact ⟨_, _, rfl, since⟩

end Exec02
