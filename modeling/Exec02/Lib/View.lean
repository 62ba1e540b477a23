import Exec02.Lib.Machine

/-!
# Views of a machine

A system of several programs and what connects them is a machine, and so is each of its programs;
and a program with all its buffers is a machine, and so is what it does for those who use it. In
both cases the one is a *view* of the other: some of its inputs are inputs of the view, and all the
others do not show in it. What is known of the runs of the view then holds in every run of the
machine, however the inputs come.

## Main definitions

* `Machine.View` — where the state of the view is, and which inputs and outputs are its own
* `Machine.View.Enabled` — what the view allows, the machine can do

## Main results

* `Machine.View.run` — a run of the machine is one of its view
* `Machine.View.lift` — a run of the view is one of the machine, where that can do what is allowed
* `Machine.View.forall_run_iff` — so what holds of all runs can be found out on the view
-/

namespace Exec02

variable {σ τ ι κ ω υ : Type*}

namespace Machine

/-- `N` is a view of `M`, in the states where `inv` holds. -/
structure View (M : Machine σ ι ω) (N : Machine τ κ υ) where
  inv : σ → Prop
  state : σ → τ
  input : ι → Option κ
  output : ω → Option υ
  keep : ∀ {s t i o}, inv s → M.allowed s i → M.step s i = some (t, o) → inv t
  own : ∀ {s t i o k}, inv s → M.allowed s i → M.step s i = some (t, o) → input i = some k →
    N.allowed (state s) k ∧ N.step (state s) k = some (state t, o.filterMap output)
  other : ∀ {s t i o}, inv s → M.allowed s i → M.step s i = some (t, o) → input i = none →
    state t = state s ∧ o.filterMap output = []

namespace View

variable {M : Machine σ ι ω} {N : Machine τ κ υ} (V : M.View N) {s t : σ} {b : τ} {ins : List ι}
  {outs : List ω} {ks : List κ} {evs : List υ}

theorem inv_run (hs : V.inv s) (h : M.Run s ins t outs) : V.inv t :=
  h.invariant (P := fun _ t _ => V.inv t) hs fun _ hinv allowed step => V.keep hinv allowed step

/-- **Projection.** A run of the machine is a run of the view. -/
theorem run (hs : V.inv s) (h : M.Run s ins t outs) :
    N.Run (V.state s) (ins.filterMap V.input) (V.state t) (outs.filterMap V.output) := by
  refine h.invariant (P := fun ins t outs =>
    N.Run (V.state s) (ins.filterMap V.input) (V.state t) (outs.filterMap V.output)) .nil ?_
  intro ins t outs i u o hrun ih allowed step
  have hinv := V.inv_run hs hrun
  rw [List.filterMap_append, List.filterMap_append]
  cases hi : V.input i with
  | none =>
    obtain ⟨hstate, hquiet⟩ := V.other hinv allowed step hi
    rw [hstate, hquiet, List.filterMap_cons_none hi, List.append_nil]
    simpa using ih
  | some k =>
    obtain ⟨hallowed, hstep⟩ := V.own hinv allowed step hi
    rw [List.filterMap_cons_some hi]
    exact ih.snoc hallowed hstep

/-- The machine can do what the view allows. -/
def Enabled : Prop := ∀ {s k}, V.inv s → N.allowed (V.state s) k →
  ∃ i, V.input i = some k ∧ M.allowed s i ∧ ∃ t o, M.step s i = some (t, o)

/-- **Lifting.** A run of the view is one of the machine. -/
theorem lift (hs : V.inv s) (henabled : V.Enabled) (h : N.Run (V.state s) ks b evs) :
    ∃ ins t outs, M.Run s ins t outs ∧ V.state t = b ∧ outs.filterMap V.output = evs := by
  refine h.invariant (P := fun _ b evs => ∃ ins t outs, M.Run s ins t outs ∧ V.state t = b ∧
    outs.filterMap V.output = evs) ⟨[], s, [], .nil, rfl, rfl⟩ ?_
  rintro ks _ _ k c o - ⟨ins, t, outs, hrun, rfl, rfl⟩ allowed step
  have hinv := V.inv_run hs hrun
  obtain ⟨i, hi, hallowed, u, o', hstep⟩ := henabled hinv allowed
  obtain ⟨-, hown⟩ := V.own hinv hallowed hstep hi
  obtain ⟨rfl, rfl⟩ := Prod.mk.inj (Option.some.inj (hown.symm.trans step))
  exact ⟨_, u, _, hrun.snoc hallowed hstep, rfl, List.filterMap_append⟩

/-- What the runs of the machine have in view is what the runs of the view have. -/
theorem forall_run_iff (hs : V.inv s) (henabled : V.Enabled) {P : τ → List υ → Prop} :
    (∀ ins t outs, M.Run s ins t outs → P (V.state t) (outs.filterMap V.output)) ↔
      ∀ ks b evs, N.Run (V.state s) ks b evs → P b evs := by
  constructor
  · intro hall ks b evs h
    obtain ⟨ins, t, outs, hrun, rfl, rfl⟩ := V.lift hs henabled h
    exact hall ins t outs hrun
  · exact fun hall ins t outs h => hall _ _ _ (V.run hs h)

end View

end Machine

end Exec02
