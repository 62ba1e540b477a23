import Mathlib.Data.List.Infix
import Mathlib.Logic.Relation

/-!
# Machines, their runs, and what holds along them

A `Machine` is an executable step function together with a guard on its inputs. The two are kept
apart on purpose: `allowed` says which inputs the environment may offer in a state (a caller that
keeps its contract, an allocator that returns fresh memory), while a step that answers `none` is
the program itself going wrong — a wild pointer, an index outside its array. Safety of a program
is then a statement about `step` under `allowed`, and never a hypothesis.

Outputs are what an observer sees of a step. `Trace` is the abstract side: a relation on states
labelled by one observation at a time, which says what a component is for and nothing about how
it works. `Machine.Refines` connects the two.

## Main definitions

* `Machine`, `Machine.Run` — an executable transition system and its finite runs
* `Trace` — the runs of an abstract labelled relation
* `Machine.Refines` — a simulation of the relation by the machine, safety included
* `Machine.restrict` — the same machine in an environment that keeps a further promise

## Main results

* `Machine.Run.invariant` — the induction rule every whole-run property goes through
* `Machine.exists_run` — a run, from the inputs that can always go on
* `Machine.Run.restrict_snoc_iff` — a promise kept over a run, one step at a time
* `Machine.Run.exists_record_iff` — the runs that leave a record of theirs clean
* `Machine.Run.forall_prefix_iff` — the runs in which a property holds at every moment
* `snoc_eq_split`, `forall_split_snoc` — the moments of a history with one more entry
* `Machine.Refines.run` — a refinement lifts from steps to runs
* `foldlM_range'_of_invariant` — the same induction for a counted loop
-/

namespace Exec02

variable {σ τ ι ω : Type*}

/-- An executable transition system: `allowed` constrains the environment, and `step` is the
program, with `none` for undefined behaviour. -/
structure Machine (σ ι ω : Type*) where
  /-- The inputs the environment may offer in a state. -/
  allowed : σ → ι → Prop
  /-- One step: the next state and what an observer sees of it. -/
  step : σ → ι → Option (σ × List ω)

namespace Machine

variable {M : Machine σ ι ω}

/-- `M.Run s ins t outs`: from `s`, the allowed inputs `ins` lead to `t` and show `outs`. -/
inductive Run (M : Machine σ ι ω) (s : σ) : List ι → σ → List ω → Prop
  | nil : M.Run s [] s []
  | snoc {ins t outs i u o} (run : M.Run s ins t outs) (allowed : M.allowed t i)
      (step : M.step t i = some (u, o)) : M.Run s (ins ++ [i]) u (outs ++ o)

/-- **The run rule.** What holds at the start and is preserved by every step holds of every run.
The property may speak of the inputs and the outputs so far, and a step may use the run that led
to it. -/
theorem Run.invariant {s t : σ} {ins : List ι} {outs : List ω}
    {P : List ι → σ → List ω → Prop} (h : M.Run s ins t outs) (hnil : P [] s [])
    (hstep : ∀ {ins t outs i u o}, M.Run s ins t outs → P ins t outs → M.allowed t i →
      M.step t i = some (u, o) → P (ins ++ [i]) u (outs ++ o)) : P ins t outs := by
  induction h with
  | nil => exact hnil
  | snoc run allowed step ih => exact hstep run ih allowed step

theorem Run.single {s t : σ} {i : ι} {o : List ω} (ha : M.allowed s i)
    (hs : M.step s i = some (t, o)) : M.Run s [i] t o :=
  .snoc .nil ha hs

theorem Run.append {s t u : σ} {ins₁ ins₂ : List ι} {outs₁ outs₂ : List ω}
    (h₁ : M.Run s ins₁ t outs₁) (h₂ : M.Run t ins₂ u outs₂) :
    M.Run s (ins₁ ++ ins₂) u (outs₁ ++ outs₂) := by
  induction h₂ with
  | nil => simpa using h₁
  | snoc _ allowed step ih =>
    rw [← List.append_assoc, ← List.append_assoc]
    exact .snoc ih allowed step

/-- The last step of a run. -/
theorem Run.of_snoc {s u : σ} {ins : List ι} {i : ι} {outs : List ω}
    (h : M.Run s (ins ++ [i]) u outs) : ∃ t outs' o,
      M.Run s ins t outs' ∧ M.allowed t i ∧ M.step t i = some (u, o) ∧ outs = outs' ++ o := by
  generalize hall : ins ++ [i] = all at h
  cases h with
  | nil => exact absurd hall (List.append_ne_nil_of_right_ne_nil _ (List.cons_ne_nil _ _))
  | snoc run allowed step =>
    obtain ⟨rfl, hi⟩ := List.append_inj' hall rfl
    obtain rfl := List.singleton_inj.mp hi
    exact ⟨_, _, _, run, allowed, step, rfl⟩

/-- The inputs determine a run. -/
theorem Run.unique {s t t' : σ} {ins : List ι} {outs outs' : List ω} (h : M.Run s ins t outs)
    (h' : M.Run s ins t' outs') : t = t' ∧ outs = outs' := by
  induction h generalizing t' outs' with
  | nil =>
    generalize hins : ([] : List ι) = ins at h'
    cases h' with
    | nil => exact ⟨rfl, rfl⟩
    | snoc => exact absurd hins.symm (List.append_ne_nil_of_right_ne_nil _ (List.cons_ne_nil _ _))
  | snoc _ _ step ih =>
    obtain ⟨u, outs₁, o, hrun, -, hstep, rfl⟩ := h'.of_snoc
    obtain ⟨rfl, rfl⟩ := ih hrun
    rw [step] at hstep
    obtain ⟨rfl, rfl⟩ := Prod.mk.inj (Option.some.inj hstep)
    exact ⟨rfl, rfl⟩

/-- The first step of a run. -/
theorem Run.of_cons {s u : σ} {i : ι} {ins : List ι} {outs : List ω}
    (h : M.Run s (i :: ins) u outs) : ∃ t o outs',
      M.allowed s i ∧ M.step s i = some (t, o) ∧ M.Run t ins u outs' ∧ outs = o ++ outs' := by
  induction ins using List.reverseRecOn generalizing u outs with
  | nil =>
    have h : M.Run s ([] ++ [i]) u outs := h
    obtain ⟨t, outs', o, hrun, allowed, step, rfl⟩ := h.of_snoc
    obtain ⟨rfl, rfl⟩ := hrun.unique .nil
    exact ⟨u, o, [], allowed, step, .nil, (List.append_nil o).symm⟩
  | append_singleton ins j ih =>
    have h : M.Run s (i :: ins ++ [j]) u outs := h
    obtain ⟨v, outs', o, hrun, allowed, step, rfl⟩ := h.of_snoc
    obtain ⟨t, o', outs'', hallowed, hstep, hrest, rfl⟩ := ih hrun
    exact ⟨t, o', outs'' ++ o, hallowed, hstep, hrest.snoc allowed step, List.append_assoc ..⟩

/-- Inputs are those of a run if after every run so far the next one is allowed and taken. -/
theorem exists_run {s : σ} {ins : List ι} (h : ∀ {ins' i t outs}, ins' ++ [i] <+: ins →
    M.Run s ins' t outs → M.allowed t i ∧ ∃ u o, M.step t i = some (u, o)) :
    ∃ t outs, M.Run s ins t outs := by
  induction ins using List.reverseRecOn with
  | nil => exact ⟨s, [], .nil⟩
  | append_singleton ins i ih =>
    obtain ⟨t, outs, hrun⟩ := ih fun hpfx => h (hpfx.trans (List.prefix_append _ _))
    obtain ⟨allowed, u, o, step⟩ := h List.prefix_rfl hrun
    exact ⟨u, outs ++ o, hrun.snoc allowed step⟩

/-! ### Execution

Where the guard can be decided a run can be computed, which is how concrete runs are exhibited. -/

/-- Run the inputs in order, stopping at the first one that is not allowed or goes wrong. -/
def exec (M : Machine σ ι ω) [∀ s i, Decidable (M.allowed s i)] :
    σ → List ι → Option (σ × List ω)
  | s, [] => some (s, [])
  | s, i :: ins =>
    if M.allowed s i then
      match M.step s i with
      | none => none
      | some (t, o) => (M.exec t ins).map fun r => (r.1, o ++ r.2)
    else none

theorem run_of_exec [∀ s i, Decidable (M.allowed s i)] :
    ∀ {ins : List ι} {s t : σ} {outs : List ω}, M.exec s ins = some (t, outs) →
      M.Run s ins t outs := by
  intro ins
  induction ins with
  | nil =>
    intro s t outs h
    obtain ⟨rfl, rfl⟩ : s = t ∧ [] = outs := by simpa [exec] using h
    exact .nil
  | cons i ins ih =>
    intro s t outs h
    rw [exec] at h
    split at h
    · next ha =>
      cases hs : M.step s i with
      | none => simp [hs] at h
      | some r =>
        obtain ⟨u, o⟩ := r
        simp only [hs, Option.map_eq_some_iff, Prod.mk.injEq] at h
        obtain ⟨⟨v, outs'⟩, hr, rfl, rfl⟩ := h
        exact (Run.single ha hs).append (ih hr)
    · cases h

/-! ### A stronger environment -/

/-- The same program in an environment that also promises `C` at every step. -/
def restrict (M : Machine σ ι ω) (C : σ → ι → Prop) : Machine σ ι ω where
  allowed s i := M.allowed s i ∧ C s i
  step := M.step

instance {C : σ → ι → Prop} [∀ s i, Decidable (M.allowed s i)] [∀ s i, Decidable (C s i)] (s : σ)
    (i : ι) : Decidable ((M.restrict C).allowed s i) :=
  inferInstanceAs (Decidable (_ ∧ _))

theorem Run.of_restrict {C : σ → ι → Prop} {s t : σ} {ins : List ι} {outs : List ω}
    (h : (M.restrict C).Run s ins t outs) : M.Run s ins t outs := by
  induction h with
  | nil => exact .nil
  | snoc _ allowed step ih => exact .snoc ih allowed.1 step

/-- A run with one more step keeps the promise if it has kept it and does so in that step. -/
theorem Run.restrict_snoc_iff {C : σ → ι → Prop} {s t u : σ} {ins : List ι} {i : ι}
    {outs o : List ω} (h : M.Run s ins t outs) (ha : M.allowed t i)
    (hs : M.step t i = some (u, o)) : (M.restrict C).Run s (ins ++ [i]) u (outs ++ o) ↔
      (M.restrict C).Run s ins t outs ∧ C t i := by
  constructor
  · intro hrun
    obtain ⟨t', outs', o', hrun', ha', -, -⟩ := hrun.of_snoc
    obtain ⟨rfl, rfl⟩ := h.unique hrun'.of_restrict
    exact ⟨hrun', ha'.2⟩
  · rintro ⟨hrun, hC⟩
    exact hrun.snoc ⟨ha, hC⟩ hs

/-- **A record beside a run.** There is a record of every run, of which `I` says that it is right
and `Q` that it is clean. If a step can be entered so that the record is clean exactly if it was and
the step keeps the promise, the record of a run is clean exactly if the run has kept it. -/
theorem Run.exists_record_iff {κ : Type*} {C : σ → ι → Prop}
    {I Q : List ι → σ → List ω → κ → Prop} {s t : σ} {ins : List ι} {outs : List ω}
    (h : M.Run s ins t outs) (hnil : ∃ k, I [] s [] k ∧ Q [] s [] k)
    (hstep : ∀ {ins t outs i u o k}, M.Run s ins t outs → I ins t outs k → M.allowed t i →
      M.step t i = some (u, o) → ∃ k', I (ins ++ [i]) u (outs ++ o) k' ∧
        (Q (ins ++ [i]) u (outs ++ o) k' ↔ Q ins t outs k ∧ C t i)) :
    ∃ k, I ins t outs k ∧ (Q ins t outs k ↔ (M.restrict C).Run s ins t outs) := by
  refine h.invariant (P := fun ins t outs => ∃ k, I ins t outs k ∧
    (Q ins t outs k ↔ (M.restrict C).Run s ins t outs)) ?_ ?_
  · obtain ⟨k, hI, hQ⟩ := hnil
    exact ⟨k, hI, iff_of_true hQ .nil⟩
  · rintro ins t outs i u o hrun ⟨k, hI, hQ⟩ allowed step
    obtain ⟨k', hI', hQ'⟩ := hstep hrun hI allowed step
    exact ⟨k', hI', by rw [hQ', hQ, hrun.restrict_snoc_iff allowed step]⟩

/-- **Every moment of a run.** A property that holds at the start, and is kept by a step exactly if
the step keeps a promise, holds at every moment of the runs that keep the promise, and of no
other. -/
theorem Run.forall_prefix_iff {C : σ → ι → Prop} {P : List ι → σ → List ω → Prop} {s t : σ}
    {ins : List ι} {outs : List ω} (h : M.Run s ins t outs) (hnil : P [] s [])
    (hstep : ∀ {ins' t outs i u o}, ins' ++ [i] <+: ins → M.Run s ins' t outs → P ins' t outs →
      M.allowed t i → M.step t i = some (u, o) → (P (ins' ++ [i]) u (outs ++ o) ↔ C t i)) :
    (∀ ins' u outs', ins' <+: ins → M.Run s ins' u outs' → P ins' u outs') ↔
      (M.restrict C).Run s ins t outs := by
  induction h with
  | nil =>
    refine iff_of_true ?_ .nil
    intro ins' u outs' hpfx hrun
    obtain rfl := List.prefix_nil.mp hpfx
    obtain ⟨rfl, rfl⟩ := Run.nil.unique hrun
    exact hnil
  | @snoc ins t outs i u o run allowed step ih =>
    have ih := ih fun hpfx => hstep (hpfx.trans (List.prefix_append _ _))
    rw [run.restrict_snoc_iff allowed step, ← ih]
    constructor
    · intro hall
      have hbefore : ∀ ins' u outs', ins' <+: ins → M.Run s ins' u outs' → P ins' u outs' :=
        fun ins' u outs' hpfx => hall ins' u outs' (hpfx.trans (List.prefix_append _ _))
      have hlast := hall _ _ _ List.prefix_rfl (run.snoc allowed step)
      exact ⟨hbefore, (hstep List.prefix_rfl run (hbefore _ _ _ List.prefix_rfl run) allowed
        step).mp hlast⟩
    · rintro ⟨hbefore, hC⟩ ins' u' outs' hpfx hrun
      rcases List.prefix_concat_iff.mp hpfx with rfl | hpfx
      · obtain ⟨rfl, rfl⟩ := (run.snoc allowed step).unique hrun
        exact (hstep List.prefix_rfl run (hbefore _ _ _ List.prefix_rfl run) allowed step).mpr hC
      · exact hbefore ins' u' outs' hpfx hrun

end Machine

/-! ### Cutting a history

A statement about every moment of a history is one about the ways to cut it in two. -/

/-- Where a history with one more entry can be cut at an entry: at the new one, or before it. -/
theorem snoc_eq_split {as before after : List ω} {a b : ω} :
    as ++ [a] = before ++ b :: after ↔
      (before = as ∧ b = a ∧ after = []) ∨
        ∃ after', after = after' ++ [a] ∧ as = before ++ b :: after' := by
  constructor
  · intro h
    rcases List.eq_nil_or_concat after with rfl | ⟨after', e, rfl⟩
    · obtain ⟨has, ha⟩ := List.append_inj' h rfl
      exact Or.inl ⟨has.symm, (List.singleton_inj.mp ha).symm, rfl⟩
    · rw [List.concat_eq_append, ← List.cons_append, ← List.append_assoc] at h
      obtain ⟨has, ha⟩ := List.append_inj' h rfl
      rw [List.concat_eq_append, ← List.singleton_inj.mp ha]
      exact Or.inr ⟨after', rfl, has⟩
  · rintro (⟨rfl, rfl, rfl⟩ | ⟨after', rfl, rfl⟩)
    · rfl
    · rw [List.append_assoc, List.cons_append]

theorem nil_ne_split {before after : List ω} {b : ω} : [] ≠ before ++ b :: after :=
  (List.append_ne_nil_of_right_ne_nil _ (List.cons_ne_nil _ _)).symm

/-- What holds of every cut of a history with one more entry. -/
theorem forall_split_snoc {as : List ω} {a : ω} {P : List ω → ω → List ω → Prop} :
    (∀ before b after, as ++ [a] = before ++ b :: after → P before b after) ↔
      (∀ before b after, as = before ++ b :: after → P before b (after ++ [a])) ∧ P as a [] := by
  constructor
  · exact fun h => ⟨fun before b after has => h before b _ (snoc_eq_split.mpr
      (Or.inr ⟨after, rfl, has⟩)), h as a [] rfl⟩
  · rintro ⟨hbefore, hlast⟩ before b after h
    obtain ⟨rfl, rfl, rfl⟩ | ⟨after', rfl, has⟩ := snoc_eq_split.mp h
    · exact hlast
    · exact hbefore before b after' has

/-! ### Traces of an abstract relation -/

/-- `Trace A a evs b`: the observations `evs`, one step of `A` each, lead from `a` to `b`. -/
inductive Trace (A : τ → ω → τ → Prop) : τ → List ω → τ → Prop
  | nil (a : τ) : Trace A a [] a
  | cons {a b c e evs} (step : A a e b) (rest : Trace A b evs c) : Trace A a (e :: evs) c

namespace Trace

variable {A : τ → ω → τ → Prop}

theorem single {a b : τ} {e : ω} (h : A a e b) : Trace A a [e] b := .cons h (.nil b)

theorem append {a b c : τ} {evs₁ evs₂ : List ω} (h₁ : Trace A a evs₁ b) (h₂ : Trace A b evs₂ c) :
    Trace A a (evs₁ ++ evs₂) c := by
  induction h₁ with
  | nil => exact h₂
  | cons step _ ih => exact .cons step (ih h₂)

theorem split {b : τ} {evs₂ : List ω} : ∀ {evs₁ : List ω} {a : τ},
    Trace A a (evs₁ ++ evs₂) b → ∃ c, Trace A a evs₁ c ∧ Trace A c evs₂ b := by
  intro evs₁
  induction evs₁ with
  | nil => intro a h; exact ⟨a, .nil a, h⟩
  | cons e evs₁ ih =>
    intro a h
    cases h with
    | cons step rest =>
      obtain ⟨c, h₁, h₂⟩ := ih rest
      exact ⟨c, .cons step h₁, h₂⟩

end Trace

/-! ### Refinement -/

/-- `M` refines `A` along `R`: in related states an allowed input never goes wrong, and what the
step shows is a trace of `A` to a related state. -/
structure Machine.Refines (M : Machine σ ι ω) (A : τ → ω → τ → Prop) (R : σ → τ → Prop) :
    Prop where
  /-- Every allowed step is matched, so in particular it is taken. -/
  step : ∀ {s a i}, R s a → M.allowed s i →
    ∃ t o b, M.step s i = some (t, o) ∧ Trace A a o b ∧ R t b

/-- **Refinement lifts to runs.** -/
theorem Machine.Refines.run {M : Machine σ ι ω} {A : τ → ω → τ → Prop} {R : σ → τ → Prop}
    (h : M.Refines A R) {s t : σ} {a : τ} {ins : List ι} {outs : List ω} (hR : R s a)
    (hrun : M.Run s ins t outs) : ∃ b, Trace A a outs b ∧ R t b := by
  induction hrun with
  | nil => exact ⟨a, .nil a, hR⟩
  | snoc _ allowed step ih =>
    obtain ⟨b, htr, hb⟩ := ih
    obtain ⟨u, o, c, hs, htr', hc⟩ := h.step hb allowed
    obtain ⟨rfl, rfl⟩ : u = _ ∧ o = _ := by simpa [step] using hs.symm
    exact ⟨c, htr.append htr', hc⟩

/-- Where the environment may offer everything, every list of inputs is that of a run. -/
theorem Machine.Refines.exists_run {M : Machine σ ι ω} {A : τ → ω → τ → Prop} {R : σ → τ → Prop}
    (h : M.Refines A R) (hall : ∀ s i, M.allowed s i) {s : σ} {a : τ} (hR : R s a)
    (ins : List ι) : ∃ t outs b, M.Run s ins t outs ∧ Trace A a outs b ∧ R t b := by
  obtain ⟨t, outs, hrun⟩ : ∃ t outs, M.Run s ins t outs := by
    refine Machine.exists_run fun {_ i t _} _ hrun => ⟨hall t i, ?_⟩
    obtain ⟨b, -, hb⟩ := h.run hR hrun
    obtain ⟨u, o, c, hstep, -⟩ := h.step hb (hall t i)
    exact ⟨u, o, hstep⟩
  obtain ⟨b, htrace, hb⟩ := h.run hR hrun
  exact ⟨t, outs, b, hrun, htrace, hb⟩

/-! ### Counted loops

`for (i = lo; i < lo + n; i++)` is a fold over `List.range' lo n`, in a monad where a turn may go
wrong. -/

section Loop

universe u v

variable {f g : σ → ℕ → Option σ}

/-- **The loop rule.** An invariant that every turn keeps, none of them going wrong, holds when the
loop is done. -/
theorem foldlM_range'_of_invariant {σ : Type u} {m : Type u → Type v} [Monad m] [LawfulMonad m]
    {f : σ → ℕ → m σ} {P : ℕ → σ → Prop} {lo n : ℕ} {s : σ} (hinit : P lo s)
    (hturn : ∀ i < lo + n, ∀ t, P i t → ∃ u, f t i = pure u ∧ P (i + 1) u) :
    ∃ t, (List.range' lo n).foldlM f s = pure t ∧ P (lo + n) t := by
  induction n generalizing lo s with
  | zero => exact ⟨s, rfl, hinit⟩
  | succ n ih =>
    obtain ⟨u, hu, hPu⟩ := hturn lo (by omega) s hinit
    obtain ⟨t, ht, hPt⟩ := ih hPu fun i hi => hturn i (by omega)
    refine ⟨t, ?_, ?_⟩
    · rw [List.range'_succ, List.foldlM_cons, hu, pure_bind]
      exact ht
    · rwa [show lo + (n + 1) = lo + 1 + n by omega]

/-- A loop whose turns do at least as well gets at least as far. -/
theorem foldlM_mono (h : ∀ s i t, f s i = some t → g s i = some t) {is : List ℕ} {s t : σ}
    (hf : is.foldlM f s = some t) : is.foldlM g s = some t := by
  induction is generalizing s with
  | nil => exact hf
  | cons i is ih =>
    rw [List.foldlM_cons] at hf ⊢
    obtain ⟨u, hu, hrest⟩ := Option.bind_eq_some_iff.mp hf
    exact Option.bind_eq_some_iff.mpr ⟨u, h _ _ _ hu, ih hrest⟩

end Loop

end Exec02
