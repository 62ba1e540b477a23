import Exec02.Lib.Machine

/-!
# Getting somewhere

Which runs end, and where they cannot go on. Some inputs of a machine are *productive*: they do a
part of its work, and the others may come in between any number of times. A machine is blocked where
no productive input is allowed. What blocks and how much work there is are best found out on a
machine without the details, so a machine is *matched* with another one that allows the same inputs
in related states.

## Main definitions

* `Machine.Blocked` — nothing productive is allowed
* `Machine.Matches` — two machines that allow and take the same inputs

## Main results

* `Machine.Run.countP_add_le` — a measure that productive inputs lower bounds their number
* `Machine.Matches.run`, `Machine.Matches.lift` — the runs of the one are those of the other
* `Machine.Matches.forall_blocked_iff` — and so are the states in which they are blocked
-/

namespace Exec02

variable {σ τ ι ω ω' : Type*}

namespace Machine

variable {M : Machine σ ι ω} {N : Machine τ ι ω'}

/-! ### The measure rule -/

/-- **The measure rule.** A run in which every productive input lowers a measure, and no other one
raises it, has no more of them than the measure says. -/
theorem Run.countP_add_le {P : σ → Prop} {productive : ι → Bool} {measure : σ → ℕ} {s t : σ}
    {ins : List ι} {outs : List ω} (h : M.Run s ins t outs) (hP : P s)
    (hstep : ∀ {s i t o}, P s → M.allowed s i → M.step s i = some (t, o) →
      P t ∧ measure t + (if productive i then 1 else 0) ≤ measure s) :
    ins.countP productive + measure t ≤ measure s := by
  suffices P t ∧ ins.countP productive + measure t ≤ measure s from this.2
  refine h.invariant (P := fun ins t _ => P t ∧ ins.countP productive + measure t ≤ measure s) ?_ ?_
  · exact ⟨hP, by simp⟩
  · rintro ins t outs i u o - ⟨hPt, hle⟩ allowed step
    obtain ⟨hPu, hlower⟩ := hstep hPt allowed step
    refine ⟨hPu, ?_⟩
    rw [List.countP_append, List.countP_singleton]
    omega

/-- No productive input is allowed. -/
def Blocked (M : Machine σ ι ω) (productive : ι → Bool) (s : σ) : Prop :=
  ∀ i, productive i → ¬ M.allowed s i

/-! ### Machines that match -/

/-- In related states two machines allow the same inputs, and take them to related states. -/
structure Matches (M : Machine σ ι ω) (N : Machine τ ι ω') (R : σ → τ → Prop) : Prop where
  allowed : ∀ {s a i}, R s a → (M.allowed s i ↔ N.allowed a i)
  step : ∀ {s a i}, R s a → N.allowed a i →
    ∃ t o b o', M.step s i = some (t, o) ∧ N.step a i = some (b, o') ∧ R t b

namespace Matches

variable {R : σ → τ → Prop} {s t : σ} {a b : τ} {ins : List ι} {outs : List ω} {outs' : List ω'}

/-- A run of the first machine is one of the second. -/
theorem run (h : M.Matches N R) (hR : R s a) (hrun : M.Run s ins t outs) :
    ∃ b outs', N.Run a ins b outs' ∧ R t b := by
  refine hrun.invariant (P := fun ins t _ => ∃ b outs', N.Run a ins b outs' ∧ R t b)
    ⟨a, [], .nil, hR⟩ ?_
  rintro ins t outs i u o - ⟨b, outs', hb, hRt⟩ allowed step
  have allowed := (h.allowed hRt).mp allowed
  obtain ⟨u', o₁, c, o₂, step', hstep, hRu⟩ := h.step hRt allowed
  obtain ⟨rfl, rfl⟩ : u = u' ∧ o = o₁ := by simpa [step] using step'
  exact ⟨c, outs' ++ o₂, hb.snoc allowed hstep, hRu⟩

/-- A run of the second machine is one of the first. -/
theorem lift (h : M.Matches N R) (hR : R s a) (hrun : N.Run a ins b outs') :
    ∃ t outs, M.Run s ins t outs ∧ R t b := by
  refine hrun.invariant (P := fun ins b _ => ∃ t outs, M.Run s ins t outs ∧ R t b)
    ⟨s, [], .nil, hR⟩ ?_
  rintro ins b outs' i c o - ⟨t, outs, ht, hRt⟩ allowed step
  obtain ⟨u, o₁, c', o₂, hstep, step', hRu⟩ := h.step hRt allowed
  obtain ⟨rfl, rfl⟩ : c = c' ∧ o = o₂ := by simpa [step] using step'
  exact ⟨u, outs ++ o₁, ht.snoc ((h.allowed hRt).mpr allowed) hstep, hRu⟩

/-- Where one of them is blocked the other one is. -/
theorem blocked_iff (h : M.Matches N R) (hR : R s a) (productive : ι → Bool) :
    M.Blocked productive s ↔ N.Blocked productive a :=
  forall_congr' fun _ => imp_congr_right fun _ => not_congr (h.allowed hR)

/-- One of them is blocked only where it is done if that is so of the other. -/
theorem forall_blocked_iff (h : M.Matches N R) (hR : R s a) {productive : ι → Bool}
    {done : σ → Prop} {done' : τ → Prop} (hdone : ∀ {t b}, R t b → (done t ↔ done' b)) :
    (∀ ins t outs, M.Run s ins t outs → M.Blocked productive t → done t) ↔
      ∀ ins b outs', N.Run a ins b outs' → N.Blocked productive b → done' b := by
  constructor
  · intro hall ins b outs' hrun hblocked
    obtain ⟨t, outs, ht, hRt⟩ := h.lift hR hrun
    exact (hdone hRt).mp (hall ins t outs ht ((h.blocked_iff hRt productive).mpr hblocked))
  · intro hall ins t outs hrun hblocked
    obtain ⟨b, outs', hb, hRt⟩ := h.run hR hrun
    exact (hdone hRt).mpr (hall ins b outs' hb ((h.blocked_iff hRt productive).mp hblocked))

end Matches

end Machine

end Exec02
