import Mathlib.Data.List.Infix

/-!
# Prefix codes

Words that follow each other without a mark between them, and can be told apart because none of them
begins another one. `enc` need not be such a code on all of `α`, only where `P` holds.

## Main results

* `PrefixCode.map_isPrefix` — one stream of words begins another one only if the words do
-/

namespace Exec02

variable {α β : Type*}

/-- The words `enc a`, for the `a` with `P a`, are not empty, and none begins another one. -/
structure PrefixCode (P : α → Prop) (enc : α → List β) : Prop where
  ne_nil : ∀ {a}, P a → enc a ≠ []
  eq_of_prefix : ∀ {a b}, P a → P b → enc a <+: enc b → enc a = enc b

namespace PrefixCode

variable {P : α → Prop} {enc : α → List β}

/-- Whatever follows, two words at the front of one stream are the same. -/
theorem eq_of_append_prefix (h : PrefixCode P enc) {a b : α} (ha : P a) (hb : P b)
    {rest rest' : List β} (hpfx : enc a ++ rest <+: enc b ++ rest') : enc a = enc b := by
  have hleft : enc a <+: enc b ++ rest' := (List.prefix_append _ _).trans hpfx
  rcases List.prefix_or_prefix_of_prefix hleft (List.prefix_append _ _) with hab | hba
  · exact h.eq_of_prefix ha hb hab
  · exact (h.eq_of_prefix hb ha hba).symm

/-- **Reading.** A stream of words that begins another one consists of the first of its words. -/
theorem map_isPrefix (h : PrefixCode P enc) : ∀ {as bs : List α}, (∀ a ∈ as, P a) →
    (∀ b ∈ bs, P b) → as.flatMap enc <+: bs.flatMap enc → as.map enc <+: bs.map enc := by
  intro as
  induction as with
  | nil =>
    intro bs _ _ _
    exact List.nil_prefix
  | cons a as ih =>
    intro bs hP hP' hpfx
    have ha : P a := hP a List.mem_cons_self
    cases bs with
    | nil =>
      have hnil : enc a ++ as.flatMap enc = [] := List.prefix_nil.mp hpfx
      exact absurd (List.append_eq_nil_iff.mp hnil).1 (h.ne_nil ha)
    | cons b bs =>
      have hpfx : enc a ++ as.flatMap enc <+: enc b ++ bs.flatMap enc := hpfx
      have heq := h.eq_of_append_prefix ha (hP' b List.mem_cons_self) hpfx
      rw [heq, List.prefix_append_right_inj] at hpfx
      rw [List.map_cons, List.map_cons, heq, List.cons_prefix_cons]
      refine ⟨rfl, ih ?_ ?_ hpfx⟩
      · exact fun a ha => hP a (List.mem_cons_of_mem _ ha)
      · exact fun b hb => hP' b (List.mem_cons_of_mem _ hb)

end PrefixCode

end Exec02
