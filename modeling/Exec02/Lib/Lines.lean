import Mathlib.Data.List.SplitBy

/-!
# Lines

A text is a list of symbols, some of which end a line. Its lines are what lies between the ends,
each with the symbol that ends it: so no line is empty, and the last of them may be unfinished.

A component that writes a text symbol by symbol is in the middle of a line or at the start of one.
`Cut isEnd pre cur` is that knowledge: `pre` are the lines that are finished, and `cur` what there
is of the next one.

## Main results

* `linesOf_append` — the line that is not finished is the last one
* `Cut.snoc`, `Cut.snoc_end` — one more symbol
-/

namespace Exec02

variable {α : Type*}

/-- The lines of a text. -/
def linesOf (isEnd : α → Bool) (as : List α) : List (List α) := as.splitBy fun a _ => !isEnd a

/-- Finished lines, and an unfinished one. -/
structure Cut (isEnd : α → Bool) (pre cur : List α) : Prop where
  atStart : ∀ a ∈ pre.getLast?, isEnd a
  noEnd : ∀ a ∈ cur, isEnd a = false

variable {isEnd : α → Bool} {pre cur : List α} {a : α}

namespace Cut

theorem nil (isEnd : α → Bool) : Cut isEnd [] [] := ⟨nofun, nofun⟩

/-- What is behind the last end is a line, whatever symbol it stops with. -/
theorem linesOf_append (h : Cut isEnd pre cur) (a : α) :
    linesOf isEnd (pre ++ (cur ++ [a])) = linesOf isEnd pre ++ [cur ++ [a]] := by
  have hcur : (cur ++ [a]).IsChain fun x _ => !isEnd x := by
    rw [List.isChain_append]
    refine ⟨?_, List.isChain_singleton a, ?_⟩
    · exact List.Pairwise.isChain (List.pairwise_of_forall_mem_list fun x hx y _ => by
        rw [h.noEnd x hx]; rfl)
    · intro x hx y _
      rw [h.noEnd x (List.mem_of_getLast? hx)]
      rfl
  have hne : cur ++ [a] ≠ [] := List.append_ne_nil_of_right_ne_nil _ (List.cons_ne_nil a [])
  rw [linesOf, List.splitBy_append, List.splitBy_of_isChain hne hcur]
  · rfl
  · intro x hx y _
    rw [h.atStart x hx]
    rfl

/-- The lines of a text that is cut. -/
theorem linesOf_eq (h : Cut isEnd pre cur) (hcur : cur ≠ []) :
    linesOf isEnd (pre ++ cur) = linesOf isEnd pre ++ [cur] := by
  obtain rfl | ⟨init, a, rfl⟩ := List.eq_nil_or_concat cur
  · exact absurd rfl hcur
  · rw [List.concat_eq_append] at h ⊢
    refine linesOf_append ⟨h.atStart, fun b hb => h.noEnd b (List.mem_append_left _ hb)⟩ a

/-- Nothing of a line is there exactly if the last symbol ended one. -/
theorem forall_getLast?_iff (h : Cut isEnd pre cur) :
    (∀ a ∈ (pre ++ cur).getLast?, isEnd a) ↔ cur = [] := by
  obtain rfl | ⟨init, a, rfl⟩ := List.eq_nil_or_concat cur
  · rw [List.append_nil]
    exact iff_of_true h.atStart rfl
  · rw [List.concat_eq_append] at h ⊢
    refine iff_of_false ?_ (List.append_ne_nil_of_right_ne_nil _ (List.cons_ne_nil a []))
    intro hlast
    have ha := h.noEnd a (List.mem_append_right _ (List.mem_singleton_self a))
    rw [hlast a (by rw [← List.append_assoc, List.getLast?_concat]; rfl)] at ha
    cases ha

/-- A property of every line, where the empty one is let through. -/
theorem forall_linesOf_iff (h : Cut isEnd pre cur) {P : List α → Prop} (hP : P []) :
    (∀ line ∈ linesOf isEnd (pre ++ cur), P line) ↔
      (∀ line ∈ linesOf isEnd pre, P line) ∧ P cur := by
  by_cases hcur : cur = []
  · subst hcur
    rw [List.append_nil, and_iff_left hP]
  · rw [h.linesOf_eq hcur, List.forall_mem_append, List.forall_mem_singleton]

/-- The same, one symbol later. -/
theorem forall_linesOf_snoc_iff (h : Cut isEnd pre cur) (a : α) {P : List α → Prop} :
    (∀ line ∈ linesOf isEnd (pre ++ (cur ++ [a])), P line) ↔
      (∀ line ∈ linesOf isEnd pre, P line) ∧ P (cur ++ [a]) := by
  rw [h.linesOf_append, List.forall_mem_append, List.forall_mem_singleton]

/-- The line goes on. -/
theorem snoc (h : Cut isEnd pre cur) (ha : isEnd a = false) : Cut isEnd pre (cur ++ [a]) where
  atStart := h.atStart
  noEnd := List.forall_mem_append.mpr ⟨h.noEnd, List.forall_mem_singleton.mpr ha⟩

/-- The line ends. -/
theorem snoc_end (ha : isEnd a) (as : List α) : Cut isEnd (as ++ [a]) [] where
  atStart b hb := by
    rw [List.getLast?_append_of_ne_nil _ (List.cons_ne_nil a []), List.getLast?_singleton] at hb
    rwa [← Option.some.inj hb]
  noEnd := nofun

end Cut

end Exec02
