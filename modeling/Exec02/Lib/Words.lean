import Exec02.Lib.CString

/-!
# The words of a text that comes in pieces

A text is cut into words at its delimiters, and before that into pieces, for whatever reason. Where
two pieces meet inside a word it comes out as two words; nothing else is changed by the cutting.

## Main results

* `tokens_append_of_not_cuts`, `length_tokens_append` — one cut
* `length_flatMap_tokens`, `flatMap_tokens_iff` — any number of them
* `flatten_tokens` — no character of a word is lost
-/

namespace Exec02

/-! ### One cut -/

/-- A text begins, or ends, in a word. -/
def startsWord (delim : UInt8 → Bool) (s : List UInt8) : Bool := s.head?.any (!delim ·)

def endsWord (delim : UInt8 → Bool) (s : List UInt8) : Bool := s.getLast?.any (!delim ·)

/-- The place between two pieces is inside a word. -/
def cutsWord (delim : UInt8 → Bool) (s s' : List UInt8) : Bool :=
  endsWord delim s && startsWord delim s'

variable {delim : UInt8 → Bool} {b : UInt8} {s s' : List UInt8}

theorem tokens_cons_of_delim (hb : delim b) (s : List UInt8) :
    tokens delim (b :: s) = tokens delim s := by
  simp [tokens, List.splitOnP_cons_eq_if_modifyHead, hb]

/-- A character in front of no word is one of its own. -/
theorem tokens_cons_of_not_startsWord (hb : delim b = false) (hs : startsWord delim s = false) :
    tokens delim (b :: s) = [b] :: tokens delim s := by
  cases s with
  | nil => simp [tokens, List.splitOnP_cons_eq_if_modifyHead, hb]
  | cons c s =>
    have hc : delim c := by simpa [startsWord] using hs
    simp [tokens, List.splitOnP_cons_eq_if_modifyHead, hb, hc]

/-- A character in front of a word belongs to it. -/
theorem tokens_cons_of_startsWord (hb : delim b = false) (hs : startsWord delim s) :
    tokens delim (b :: s) = (tokens delim s).modifyHead (b :: ·) ∧ tokens delim s ≠ [] := by
  cases s with
  | nil => simp [startsWord] at hs
  | cons c s =>
    have hc : delim c = false := by simpa [startsWord] using hs
    obtain ⟨field, fields, hsplit⟩ : ∃ field fields, s.splitOnP delim = field :: fields :=
      List.exists_cons_of_ne_nil (List.splitOnP_ne_nil delim s)
    simp [tokens, List.splitOnP_cons_eq_if_modifyHead, hb, hc, hsplit]

theorem endsWord_cons (a : UInt8) (h : endsWord delim s) : endsWord delim (a :: s) := by
  cases s with
  | nil => simp [endsWord] at h
  | cons c s => simpa [endsWord] using h

theorem startsWord_append (delim : UInt8 → Bool) (hs : s ≠ []) (s' : List UInt8) :
    startsWord delim (s ++ s') = startsWord delim s := by
  cases s with
  | nil => exact absurd rfl hs
  | cons c s => rfl

/-- **Between words.** Where a text is cut outside a word, its words are those of the pieces. -/
theorem tokens_append_of_not_cuts (h : cutsWord delim s s' = false) :
    tokens delim (s ++ s') = tokens delim s ++ tokens delim s' := by
  induction s with
  | nil => rfl
  | cons b s ih =>
    have hrest : cutsWord delim s s' = false := by
      by_contra hcuts
      rw [Bool.not_eq_false, cutsWord, Bool.and_eq_true] at hcuts
      rw [cutsWord, endsWord_cons b hcuts.1, hcuts.2] at h
      cases h
    have ih := ih hrest
    rw [List.cons_append]
    cases hb : delim b with
    | true => rw [tokens_cons_of_delim hb, tokens_cons_of_delim hb, ih]
    | false =>
      cases s with
      | nil =>
        have hs' : startsWord delim s' = false := by
          simpa [cutsWord, endsWord, hb] using h
        rw [List.nil_append, tokens_cons_of_not_startsWord hb hs',
          tokens_cons_of_not_startsWord hb rfl]
        rfl
      | cons c s =>
        have hsame := startsWord_append delim (List.cons_ne_nil c s) s'
        cases hstart : startsWord delim (c :: s) with
        | true =>
          obtain ⟨heq, hne⟩ := tokens_cons_of_startsWord hb hstart
          rw [(tokens_cons_of_startsWord hb (hsame.trans hstart)).1, ih, heq]
          obtain ⟨token, rest, htokens⟩ := List.exists_cons_of_ne_nil hne
          rw [htokens]
          rfl
        | false =>
          rw [tokens_cons_of_not_startsWord hb (hsame.trans hstart),
            tokens_cons_of_not_startsWord hb hstart, ih]
          rfl

/-- **Inside a word.** Where a text is cut inside a word, that word comes out as two. -/
theorem length_tokens_append (h : cutsWord delim s s') :
    (tokens delim (s ++ s')).length + 1 = (tokens delim s).length + (tokens delim s').length := by
  have hends : endsWord delim s := (Bool.and_eq_true _ _ ▸ h).1
  have hstarts : startsWord delim s' := (Bool.and_eq_true _ _ ▸ h).2
  clear h
  induction s with
  | nil => simp [endsWord] at hends
  | cons b s ih =>
    rw [List.cons_append]
    cases s with
    | nil =>
      have hb : delim b = false := by simpa [endsWord] using hends
      rw [List.nil_append, (tokens_cons_of_startsWord hb hstarts).1, List.length_modifyHead,
        tokens_cons_of_not_startsWord hb rfl]
      exact Nat.add_comm _ _
    | cons c s =>
      have ih := ih (by simpa [endsWord] using hends)
      have hsame := startsWord_append delim (List.cons_ne_nil c s) s'
      cases hb : delim b with
      | true => rw [tokens_cons_of_delim hb, tokens_cons_of_delim hb, ih]
      | false =>
        cases hstart : startsWord delim (c :: s) with
        | true =>
          rw [(tokens_cons_of_startsWord hb (hsame.trans hstart)).1,
            (tokens_cons_of_startsWord hb hstart).1, List.length_modifyHead, List.length_modifyHead,
            ih]
        | false =>
          rw [tokens_cons_of_not_startsWord hb (hsame.trans hstart),
            tokens_cons_of_not_startsWord hb hstart, List.length_cons, List.length_cons, ih]
          omega

/-- The words of a text are its characters that are no delimiters, in order. -/
theorem flatten_tokens (delim : UInt8 → Bool) (s : List UInt8) :
    (tokens delim s).flatten = s.filter (!delim ·) := by
  induction s with
  | nil => rfl
  | cons b s ih =>
    cases hb : delim b with
    | true => rw [tokens_cons_of_delim hb, ih, List.filter_cons_of_neg (by simp [hb])]
    | false =>
      rw [List.filter_cons_of_pos (by simp [hb]), ← ih]
      cases hstart : startsWord delim s with
      | true =>
        obtain ⟨heq, hne⟩ := tokens_cons_of_startsWord hb hstart
        obtain ⟨token, rest, htokens⟩ := List.exists_cons_of_ne_nil hne
        rw [heq, htokens]
        rfl
      | false =>
        rw [tokens_cons_of_not_startsWord hb hstart]
        rfl

/-! ### Any number of pieces -/

/-- The places between pieces that are inside a word. -/
def cutCount (delim : UInt8 → Bool) : List (List UInt8) → ℕ
  | s :: s' :: pieces => (if cutsWord delim s s' then 1 else 0) + cutCount delim (s' :: pieces)
  | _ => 0

variable {pieces : List (List UInt8)}

theorem cutsWord_flatten (delim : UInt8 → Bool) (s : List UInt8) (hs' : s' ≠ [])
    (pieces : List (List UInt8)) :
    cutsWord delim s (s' :: pieces).flatten = cutsWord delim s s' := by
  rw [List.flatten_cons, cutsWord, startsWord_append delim hs', cutsWord]

/-- **How many words.** There is one more for every cut inside a word. -/
theorem length_flatMap_tokens (delim : UInt8 → Bool) (hpieces : ∀ s ∈ pieces, s ≠ []) :
    (pieces.flatMap (tokens delim)).length =
      (tokens delim pieces.flatten).length + cutCount delim pieces := by
  induction pieces with
  | nil => rfl
  | cons s pieces ih =>
    have ih := ih fun s hs => hpieces s (List.mem_cons_of_mem _ hs)
    rw [List.flatMap_cons, List.length_append, ih, List.flatten_cons]
    cases pieces with
    | nil => simp [cutCount, tokens]
    | cons s' pieces =>
      have hs' : s' ≠ [] := hpieces s' (by simp)
      have hcuts := cutsWord_flatten delim s hs' pieces
      rw [cutCount]
      split_ifs with hcut
      · have hlen := length_tokens_append (hcuts.trans hcut)
        omega
      · rw [Bool.not_eq_true] at hcut
        rw [tokens_append_of_not_cuts (hcuts.trans hcut), List.length_append]
        omega

/-- **Which words.** They are those of the whole text exactly if there is no cut inside a word. -/
theorem flatMap_tokens_iff (delim : UInt8 → Bool) (hpieces : ∀ s ∈ pieces, s ≠ []) :
    pieces.flatMap (tokens delim) = tokens delim pieces.flatten ↔ cutCount delim pieces = 0 := by
  constructor
  · intro heq
    have hlen := length_flatMap_tokens delim hpieces
    rw [heq] at hlen
    omega
  · intro hnone
    induction pieces with
    | nil => rfl
    | cons s pieces ih =>
      cases pieces with
      | nil => simp
      | cons s' pieces =>
        have hs' : s' ≠ [] := hpieces s' (by simp)
        rw [cutCount, Nat.add_eq_zero_iff] at hnone
        obtain ⟨hcut, hnone⟩ := hnone
        have ih := ih (fun s hs => hpieces s (List.mem_cons_of_mem _ hs)) hnone
        have hcut : cutsWord delim s (s' :: pieces).flatten = false := by
          rw [cutsWord_flatten delim s hs']
          by_contra h
          rw [Bool.not_eq_false] at h
          rw [if_pos h] at hcut
          cases hcut
        rw [List.flatMap_cons, List.flatten_cons, tokens_append_of_not_cuts hcut, ih]

end Exec02
