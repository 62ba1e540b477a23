import Exec02.Lib.Words

/-!
# One word a line

`Exec02.c`: the words of the standard input, one on each line. The input is read with `fgets`, at
most `MAXLINE - 1` characters at a time, and each piece is cut into words with `strtok`. A piece
ends behind a newline, or where the array is full; and where the array is full in the middle of a
word the word comes out as two.

## Reading the model

`strtok` remembers in a static variable where it is to go on, which is what is left of the string;
the character it has written into the array is one it will not look at again. What is printed is a
list of lines.

## Main results

* `main_eq` — what is printed, of any input
* `words_iff` — which inputs come out right
-/

namespace Exec02

namespace Words

/-- `MAXLINE`. -/
def maxLine : ℕ := 500

/-- `" \n"`. -/
def isDelim (b : UInt8) : Bool := b = 32 || b = 10

/-- What `fgets(line, n, stdin)` takes of the input: all up to a newline, as far as there is room
for it and a NUL. -/
def piece (n : ℕ) (input : List UInt8) : List UInt8 :=
  let front := input.take (n - 1)
  front.take ((front.takeWhile (· ≠ 10)).length + 1)

/-- `strtok(str, " \n")`, where `saved` is the static variable, and `str` is `NULL` for the word
that comes next. -/
def strtok (str : Option (List UInt8)) (saved : List UInt8) :
    Option (List UInt8) × List UInt8 :=
  match strtokS isDelim (str.getD saved) with
  | none => (none, [])
  | some (tok, rest) => (some tok, rest)

theorem strtok_none {saved tok rest : List UInt8} :
    strtok none saved = (some tok, rest) ↔ strtokS isDelim saved = some (tok, rest) := by
  simp only [strtok, Option.getD_none]
  cases strtokS isDelim saved with
  | none => simp
  | some r => simp [Prod.ext_iff]

/-- The inner `while`: the words that are left in a line. -/
def subsequent (saved : List UInt8) : List (List UInt8) :=
  match _h : strtok none saved with
  | (none, _) => []
  | (some tok, saved) => tok :: subsequent saved
  termination_by saved.length
  decreasing_by exact length_lt_of_strtokS (strtok_none.mp _h)

theorem piece_ne_nil {input : List UInt8} (h : input ≠ []) : piece maxLine input ≠ [] := by
  cases input with
  | nil => exact absurd rfl h
  | cons b input => simp [piece, maxLine]

theorem length_drop_piece {input : List UInt8} (h : input ≠ []) :
    (input.drop (piece maxLine input).length).length < input.length := by
  have hpiece := List.length_pos_iff.mpr (piece_ne_nil h)
  have hinput := List.length_pos_iff.mpr h
  rw [List.length_drop]
  omega

/-- The outer `while` of `main`, with the words that are printed. -/
def main (line : Buffer maxLine) (input : List UInt8) : Option (List (List UInt8)) :=
  if _h : input = [] then some []
  else do
    let data := piece maxLine input
    let line ← line.write 0 (data ++ [0])
    let (tok, saved) := strtok (some (cstr line.bytes)) []
    let more ← main line (input.drop data.length)
    return tok.toList ++ subsequent saved ++ more
  termination_by input.length
  decreasing_by exact length_drop_piece _h

/-- The pieces in which the input is read. -/
def pieces (input : List UInt8) : List (List UInt8) :=
  if _h : input = [] then []
  else piece maxLine input :: pieces (input.drop (piece maxLine input).length)
  termination_by input.length
  decreasing_by exact length_drop_piece _h

/-! ### A line -/

/-- What `strtok` hands out, call after call, are the words of the string. -/
theorem subsequent_eq (saved : List UInt8) : subsequent saved = tokens isDelim saved := by
  induction saved using subsequent.induct with
  | case1 saved rest h =>
    have hnone : strtokS isDelim saved = none := by
      cases hs : strtokS isDelim saved with
      | none => rfl
      | some r =>
        rw [strtok_none.mpr hs] at h
        cases h
    rw [tokens_eq_nil_iff.mpr hnone, subsequent]
    split
    · rfl
    · next heq =>
      rw [heq] at h
      cases h
  | case2 saved tok rest h ih =>
    rw [tokens_eq_cons_iff.mpr ⟨rest, strtok_none.mp h, rfl⟩, subsequent]
    split
    · next heq =>
      rw [heq] at h
      cases h
    · next heq =>
      rw [heq, Prod.mk.injEq, Option.some.injEq] at h
      obtain ⟨rfl, rfl⟩ := h
      rw [ih]

/-! ### The input -/

theorem length_piece_le (input : List UInt8) : (piece maxLine input).length ≤ 499 := by
  simp only [piece, maxLine, List.length_take]
  omega

theorem piece_isPrefix (n : ℕ) (input : List UInt8) : piece n input <+: input :=
  (List.take_prefix _ _).trans (List.take_prefix _ _)

theorem piece_append_drop (n : ℕ) (input : List UInt8) :
    piece n input ++ input.drop (piece n input).length = input :=
  List.prefix_iff_eq_append.mp (piece_isPrefix n input)

/-- The pieces are the input, and none of them is empty. -/
theorem flatten_pieces (input : List UInt8) : (pieces input).flatten = input := by
  induction input using pieces.induct with
  | case1 => rw [pieces, dif_pos rfl, List.flatten_nil]
  | case2 input hne ih => rw [pieces, dif_neg hne, List.flatten_cons, ih, piece_append_drop]

theorem ne_nil_of_mem_pieces {input p : List UInt8} (hp : p ∈ pieces input) : p ≠ [] := by
  induction input using pieces.induct with
  | case1 =>
    rw [pieces, dif_pos rfl] at hp
    cases hp
  | case2 input hne ih =>
    rw [pieces, dif_neg hne] at hp
    rcases List.mem_cons.mp hp with rfl | hp
    · exact piece_ne_nil hne
    · exact ih hp

/-- **What is printed.** The words of every piece, as far as its first NUL. -/
theorem main_eq (line : Buffer maxLine) (input : List UInt8) :
    main line input = some ((pieces input).flatMap fun p => tokens isDelim (cstr p)) := by
  induction input using pieces.induct generalizing line with
  | case1 =>
    rw [main, dif_pos rfl, pieces, dif_pos rfl]
    rfl
  | case2 input hne ih =>
    have hroom : (piece maxLine input ++ [0]).length ≤ maxLine := by
      have hlen := length_piece_le input
      rw [List.length_append]
      exact Nat.succ_le_succ hlen
    obtain ⟨line', hwrite, hbytes⟩ := line.exists_write_zero hroom
    have hcstr : cstr line'.bytes = cstr (piece maxLine input) := by
      rw [hbytes, List.append_assoc, List.singleton_append, cstr_append_zero]
    rw [main, dif_neg hne, pieces, dif_neg hne, List.flatMap_cons,
      tokens_of_strtokS isDelim (cstr (piece maxLine input))]
    simp only [hwrite, Option.bind_eq_bind, Option.bind_some, hcstr, strtok, Option.getD_some, ih]
    cases strtokS isDelim (cstr (piece maxLine input)) with
    | none => simp [subsequent_eq, tokens]
    | some r => simp [subsequent_eq]

/-! ### Where a word is cut -/

/-- A piece that has no newline at its end has filled the array, or is all there was. -/
theorem piece_cases (input : List UInt8) :
    (∃ front, piece maxLine input = front ++ [10]) ∨
      10 ∉ piece maxLine input ∧
        ((piece maxLine input).length = 499 ∨ piece maxLine input = input) := by
  have hroom : (input.take (maxLine - 1)).length = min 499 input.length := List.length_take
  have hsplit := List.takeWhile_append_dropWhile (p := (· ≠ 10)) (l := input.take (maxLine - 1))
  simp only [piece]
  generalize hfront : (input.take (maxLine - 1)).takeWhile (· ≠ 10) = front at hsplit
  cases hrest : (input.take (maxLine - 1)).dropWhile (· ≠ 10) with
  | nil =>
    rw [hrest, List.append_nil] at hsplit
    have hnotMem : 10 ∉ front := by
      intro hmem
      rw [← hfront] at hmem
      simpa using List.mem_takeWhile_imp hmem
    rw [← hsplit, List.take_of_length_le (Nat.le_succ _)]
    rw [← hsplit] at hroom
    refine .inr ⟨hnotMem, ?_⟩
    rcases Nat.le_total 499 input.length with hlong | hshort
    · exact .inl (hroom.trans (Nat.min_eq_left hlong))
    · exact .inr (hsplit.trans (List.take_of_length_le hshort))
  | cons b rest =>
    have hb : b = 10 := by
      have h := List.head?_dropWhile_not (· ≠ 10) (input.take (maxLine - 1))
      rw [hrest] at h
      simpa using h
    rw [hrest, hb] at hsplit
    refine .inl ⟨front, ?_⟩
    rw [← hsplit, List.append_cons, List.take_left' (by simp)]

/-- No line is longer than what fits into the array. -/
def Narrow (input : List UInt8) : Prop :=
  ∀ front run rest, input = front ++ run ++ rest → 10 ∉ run → run.length ≤ 499

theorem Narrow.drop {input : List UInt8} (h : Narrow input) (n : ℕ) : Narrow (input.drop n) := by
  intro front run rest heq hrun
  refine h (input.take n ++ front) run rest ?_ hrun
  rw [List.append_assoc, List.append_assoc, ← List.append_assoc front, ← heq, List.take_append_drop]

/-- In an input of such lines no word is cut. -/
theorem Narrow.cutCount_eq_zero {input : List UInt8} (h : Narrow input) :
    cutCount isDelim (pieces input) = 0 := by
  induction input using pieces.induct with
  | case1 =>
    rw [pieces, dif_pos rfl]
    rfl
  | case2 input hne ih =>
    have ih := ih (h.drop _)
    have hflatten := flatten_pieces (input.drop (piece maxLine input).length)
    rw [pieces, dif_neg hne]
    cases hmore : pieces (input.drop (piece maxLine input).length) with
    | nil => rfl
    | cons p ps =>
      rw [hmore] at ih hflatten
      rw [cutCount, ih, Nat.add_zero, if_neg]
      intro hcut
      rw [cutsWord, Bool.and_eq_true] at hcut
      obtain ⟨hends, hstarts⟩ := hcut
      -- The word goes on behind the piece, so the piece was not the end of the line.
      obtain ⟨b, p, rfl⟩ : ∃ b p', p = b :: p' := by
        cases p with
        | nil => simp [startsWord] at hstarts
        | cons b p => exact ⟨b, p, rfl⟩
      have hb : b ≠ 10 := by
        rintro rfl
        simp [startsWord, isDelim] at hstarts
      have hinput := piece_append_drop maxLine input
      rw [← hflatten] at hinput
      rcases piece_cases input with ⟨front, hnewline⟩ | ⟨hline, hfull | hall⟩
      · rw [hnewline] at hends
        simp [endsWord, isDelim] at hends
      · have hlen := h [] (piece maxLine input ++ [b]) (p ++ ps.flatten)
          (by simpa using hinput.symm) (by simp [hline, Ne.symm hb])
        rw [List.length_append, hfull, List.length_singleton] at hlen
        exact absurd hlen (by decide)
      · rw [hall] at hinput
        simp at hinput

/-- **The words.** Of an input without NUL the program prints every character that is no delimiter,
in order; it prints one line more than there are words for each word that lies across the end of a
piece, and the words themselves exactly if there is none, as when no line is longer than 499. -/
theorem words_iff (line : Buffer maxLine) {input : List UInt8} (hinput : 0 ∉ input) :
    ∃ out, main line input = some out ∧ out.flatten = input.filter (!isDelim ·) ∧
      out.length = (tokens isDelim input).length + cutCount isDelim (pieces input) ∧
      (out = tokens isDelim input ↔ cutCount isDelim (pieces input) = 0) ∧
      (Narrow input → out = tokens isDelim input) := by
  have hpieces : ∀ p ∈ pieces input, p ≠ [] := fun p hp => ne_nil_of_mem_pieces hp
  have hcstr : ∀ p ∈ pieces input, cstr p = p := by
    intro p hp
    refine cstr_of_ne_nul fun b hb hzero => hinput ?_
    rw [← flatten_pieces input, ← hzero]
    exact List.mem_flatten.mpr ⟨p, hp, hb⟩
  have hout : ((pieces input).flatMap fun p => tokens isDelim (cstr p)) =
      (pieces input).flatMap (tokens isDelim) :=
    congrArg List.flatten (List.map_congr_left fun p hp => by rw [hcstr p hp])
  have hiff := flatMap_tokens_iff isDelim hpieces
  have hlen := length_flatMap_tokens isDelim hpieces
  rw [flatten_pieces] at hiff hlen
  refine ⟨_, (main_eq line input).trans (congrArg some hout), ?_, hlen, hiff, ?_⟩
  · rw [List.flatMap_def, List.flatten_flatten, List.map_map]
    have hfilter : (List.flatten ∘ tokens isDelim) = fun p => p.filter (!isDelim ·) :=
      funext (flatten_tokens isDelim)
    rw [hfilter, ← List.filter_flatten, flatten_pieces]
  · exact fun hnarrow => hiff.mpr hnarrow.cutCount_eq_zero

/-- A word that ends in the second piece. -/
theorem cutCount_replicate {n : ℕ} (h : 499 < n) (h' : n ≤ 998) :
    cutCount isDelim (pieces (List.replicate n 97)) = 1 := by
  have hpiece (m : ℕ) : piece maxLine (List.replicate m 97) = List.replicate (min 499 m) 97 := by
    simp [piece, maxLine, List.take_replicate]
  have hpieces : pieces (List.replicate n 97) =
      [List.replicate 499 97, List.replicate (n - 499) 97] := by
    rw [pieces, dif_neg (by simp; omega), hpiece, List.length_replicate, List.drop_replicate,
      Nat.min_eq_left h.le, pieces, dif_neg (by simp; omega), hpiece, List.length_replicate,
      List.drop_replicate, Nat.min_eq_right (by omega), Nat.sub_self, pieces,
      dif_pos List.replicate_zero]
  have hrest : n - 499 ≠ 0 := by omega
  rw [hpieces]
  simp [cutCount, cutsWord, endsWord, startsWord, isDelim, hrest, List.getLast?_replicate,
    List.head?_replicate, -List.reduceReplicate]

theorem tokens_replicate {n : ℕ} (h : n ≠ 0) :
    tokens isDelim (List.replicate n 97) = [List.replicate n 97] := by
  rw [tokens, List.splitOnP_eq_singleton]
  · simp [h]
  · intro b hb
    rw [List.eq_of_mem_replicate hb]
    rfl

/-- A word of 600 letters comes out as two. -/
theorem words_iff_long : ∃ out,
    main ⟨List.replicate maxLine 0, List.length_replicate⟩ (List.replicate 600 97) = some out ∧
      out.length = 2 := by
  have hinput : 0 ∉ List.replicate 600 (97 : UInt8) := by
    rw [List.mem_replicate]
    decide
  obtain ⟨out, hout, -, hlen, -, -⟩ :=
    words_iff ⟨List.replicate maxLine 0, List.length_replicate⟩ hinput
  refine ⟨out, hout, ?_⟩
  rw [hlen, cutCount_replicate (by decide) (by decide), tokens_replicate (by decide)]
  rfl

end Words

end Exec02
