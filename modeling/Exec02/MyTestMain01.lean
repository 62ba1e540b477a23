import Exec02.Lib.CString
import Exec02.Lib.Machine

/-!
# Scanning for the characters of a set

`MyTestMain01.cpp`: a loop that looks for the vowels of a text. After a match, the loop that is
disabled goes on with the next character. The one in its place adds to the pointer a counter that
grows from match to match: after the first match it goes on one character further, after the second
one two, and so forth.

## Reading the model

The text may be read as far as its NUL. A round of a loop is one call of `strpbrk`, and what it has
found is printed. The two loops differ in how far from the last match they go on.

## Main results

* `reports_iff` — when a loop of this kind finds everything
* `strpbrk_loop_iff` — the loop that is disabled always does, and when the other one does
-/

namespace Exec02

/-- A loop that calls `strpbrk`: its last match, and how many calls there were. -/
structure StrpbrkLoop where
  pch : Option ℕ
  i : ℕ

/-- A loop over `str`, whose call number `i` looks for `key` from `advance i` characters behind the
last match. -/
def strpbrkMachine (str key : CStr) (advance : ℕ → ℕ) : Machine StrpbrkLoop Unit ℕ where
  allowed s _ := s.pch ≠ none
  step s _ := do
    let pch ← s.pch
    let found ← strpbrk (· ∈ key.chars) ((str.chars ++ [0]).drop (pch + advance s.i))
    let pch := found.map (pch + advance s.i + ·)
    return (⟨pch, s.i + 1⟩, pch.toList)

/-- `while ((pch = strpbrk(pch + (i++), key)) != NULL)`, from `pch = str` and `i = 0` on. -/
def activeLoop (str key : CStr) : Machine StrpbrkLoop Unit ℕ := strpbrkMachine str key fun i => i

/-- `pch = strpbrk(str, key)`, and then `pch = strpbrk(pch + 1, key)` while `pch` is not `NULL`. -/
def referenceLoop (str key : CStr) : Machine StrpbrkLoop Unit ℕ :=
  strpbrkMachine str key fun i => if i = 0 then 0 else 1

/-- The loop ends, and these are the matches that it prints. -/
def Reports (M : Machine StrpbrkLoop Unit ℕ) (s : StrpbrkLoop) (positions : List ℕ) : Prop :=
  ∃ calls t, M.Run s calls t positions ∧ t.pch = none

/-- The positions of `str` that have a character of `key`. -/
def keyPositions (str key : CStr) : List ℕ :=
  (List.range str.strlen).filter fun p => str.char p ∈ key.chars

/-- From the last match at `p` and call number `i` on, every call goes on no further than the next
match, and the last call no further than the NUL. -/
def Spaced (advance : ℕ → ℕ) (len : ℕ) : ℕ → ℕ → List ℕ → Prop
  | i, p, [] => p + advance i ≤ len
  | i, p, q :: rest => p + advance i ≤ q ∧ Spaced advance len (i + 1) q rest

instance decidableSpaced (advance : ℕ → ℕ) (len : ℕ) :
    (i p : ℕ) → (rest : List ℕ) → Decidable (Spaced advance len i p rest)
  | i, p, [] => inferInstanceAs (Decidable (p + advance i ≤ len))
  | i, p, q :: rest =>
    have := decidableSpaced advance len (i + 1) q rest
    inferInstanceAs (Decidable (p + advance i ≤ q ∧ Spaced advance len (i + 1) q rest))

variable {str key : CStr} {advance : ℕ → ℕ} {p q i k : ℕ} {rest : List ℕ}

/-! ### One call -/

theorem mem_keyPositions : p ∈ keyPositions str key ↔ p < str.strlen ∧ str.char p ∈ key.chars := by
  simp [keyPositions]

theorem pairwise_keyPositions (str key : CStr) : (keyPositions str key).Pairwise (· < ·) :=
  List.pairwise_lt_range.filter _

theorem getElem?_drop_chars (h : q + k < str.strlen) :
    (str.chars.drop q)[k]? = some (str.char (q + k)) := by
  rw [List.getElem?_drop, CStr.char, List.getD_eq_getElem?_getD]
  rw [List.getElem?_eq_getElem h]
  rfl

/-- **One call**, from a pointer that has not passed the NUL: it finds the next position. -/
theorem strpbrk_at (key : CStr) (hq : q ≤ str.strlen) :
    (strpbrk (· ∈ key.chars) ((str.chars ++ [0]).drop q) = some none ∧
      ∀ p ∈ keyPositions str key, p < q) ∨
    ∃ k, strpbrk (· ∈ key.chars) ((str.chars ++ [0]).drop q) = some (some k) ∧
      q + k ∈ keyPositions str key ∧ ∀ p ∈ keyPositions str key, p < q ∨ q + k ≤ p := by
  have hnul : 0 ∉ str.chars.drop q := fun h => str.no_nul (List.mem_of_mem_drop h)
  rw [List.drop_append_of_le_length hq]
  rcases strpbrk_cases (· ∈ key.chars) hnul [] with
    ⟨hall, hscan⟩ | ⟨field, c, more, hdrop, hfield, hc, hscan⟩
  · refine Or.inl ⟨hscan, ?_⟩
    intro p hp
    obtain ⟨hlt, hkey⟩ := mem_keyPositions.mp hp
    by_contra hle
    obtain ⟨j, rfl⟩ := Nat.exists_eq_add_of_le (not_lt.mp hle)
    have hmem := List.mem_of_getElem? (getElem?_drop_chars hlt)
    exact of_decide_eq_false (hall _ hmem) hkey
  · have hlen : field.length < (str.chars.drop q).length := by
      rw [hdrop, List.length_append, List.length_cons]
      omega
    rw [List.length_drop] at hlen
    have hlt : q + field.length < str.strlen := by
      rw [CStr.strlen]
      omega
    have hchar := getElem?_drop_chars hlt
    rw [hdrop, List.getElem?_append_right le_rfl, Nat.sub_self, List.getElem?_cons_zero] at hchar
    refine Or.inr ⟨field.length, hscan, ?_, ?_⟩
    · exact mem_keyPositions.mpr ⟨hlt, Option.some.inj hchar ▸ of_decide_eq_true hc⟩
    · intro p hp
      obtain ⟨hlt', hkey⟩ := mem_keyPositions.mp hp
      by_contra! hrange
      obtain ⟨hle, hbefore⟩ := hrange
      obtain ⟨j, rfl⟩ := Nat.exists_eq_add_of_le hle
      have hfieldChar := getElem?_drop_chars hlt'
      rw [hdrop, List.getElem?_append_left (by omega)] at hfieldChar
      exact of_decide_eq_false (hfield _ (List.mem_of_getElem? hfieldChar)) hkey

/-- With some of the positions behind the pointer and the others in front of it, the first of those
is found. -/
theorem strpbrk_next {done : List ℕ} (hq : q ≤ str.strlen)
    (hsplit : keyPositions str key = done ++ rest) (hdone : ∀ m ∈ done, m < q)
    (hrest : ∀ m ∈ rest, q ≤ m) :
    ∃ found, strpbrk (· ∈ key.chars) ((str.chars ++ [0]).drop q) = some found ∧
      found.map (q + ·) = rest.head? := by
  rcases strpbrk_at key hq with ⟨hscan, hall⟩ | ⟨k, hscan, hmem, hall⟩
  · refine ⟨none, hscan, ?_⟩
    cases rest with
    | nil => rfl
    | cons r rest =>
      have hr := hall r (hsplit ▸ List.mem_append_right _ List.mem_cons_self)
      exact absurd (hrest r List.mem_cons_self) (not_le.mpr hr)
  · refine ⟨some k, hscan, ?_⟩
    have hsorted := pairwise_keyPositions str key
    rw [hsplit] at hmem hall hsorted
    have hmem : q + k ∈ rest := by
      refine (List.mem_append.mp hmem).resolve_left ?_
      intro h
      exact absurd (hdone _ h) (by omega)
    cases rest with
    | nil => exact absurd hmem List.not_mem_nil
    | cons r rest =>
      have hle := (hall r (List.mem_append_right _ List.mem_cons_self)).resolve_left
        (not_lt.mpr (hrest r List.mem_cons_self))
      rcases List.mem_cons.mp hmem with hfirst | hmem
      · exact congrArg some hfirst
      · have hlt := (List.pairwise_cons.mp (List.pairwise_append.mp hsorted).2.1).1 _ hmem
        omega

/-! ### A loop -/

/-- The machine's step, where `strpbrk` gets a pointer that is good. -/
theorem step_of_strpbrk {found : Option ℕ}
    (h : strpbrk (· ∈ key.chars) ((str.chars ++ [0]).drop (p + advance i)) = some found) :
    (strpbrkMachine str key advance).step ⟨some p, i⟩ () =
      some (⟨found.map (p + advance i + ·), i + 1⟩, (found.map (p + advance i + ·)).toList) := by
  simp [strpbrkMachine, h]

theorem reports_none_iff : Reports (strpbrkMachine str key advance) ⟨none, i⟩ rest ↔ rest = [] := by
  constructor
  · rintro ⟨calls, t, h, -⟩
    cases calls with
    | nil => exact (h.unique .nil).2
    | cons _ calls =>
      obtain ⟨_, _, _, hallowed, -⟩ := h.of_cons
      exact absurd rfl hallowed
  · rintro rfl
    exact ⟨[], _, .nil, rfl⟩

/-- A pointer behind the NUL ends the loop nowhere. -/
theorem not_reports_of_lt (h : str.strlen < p + advance i) :
    ¬ Reports (strpbrkMachine str key advance) ⟨some p, i⟩ rest := by
  rintro ⟨calls, t, hrun, ht⟩
  cases calls with
  | nil =>
    obtain ⟨rfl, -⟩ := hrun.unique .nil
    cases ht
  | cons _ calls =>
    obtain ⟨_, _, _, -, hstep, -⟩ := hrun.of_cons
    have hdrop : (str.chars ++ [0]).drop (p + advance i) = [] := by
      refine List.drop_of_length_le ?_
      rw [List.length_append, List.length_singleton]
      exact h
    simp [strpbrkMachine, hdrop, strpbrk] at hstep

theorem reports_some_iff {found : Option ℕ}
    (h : strpbrk (· ∈ key.chars) ((str.chars ++ [0]).drop (p + advance i)) = some found) :
    Reports (strpbrkMachine str key advance) ⟨some p, i⟩ rest ↔ ∃ rest',
      rest = (found.map (p + advance i + ·)).toList ++ rest' ∧
        Reports (strpbrkMachine str key advance) ⟨found.map (p + advance i + ·), i + 1⟩ rest' := by
  have hstep := step_of_strpbrk h
  constructor
  · rintro ⟨calls, t, hrun, ht⟩
    cases calls with
    | nil =>
      obtain ⟨rfl, -⟩ := hrun.unique .nil
      cases ht
    | cons _ calls =>
      obtain ⟨u, o, rest', -, hstep', hrun', rfl⟩ := hrun.of_cons
      obtain ⟨rfl, rfl⟩ := Prod.mk.inj (Option.some.inj (hstep'.symm.trans hstep))
      exact ⟨rest', rfl, calls, t, hrun', ht⟩
  · rintro ⟨rest', rfl, calls, t, hrun, ht⟩
    exact ⟨() :: calls, t, (Machine.Run.single (Option.some_ne_none p) hstep).append hrun, ht⟩

/-- What is reported first is not behind the pointer. -/
theorem le_of_reports {r : ℕ}
    (h : Reports (strpbrkMachine str key advance) ⟨some p, i⟩ (r :: rest)) : p + advance i ≤ r := by
  rcases Nat.lt_or_ge str.strlen (p + advance i) with hlt | hle
  · exact absurd h (not_reports_of_lt hlt)
  · rcases strpbrk_at key hle with ⟨hscan, -⟩ | ⟨k, hscan, -, -⟩
    · obtain ⟨rest', heq, hnone⟩ := (reports_some_iff hscan).mp h
      rw [reports_none_iff.mp hnone] at heq
      cases heq
    · obtain ⟨rest', heq, -⟩ := (reports_some_iff hscan).mp h
      have hfirst : r = p + advance i + k := (List.cons.inj heq).1
      omega

/-- **What a loop reports.** With the positions up to the last match behind the pointer, a loop that
always goes on by at least one reports the others exactly if it never goes on too far. -/
theorem reports_iff (hadvance : ∀ i, 0 < advance (i + 1)) (done : List ℕ)
    (hsplit : keyPositions str key = done ++ rest) (hdone : ∀ m ∈ done, m < p + advance i) :
    Reports (strpbrkMachine str key advance) ⟨some p, i⟩ rest ↔
      Spaced advance str.strlen i p rest := by
  induction rest generalizing p i done with
  | nil =>
    rcases Nat.lt_or_ge str.strlen (p + advance i) with hlt | hle
    · exact iff_of_false (not_reports_of_lt hlt) (not_le.mpr hlt)
    · obtain ⟨found, hscan, hfound⟩ := strpbrk_next hle hsplit hdone fun _ => nofun
      refine iff_of_true ((reports_some_iff hscan).mpr ⟨[], ?_, ?_⟩) hle
      · rw [hfound]
        rfl
      · rw [hfound]
        exact reports_none_iff.mpr rfl
  | cons r rest ih =>
    by_cases hnext : p + advance i ≤ r
    · have hr : r ∈ keyPositions str key := hsplit ▸ List.mem_append_right _ List.mem_cons_self
      have hsorted := pairwise_keyPositions str key
      rw [hsplit] at hsorted
      obtain ⟨-, hrest, hbefore⟩ := List.pairwise_append.mp hsorted
      have hafter : ∀ m ∈ r :: rest, p + advance i ≤ m := by
        refine List.forall_mem_cons.mpr ⟨hnext, ?_⟩
        intro m hm
        exact hnext.trans ((List.pairwise_cons.mp hrest).1 m hm).le
      obtain ⟨found, hscan, hfound⟩ :=
        strpbrk_next (hnext.trans (mem_keyPositions.mp hr).1.le) hsplit hdone hafter
      -- from `r` on, one call later
      have hpos := hadvance i
      have hdone' : ∀ m ∈ done ++ [r], m < r + advance (i + 1) := by
        refine List.forall_mem_append.mpr ⟨?_, List.forall_mem_singleton.mpr (by omega)⟩
        intro m hm
        have hlt := hbefore m hm r List.mem_cons_self
        omega
      rw [reports_some_iff hscan, hfound, Spaced, and_iff_right hnext,
        ← ih (done ++ [r]) (by rw [hsplit, List.append_assoc]; rfl) hdone']
      constructor
      · rintro ⟨rest', heq, h⟩
        have heq : r :: rest = r :: rest' := heq
        rwa [(List.cons.inj heq).2]
      · exact fun h => ⟨rest, rfl, h⟩
    · exact iff_of_false (fun h => hnext (le_of_reports h)) fun h => hnext h.1

/-- Going on by one is never too far. -/
theorem spaced_one (hle : p + 1 ≤ str.strlen) (hlt : ∀ m ∈ rest, p < m)
    (hrest : rest.Pairwise (· < ·)) (hlen : ∀ m ∈ rest, m < str.strlen) :
    Spaced (fun i => if i = 0 then 0 else 1) str.strlen (i + 1) p rest := by
  induction rest generalizing p i with
  | nil => exact hle
  | cons q rest ih =>
    obtain ⟨hq, hrest⟩ := List.pairwise_cons.mp hrest
    obtain ⟨hqlen, hlen⟩ := List.forall_mem_cons.mp hlen
    exact ⟨hlt q List.mem_cons_self, ih hqlen hq hrest hlen⟩

/-- **The two loops.** The one that is disabled reports every position, in order and once. The other
one does exactly if after the match number `k` the next one, or behind the last one the NUL, is at
least `k` characters away. -/
theorem strpbrk_loop_iff (str key : CStr) :
    Reports (referenceLoop str key) ⟨some 0, 0⟩ (keyPositions str key) ∧
    (Reports (activeLoop str key) ⟨some 0, 0⟩ (keyPositions str key) ↔
      Spaced (fun i => i) str.strlen 0 0 (keyPositions str key)) := by
  constructor
  · refine (reports_iff (fun i => Nat.one_pos) [] (List.nil_append _).symm nofun).mpr ?_
    have hlen : ∀ m ∈ keyPositions str key, m < str.strlen := fun m hm => (mem_keyPositions.mp hm).1
    have hsorted := pairwise_keyPositions str key
    generalize keyPositions str key = positions at hlen hsorted
    cases positions with
    | nil => exact Nat.zero_le _
    | cons q rest =>
      obtain ⟨hq, hrest⟩ := List.pairwise_cons.mp hsorted
      obtain ⟨hqlen, hlen⟩ := List.forall_mem_cons.mp hlen
      exact ⟨Nat.zero_le _, spaced_one hqlen hq hrest hlen⟩
  · exact reports_iff (fun i => Nat.succ_pos i) [] (List.nil_append _).symm nofun

/-- `"This is a sample string"`. -/
def sampleStr : CStr where
  chars := [84, 104, 105, 115, 32, 105, 115, 32, 97, 32, 115, 97, 109, 112, 108, 101, 32, 115, 116,
    114, 105, 110, 103]
  no_nul := by decide

/-- `"aeiou"`. -/
def vowels : CStr where
  chars := [97, 101, 105, 111, 117]
  no_nul := by decide

/-- The last vowel of the text is its sixth, and there are two characters behind it. -/
theorem not_strpbrk_loop : ¬ Reports (activeLoop sampleStr vowels) ⟨some 0, 0⟩
    (keyPositions sampleStr vowels) := by
  have hiff : Reports (activeLoop sampleStr vowels) ⟨some 0, 0⟩ (keyPositions sampleStr vowels) ↔
      Spaced (fun i => i) sampleStr.strlen 0 0 (keyPositions sampleStr vowels) :=
    reports_iff (fun i => Nat.succ_pos i) [] (List.nil_append _).symm nofun
  exact hiff.not.mpr (by decide)

end Exec02
