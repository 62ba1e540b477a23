import Exec02.Lib.Border
import Exec02.Lib.CString
import Exec02.Lib.Heap
import Exec02.Lib.Machine
import Mathlib.Data.Finset.Range
import Mathlib.Data.List.Range
import Mathlib.Tactic.Ring

/-!
# The pattern search of `FileTransMain.cpp`

`kmp` searches a text for a pattern without ever backing up in it: when the next character does not
extend the match, the match falls back to its longest border, which `getPi` has tabulated. The
places it finds are the front of an array of `int`s as long as the text, and `-1` fills the rest.
`intslen` counts what is in such an array with two callbacks, one for the end and one for the cells
that count.

## Reading the model

* lengths and indices are without a bound. The search of `main` reads lines into buffers of
  `LINE_SIZE` bytes, which is `1024 * 1024`, so that no `(int)strlen` wraps
* `malloc` answers `NULL` or a block with whatever is in it, and the blocks are the two arrays.
  Outside of them there is nothing to load and nowhere to store
* `fuel` bounds the turns of a loop that is not counted. Running out of it is `none`, and so is an
  access outside an array or behind a NUL
* `kmp` answers what it returns and what is behind `ansi`; the table is freed on the way

## Main results

* `getPi_spec`, `getPi_borders` — the table has the longest border of every prefix
* `kmp_finds_occurrences` — the array is the list of all the occurrences
* `intslen_eq_ansi_iff` — `intslen` counts the same, unless the pattern is at the very front
* `kmp_endMarker_iff` — there is a negative cell, unless all of the text is one character and that
  is the pattern
-/

namespace Exec02

/-! ### The source -/

/-- `while (j > 0 && s[i] != p[j]) j = pi[j - 1];`. -/
def fallBack (s p : CStr) (pi : Option (Heap ℕ ℕ)) (i : ℕ) : ℕ → ℕ → Option ℕ
  | 0, _ => none
  | fuel + 1, j =>
    if 0 < j then do
      if (← s.get i) = (← p.get j) then return j
      fallBack s p pi i fuel (← (← pi).load (j - 1))
    else some j

/-- `malloc` of `n` cells and `memset`: all of them hold the same. -/
def memsetCells {β : Type*} (n : ℕ) (v : β) (prior : ℕ → β) : Heap ℕ β :=
  ⟨fun k => if k < n then v else prior k, Finset.range n⟩

/-- The body of the loop of `getPi`, on `pi` and `j`. -/
def getPi.turn (fuel : ℕ) (p : CStr) : Heap ℕ ℕ × ℕ → ℕ → Option (Heap ℕ ℕ × ℕ)
  | (pi, j), i => do
    let j ← fallBack p p (some pi) i fuel j
    if (← p.get i) = (← p.get j) then
      let pi ← pi.store i (j + 1)
      return (pi, j + 1)
    return (pi, j)

/-- `getPi`. -/
def getPi (fuel : ℕ) (malloc : Option (ℕ → ℕ)) (p : CStr) : Option (Option (Heap ℕ ℕ)) :=
  match malloc with
  | none => some none
  | some prior => do
    let m := p.strlen
    let (pi, _) ← (List.range' 1 (m - 1)).foldlM (getPi.turn fuel p) (memsetCells m 0 prior, 0)
    return some pi

/-- `ans`, `*ansi` and `j`, while `kmp` runs. -/
structure Search where
  ans : Heap ℕ ℤ
  ansi : ℕ
  j : ℕ

/-- The body of the loop of `kmp`. -/
def kmp.turn (fuel : ℕ) (s p : CStr) (pi : Option (Heap ℕ ℕ)) (st : Search) (i : ℕ) :
    Option Search := do
  let m := p.strlen
  let j ← fallBack s p pi i fuel st.j
  if (← s.get i) = (← p.get j) then
    if j + 1 = m then
      let ans ← st.ans.store st.ansi (i - m + 1)
      let j ← (← pi).load j
      return { ans, ansi := st.ansi + 1, j }
    return { st with j := j + 1 }
  return { st with j }

/-- `kmp`, with what `malloc` answers to `getPi` and to `kmp` itself. -/
def kmp (fuel : ℕ) (mallocPi : Option (ℕ → ℕ)) (mallocAns : Option (ℕ → ℤ)) (s p : CStr) :
    Option (Option (Heap ℕ ℤ × ℕ)) := do
  let pi ← getPi fuel mallocPi p
  let n := s.strlen
  match mallocAns with
  | none => return none
  | some prior =>
    let st ← (List.range' 0 n).foldlM (kmp.turn fuel s p pi) ⟨memsetCells n (-1) prior, 0, 0⟩
    return some (st.ans, st.ansi)

/-- The loop of `intslen`, from `i` on. -/
def intslen.loop (ar : Heap ℕ ℤ) (isValue isEnd : ℤ → Bool) : ℕ → ℕ → ℕ → Option ℕ
  | 0, _, _ => none
  | fuel + 1, i, cnt => do
    if isEnd (← ar.load i) then return cnt
    if isValue (← ar.load i) then intslen.loop ar isValue isEnd fuel (i + 1) (cnt + 1)
    else intslen.loop ar isValue isEnd fuel (i + 1) cnt

/-- `intslen`, with callbacks that look at the `int` they are pointed to. -/
def intslen (fuel : ℕ) (ar : Heap ℕ ℤ) (isValue isEnd : ℤ → Bool) : Option ℕ :=
  intslen.loop ar isValue isEnd fuel 0 0

def isIntArrEnd (v : ℤ) : Bool := v < 0

def isValueSet (v : ℤ) : Bool := v > 0

variable {s p : CStr} {fuel fuel' i j lim : ℕ} {pi : Heap ℕ ℕ}
  {mallocPi : Option (ℕ → ℕ)} {mallocAns : Option (ℕ → ℤ)}

/-! ### Falling back -/

/-- The part of the table that is there: the longest borders of the prefixes up to `i`. -/
def Tabulates (p : CStr) (pi : Heap ℕ ℕ) (i : ℕ) : Prop :=
  ∀ k < i, Longest p.char p.char (k + 1) (k + 1) (pi.cell k)

/-- The fall back ends, with a match that the next character extends or with none at all. -/
theorem fallBack_spec (hlim : lim ≤ p.strlen) (hi : i ≤ s.strlen)
    (hlive : pi.live = Finset.range p.strlen) (htable : Tabulates p pi (lim - 1))
    (h : Falling p.char s.char lim i j) (hfuel : j < fuel) :
    ∃ j', fallBack s p (some pi) i fuel j = some j' ∧ Falling p.char s.char lim i j' ∧
      (j' = 0 ∨ p.char j' = s.char i) := by
  induction fuel generalizing j with
  | zero => omega
  | succ fuel ih =>
    have hj := h.lt
    rw [fallBack, CStr.get_of_le hi, CStr.get_of_le (show j ≤ p.strlen by omega)]
    by_cases hpos : 0 < j
    · rw [if_pos hpos]
      by_cases heq : s.char i = p.char j
      · exact ⟨j, if_pos heq, h, Or.inr heq.symm⟩
      · have hborder : Longest p.char p.char j j (pi.cell (j - 1)) := by
          have := htable (j - 1) (by omega)
          rwa [show j - 1 + 1 = j by omega] at this
        have hmem : j - 1 ∈ pi.live := by
          rw [hlive, Finset.mem_range]
          omega
        have hb := hborder.lt
        obtain ⟨j', hrun, hspec⟩ := ih (h.step (Ne.symm heq) hborder) (by omega)
        refine ⟨j', ?_, hspec⟩
        rw [← hrun]
        simp [heq, Heap.load_of_mem hmem]
    · obtain rfl : j = 0 := by omega
      exact ⟨0, if_neg hpos, h, Or.inl rfl⟩

/-! ### The table -/

/-- What holds of `pi` and `j` in front of the turn with `i`. -/
structure Tabulating (p : CStr) (i : ℕ) (st : Heap ℕ ℕ × ℕ) : Prop where
  live : st.1.live = Finset.range p.strlen
  table : Tabulates p st.1 i
  rest : ∀ k, i ≤ k → k < p.strlen → st.1.cell k = 0
  current : Longest p.char p.char i i st.2

/-- The table with one more entry. -/
theorem Tabulates.snoc {pi' : Heap ℕ ℕ} (h : Tabulates p pi i)
    (hsame : ∀ k < i, pi'.cell k = pi.cell k)
    (hi : Longest p.char p.char (i + 1) (i + 1) (pi'.cell i)) : Tabulates p pi' (i + 1) := by
  intro k hk
  rcases Nat.lt_succ_iff_lt_or_eq.mp hk with hk | rfl
  · rw [hsame k hk]
    exact h k hk
  · exact hi

theorem getPi.turn_spec {st : Heap ℕ ℕ × ℕ} (hi : i < p.strlen) (hfuel : p.strlen ≤ fuel)
    (h : Tabulating p i st) :
    ∃ st', getPi.turn fuel p st i = some st' ∧ Tabulating p (i + 1) st' := by
  obtain ⟨pi, j⟩ := st
  obtain ⟨hlive, htable, hrest, hcurrent⟩ := h
  simp only at hlive htable hrest hcurrent
  have hj := hcurrent.lt
  obtain ⟨j', hrun, hfall, hexit⟩ := fallBack_spec hi.le hi.le hlive
    (fun k hk => htable k (by omega)) hcurrent.falling (show j < fuel by omega)
  have hj' := hfall.lt
  have hgi := CStr.get_of_le hi.le
  have hgj : p.get j' = some (p.char j') := CStr.get_of_le (by omega)
  have hmem : i ∈ pi.live := by rwa [hlive, Finset.mem_range]
  by_cases heq : p.char i = p.char j'
  · have hnew := hfall.extend heq.symm (show j' + 1 < i + 1 by omega) le_rfl
    refine ⟨(⟨Function.update pi.cell i (j' + 1), pi.live⟩, j' + 1), ?_, hlive, ?_, ?_, hnew⟩
    · simp [getPi.turn, hrun, hgi, hgj, heq, Heap.store_of_mem hmem]
    · refine htable.snoc (fun k hk => Function.update_of_ne hk.ne _ _) ?_
      simpa using hnew
    · intro k hik hk
      exact (Function.update_of_ne (by omega) _ _).trans (hrest k (by omega) hk)
  · -- `pi[i]` keeps the zero of `memset`
    obtain rfl : j' = 0 := hexit.resolve_right (Ne.symm heq)
    have hnew := hfall.restart (Ne.symm heq) (Nat.succ_pos i) le_rfl
    refine ⟨(pi, 0), ?_, hlive, ?_, fun k hik => hrest k (by omega), hnew⟩
    · simp [getPi.turn, hrun, hgi, hgj, heq]
    · refine htable.snoc (fun k _ => rfl) ?_
      rwa [hrest i le_rfl hi]

/-- **The table.** `pi[k]` is the length of the longest border of the first `k + 1` characters. -/
theorem getPi_spec (hp : p.chars ≠ []) (hfuel : p.strlen ≤ fuel) (prior : ℕ → ℕ) :
    ∃ pi, getPi fuel (some prior) p = some (some pi) ∧ pi.live = Finset.range p.strlen ∧
      Tabulates p pi p.strlen := by
  have hm : 0 < p.strlen := List.length_pos_iff.mpr hp
  have hborder : Longest p.char p.char 1 1 0 :=
    ⟨.zero _ _ 1, Nat.one_pos, fun hk _ => Nat.le_of_lt_succ hk⟩
  have hinit : Tabulating p 1 (memsetCells p.strlen 0 prior, 0) := by
    refine ⟨rfl, ?_, fun k _ hk => if_pos hk, hborder⟩
    intro k hk
    obtain rfl : k = 0 := by omega
    rwa [show (memsetCells p.strlen 0 prior).cell 0 = 0 from if_pos hm]
  obtain ⟨⟨pi, j⟩, hrun, hdone⟩ := foldlM_range'_of_invariant (n := p.strlen - 1) hinit
    fun i hi st h => getPi.turn_spec (by omega) hfuel h
  rw [show 1 + (p.strlen - 1) = p.strlen by omega] at hdone
  refine ⟨pi, ?_, hdone.live, hdone.table⟩
  simp [getPi, hrun]

/-- **The border table.** Each entry is the length of the longest proper prefix of what it stands
for that is also a suffix of it. -/
theorem getPi_borders (hp : p.chars ≠ []) (hfuel : p.strlen ≤ fuel) (prior : ℕ → ℕ) :
    ∃ pi, getPi fuel (some prior) p = some (some pi) ∧ pi.live = Finset.range p.strlen ∧
      ∀ i < p.strlen,
        IsGreatest (List.length '' {b | IsBorder b (p.chars.take (i + 1))}) (pi.cell i) := by
  obtain ⟨pi, hrun, hlive, htable⟩ := getPi_spec hp hfuel prior
  refine ⟨pi, hrun, hlive, ?_⟩
  intro i hi
  have hlen : (p.chars.take (i + 1)).length = i + 1 := List.length_take_of_le hi
  refine Longest.isGreatest (p := p.char) ?_ ?_
  · intro d hd
    rw [hlen] at hd
    rw [List.getElem?_take_of_lt hd, CStr.char_of_lt (by omega), List.getElem?_eq_getElem]
    rfl
  · rw [hlen]
    exact htable i hi

theorem getPi_borders_aba :
    ∃ pi, getPi 3 (some fun _ => 7) ⟨[97, 98, 97], by decide⟩ = some (some pi) ∧
      pi.live = Finset.range 3 ∧
      ∀ i < 3, IsGreatest
        (List.length '' {b : List UInt8 | IsBorder b ([97, 98, 97].take (i + 1))}) (pi.cell i) :=
  getPi_borders (p := ⟨[97, 98, 97], by decide⟩) (by decide) le_rfl _

/-! ### Occurrences -/

/-- Where the pattern occurs in the first `i` characters of the text. -/
def occurrences (s p : CStr) (i : ℕ) : List ℕ :=
  (List.range (i + 1 - p.strlen)).filter fun q => p.chars <+: s.chars.drop q

theorem prefix_drop_iff_endsAt {q : ℕ} (hq : q + p.strlen ≤ s.strlen) :
    p.chars <+: s.chars.drop q ↔ EndsAt p.char s.char (q + p.strlen) p.strlen := by
  rw [List.prefix_iff_getElem?]
  have hchar : ∀ d (hd : d < p.strlen),
      (s.chars.drop q)[d]? = some (p.chars.get ⟨d, hd⟩) ↔ p.char d = s.char (q + d) := by
    intro d hd
    have hqd : q + d < s.strlen := by omega
    rw [CStr.char_of_lt hd, CStr.char_of_lt hqd, List.getElem?_drop, List.getElem?_eq_getElem hqd,
      Option.some_inj]
    exact eq_comm
  constructor
  · intro h
    refine ⟨Nat.le_add_left .., ?_⟩
    intro d hd
    rw [Nat.add_sub_cancel]
    exact (hchar d hd).mp (h d hd)
  · intro h d hd
    have := h.2 d hd
    rw [Nat.add_sub_cancel] at this
    exact (hchar d hd).mpr this

/-- A pattern that is not empty occurs inside the text. -/
theorem add_strlen_le_of_prefix {q : ℕ} (hp : p.chars ≠ []) (h : p.chars <+: s.chars.drop q) :
    q + p.strlen ≤ s.strlen := by
  have hm : 0 < p.strlen := List.length_pos_iff.mpr hp
  have hlen : p.strlen ≤ s.strlen - q := by simpa [CStr.strlen] using h.length_le
  omega

theorem mem_occurrences_strlen {q : ℕ} (hp : p.chars ≠ []) :
    q ∈ occurrences s p s.strlen ↔ p.chars <+: s.chars.drop q := by
  rw [occurrences, List.mem_filter, List.mem_range, decide_eq_true_eq, and_iff_right_iff_imp]
  intro h
  have := add_strlen_le_of_prefix hp h
  omega

theorem pairwise_occurrences (s p : CStr) (i : ℕ) : (occurrences s p i).Pairwise (· < ·) :=
  List.pairwise_lt_range.filter _

/-- There is at most one occurrence for each character that can end one. -/
theorem length_occurrences_le (s p : CStr) (i : ℕ) :
    (occurrences s p i).length ≤ i + 1 - p.strlen := by
  simpa [occurrences] using
    List.length_filter_le (fun q => p.chars <+: s.chars.drop q) (List.range (i + 1 - p.strlen))

/-- One more character ends an occurrence. -/
theorem occurrences_succ_of_endsAt (hi : i < s.strlen)
    (h : EndsAt p.char s.char (i + 1) p.strlen) :
    occurrences s p (i + 1) = occurrences s p i ++ [i + 1 - p.strlen] := by
  have hm := h.1
  have hq : i + 1 - p.strlen + p.strlen = i + 1 := by omega
  have hocc : p.chars <+: s.chars.drop (i + 1 - p.strlen) := by
    rw [prefix_drop_iff_endsAt (by omega), hq]
    exact h
  rw [occurrences, show i + 1 + 1 - p.strlen = i + 1 - p.strlen + 1 by omega, List.range_succ,
    List.filter_append, List.filter_singleton, decide_eq_true hocc]
  rfl

/-- One more character does not end an occurrence. -/
theorem occurrences_succ_of_not_endsAt (hi : i < s.strlen)
    (h : ¬ EndsAt p.char s.char (i + 1) p.strlen) :
    occurrences s p (i + 1) = occurrences s p i := by
  rcases Nat.lt_or_ge (i + 1) p.strlen with hm | hm
  · rw [occurrences, occurrences, show i + 1 + 1 - p.strlen = i + 1 - p.strlen by omega]
  · have hq : i + 1 - p.strlen + p.strlen = i + 1 := by omega
    have hocc : ¬ p.chars <+: s.chars.drop (i + 1 - p.strlen) := by
      rw [prefix_drop_iff_endsAt (by omega), hq]
      exact h
    rw [occurrences, show i + 1 + 1 - p.strlen = i + 1 - p.strlen + 1 by omega, List.range_succ,
      List.filter_append, List.filter_singleton, decide_eq_false hocc]
    exact List.append_nil _

/-! ### The search -/

/-- What the cell `k` of `ans` holds, when the places `qs` were found. -/
def answer (qs : List ℕ) (k : ℕ) : ℤ :=
  match qs[k]? with
  | some q => q
  | none => -1

/-- Storing a place behind those found. -/
theorem update_answer (qs : List ℕ) (q k : ℕ) :
    Function.update (answer qs) qs.length q k = answer (qs ++ [q]) k := by
  rcases Nat.lt_trichotomy k qs.length with hk | rfl | hk
  · rw [Function.update_of_ne hk.ne, answer, answer, List.getElem?_append_left hk]
  · simp [answer]
  · rw [Function.update_of_ne hk.ne', answer, answer, List.getElem?_eq_none hk.le,
      List.getElem?_eq_none (by simpa using Nat.succ_le_of_lt hk)]

/-- What holds of the variables of `kmp` in front of the turn with `i`. -/
structure Searching (s p : CStr) (i : ℕ) (st : Search) : Prop where
  live : st.ans.live = Finset.range s.strlen
  cells : ∀ k < s.strlen, st.ans.cell k = answer (occurrences s p i) k
  count : st.ansi = (occurrences s p i).length
  current : Longest p.char s.char p.strlen i st.j

/-- A turn that finds nothing. -/
theorem Searching.skip {st : Search} (h : Searching s p i st) (hi : i < s.strlen)
    (hno : ¬ EndsAt p.char s.char (i + 1) p.strlen)
    (hj : Longest p.char s.char p.strlen (i + 1) j) :
    Searching s p (i + 1) { st with j := j } := by
  have hocc := occurrences_succ_of_not_endsAt hi hno
  refine ⟨h.live, ?_, ?_, hj⟩
  · rw [hocc]
    exact h.cells
  · rw [hocc]
    exact h.count

/-- There is room for one more place as long as the text is not at its end. -/
theorem Searching.room {st : Search} (h : Searching s p i st) (hi : i < s.strlen) :
    st.ansi ∈ st.ans.live := by
  have hcount := length_occurrences_le s p i
  have hpos := h.current.lt
  rw [h.live, Finset.mem_range, h.count]
  omega

/-- A turn that finds an occurrence. -/
theorem Searching.found {st : Search} (h : Searching s p i st) (hi : i < s.strlen)
    (hends : EndsAt p.char s.char (i + 1) p.strlen)
    (hj : Longest p.char s.char p.strlen (i + 1) j) :
    Searching s p (i + 1) ⟨⟨Function.update st.ans.cell st.ansi (i - p.strlen + 1), st.ans.live⟩,
      st.ansi + 1, j⟩ := by
  have hocc := occurrences_succ_of_endsAt hi hends
  have hplace : ((i + 1 - p.strlen : ℕ) : ℤ) = i - p.strlen + 1 := by
    have := hends.1
    omega
  refine ⟨h.live, ?_, ?_, hj⟩
  · intro k hk
    rw [hocc, ← update_answer, hplace, ← h.count]
    simp only [Function.update_apply, h.cells k hk]
  · rw [hocc, List.length_append, List.length_singleton, h.count]

theorem kmp.turn_spec {st : Search} (hp : p.chars ≠ []) (hfuel : p.strlen ≤ fuel)
    (hlive : pi.live = Finset.range p.strlen) (htable : Tabulates p pi p.strlen)
    (hi : i < s.strlen) (h : Searching s p i st) :
    ∃ st', kmp.turn fuel s p (some pi) st i = some st' ∧ Searching s p (i + 1) st' := by
  have hm : 0 < p.strlen := List.length_pos_iff.mpr hp
  have hj := h.current.lt
  obtain ⟨j', hrun, hfall, hexit⟩ := fallBack_spec le_rfl hi.le hlive
    (fun k hk => htable k (by omega)) h.current.falling (show st.j < fuel by omega)
  have hj' := hfall.lt
  have hgi := CStr.get_of_le hi.le
  have hgj := CStr.get_of_le hj'.le
  have hfull := hfall.endsAt_iff hexit hm
  by_cases heq : s.char i = p.char j'
  · by_cases hend : j' + 1 = p.strlen
    · -- an occurrence: the search goes on from the longest border of the pattern
      have hends := hfull.mpr ⟨heq.symm, hend⟩
      have hborder := htable j' hj'
      rw [hend] at hborder
      have hmem : j' ∈ pi.live := by rwa [hlive, Finset.mem_range]
      refine ⟨_, ?_, h.found hi hends (.of_full hends hborder)⟩
      simp [kmp.turn, hrun, hgi, hgj, heq, hend, Heap.store_of_mem (h.room hi),
        Heap.load_of_mem hmem]
    · refine ⟨_, ?_, h.skip hi (fun hends => hend (hfull.mp hends).2)
        (hfall.extend heq.symm (by omega) (Nat.le_succ _))⟩
      simp [kmp.turn, hrun, hgi, hgj, heq, hend]
  · obtain rfl : j' = 0 := hexit.resolve_right (Ne.symm heq)
    refine ⟨_, ?_, h.skip hi (fun hends => heq (hfull.mp hends).1.symm)
      (hfall.restart (Ne.symm heq) hm (Nat.le_succ _))⟩
    simp [kmp.turn, hrun, hgi, hgj, heq]

/-- **The search.** With a table, `ans` comes to hold the occurrences. -/
theorem kmp.loop_spec (hp : p.chars ≠ []) (hfuel : p.strlen ≤ fuel)
    (hlive : pi.live = Finset.range p.strlen) (htable : Tabulates p pi p.strlen)
    (priorAns : ℕ → ℤ) :
    ∃ st, (List.range' 0 s.strlen).foldlM (kmp.turn fuel s p (some pi))
        ⟨memsetCells s.strlen (-1) priorAns, 0, 0⟩ = some st ∧ Searching s p s.strlen st := by
  have hm : 0 < p.strlen := List.length_pos_iff.mpr hp
  have hinit : Searching s p 0 ⟨memsetCells s.strlen (-1) priorAns, 0, 0⟩ := by
    have hnone : occurrences s p 0 = [] := by
      rw [occurrences, show 0 + 1 - p.strlen = 0 by omega]
      rfl
    refine ⟨rfl, ?_, ?_, .zero hm⟩
    · intro k hk
      rw [hnone]
      exact if_pos hk
    · rw [hnone]
      rfl
  have hrun := foldlM_range'_of_invariant (n := s.strlen) hinit
    fun i hi st h => kmp.turn_spec hp hfuel hlive htable (by omega) h
  rwa [Nat.zero_add] at hrun

/-- With memory for both arrays, `kmp` answers one. -/
theorem kmp_isSome (hp : p.chars ≠ []) (hfuel : p.strlen ≤ fuel) (priorPi : ℕ → ℕ)
    (priorAns : ℕ → ℤ) :
    ∃ ans ansi, kmp fuel (some priorPi) (some priorAns) s p = some (some (ans, ansi)) := by
  obtain ⟨pi, hpi, hlive, htable⟩ := getPi_spec hp hfuel priorPi
  obtain ⟨st, hrun, -⟩ := kmp.loop_spec (s := s) hp hfuel hlive htable priorAns
  exact ⟨st.ans, st.ansi, by simp [kmp, hpi, hrun]⟩

/-! ### More turns, and more memory

A table is read only when the match falls back. Without memory for it the search may still come to
its end, and then it has found what it would have found. -/

section Monotone

variable {pi pi' : Option (Heap ℕ ℕ)}

theorem fallBack_mono (hpi : ∀ h, pi = some h → pi' = some h) (hle : fuel ≤ fuel') {j' : ℕ}
    (h : fallBack s p pi i fuel j = some j') : fallBack s p pi' i fuel' j = some j' := by
  induction fuel generalizing j fuel' with
  | zero => cases h
  | succ fuel ih =>
    obtain ⟨fuel', rfl⟩ := Nat.exists_eq_add_of_le' (Nat.zero_lt_of_lt hle)
    rw [fallBack] at h ⊢
    split at h
    · next hpos =>
      rw [if_pos hpos]
      obtain ⟨si, hsi, h⟩ := Option.bind_eq_some_iff.mp h
      obtain ⟨pj, hpj, h⟩ := Option.bind_eq_some_iff.mp h
      simp only [hsi, hpj, Option.bind_eq_bind, Option.bind_some]
      split at h
      · next heq => rwa [if_pos heq]
      · next heq =>
        rw [if_neg heq]
        obtain ⟨table, rfl, h⟩ := Option.bind_eq_some_iff.mp h
        obtain ⟨b, hb, h⟩ := Option.bind_eq_some_iff.mp h
        obtain rfl := hpi table rfl
        simp only [hb, Option.bind_some]
        exact ih (Nat.le_of_succ_le_succ hle) h
    · next hpos => rwa [if_neg hpos]

theorem kmp.turn_mono (hpi : ∀ h, pi = some h → pi' = some h) (hle : fuel ≤ fuel')
    {st st' : Search} (h : kmp.turn fuel s p pi st i = some st') :
    kmp.turn fuel' s p pi' st i = some st' := by
  obtain ⟨j, hj, h⟩ := Option.bind_eq_some_iff.mp h
  obtain ⟨si, hsi, h⟩ := Option.bind_eq_some_iff.mp h
  obtain ⟨pj, hpj, h⟩ := Option.bind_eq_some_iff.mp h
  simp only [kmp.turn, fallBack_mono hpi hle hj, hsi, hpj, Option.bind_eq_bind, Option.bind_some]
  split at h
  · next heq =>
    rw [if_pos heq]
    split at h
    · next hend =>
      rw [if_pos hend]
      obtain ⟨ans, hans, h⟩ := Option.bind_eq_some_iff.mp h
      obtain ⟨table, rfl, h⟩ := Option.bind_eq_some_iff.mp h
      obtain rfl := hpi table rfl
      simp only [hans, Option.bind_some]
      exact h
    · next hend => rwa [if_neg hend]
  · next heq => rwa [if_neg heq]

theorem getPi_mono {prior : ℕ → ℕ} {table : Heap ℕ ℕ} (hle : fuel ≤ fuel')
    (h : getPi fuel (some prior) p = some (some table)) :
    getPi fuel' (some prior) p = some (some table) := by
  obtain ⟨st, hst, h⟩ := Option.bind_eq_some_iff.mp h
  refine Option.bind_eq_some_iff.mpr ⟨st, foldlM_mono ?_ hst, h⟩
  rintro ⟨table, j⟩ i st hturn
  obtain ⟨j, hj, hturn⟩ := Option.bind_eq_some_iff.mp hturn
  exact Option.bind_eq_some_iff.mpr ⟨j, fallBack_mono (fun _ => id) hle hj, hturn⟩

end Monotone

/-- What `getPi` answers, if it is a table, is the one it would answer with memory and more fuel. -/
theorem getPi_eq_some {table : Heap ℕ ℕ} {pi : Option (Heap ℕ ℕ)} (hle : fuel ≤ fuel')
    (h : getPi fuel mallocPi p = some pi)
    (hfull : getPi fuel' (some (mallocPi.getD fun _ => 0)) p = some (some table)) :
    ∀ h, pi = some h → some table = some h := by
  rintro t rfl
  cases mallocPi with
  | none => cases h
  | some prior =>
    rw [← Option.some_inj, ← hfull]
    exact getPi_mono hle h

/-- **The result.** Whatever array `kmp` answers is the list of the occurrences. -/
theorem kmp_result {ans : Heap ℕ ℤ} {ansi : ℕ} (hp : p.chars ≠ [])
    (h : kmp fuel mallocPi mallocAns s p = some (some (ans, ansi))) :
    ansi = (occurrences s p s.strlen).length ∧ ans.live = Finset.range s.strlen ∧
      ∀ k < s.strlen, ans.cell k = answer (occurrences s p s.strlen) k := by
  obtain ⟨pi, hpi, h⟩ := Option.bind_eq_some_iff.mp h
  cases mallocAns with
  | none => cases h
  | some priorAns =>
    obtain ⟨st, hst, h⟩ := Option.bind_eq_some_iff.mp h
    obtain ⟨rfl, rfl⟩ : st.ans = ans ∧ st.ansi = ansi := by simpa using h
    -- the same search with enough fuel, and with a table if there was none
    have hfuel := le_max_right fuel p.strlen
    obtain ⟨table, htable, hlive, htab⟩ := getPi_spec hp hfuel (mallocPi.getD fun _ => 0)
    obtain ⟨st', hst', hdone⟩ := kmp.loop_spec (s := s) hp hfuel hlive htab priorAns
    have hle := le_max_left fuel p.strlen
    have hsame : st' = st := by
      rw [← Option.some_inj, ← hst']
      exact foldlM_mono
        (fun _ _ _ => kmp.turn_mono (getPi_eq_some hle hpi htable) hle) hst
    subst hsame
    exact ⟨hdone.count, hdone.live, hdone.cells⟩

/-- **`kmp` finds all occurrences.** The array holds them in order, those that overlap included, and
`-1` behind them. -/
theorem kmp_finds_occurrences (hp : p.chars ≠ []) (hfuel : p.strlen ≤ fuel) (priorPi : ℕ → ℕ)
    (priorAns : ℕ → ℤ) :
    ∃ ans ansi, kmp fuel (some priorPi) (some priorAns) s p = some (some (ans, ansi)) ∧
      ans.live = Finset.range s.strlen ∧ ansi ≤ s.strlen ∧
      (∃ qs : List ℕ, qs.Pairwise (· < ·) ∧ (∀ q, q ∈ qs ↔ p.chars <+: s.chars.drop q) ∧
        (List.range ansi).map ans.cell = qs.map Nat.cast) ∧
      ∀ k, ansi ≤ k → k < s.strlen → ans.cell k = -1 := by
  have hm : 0 < p.strlen := List.length_pos_iff.mpr hp
  obtain ⟨ans, ansi, hrun⟩ := kmp_isSome (s := s) hp hfuel priorPi priorAns
  obtain ⟨rfl, hlive, hcells⟩ := kmp_result hp hrun
  have hroom : (occurrences s p s.strlen).length ≤ s.strlen := by
    have := length_occurrences_le s p s.strlen
    omega
  refine ⟨ans, _, hrun, hlive, hroom, ⟨occurrences s p s.strlen, pairwise_occurrences .., fun q =>
    mem_occurrences_strlen hp, ?_⟩, ?_⟩
  · refine List.ext_getElem (by simp) ?_
    intro k hk _
    have hk : k < (occurrences s p s.strlen).length := by simpa using hk
    simp [hcells k (by omega), answer, hk]
  · intro k hk hkn
    rw [hcells k hkn, answer, List.getElem?_eq_none hk]

theorem kmp_finds_occurrences_aa :
    ∃ ans ansi, kmp 2 (some fun _ => 7) (some fun _ => 7) ⟨[97, 97, 97], by decide⟩
        ⟨[97, 97], by decide⟩ = some (some (ans, ansi)) ∧
      ans.live = Finset.range 3 ∧ ansi ≤ 3 ∧
      (∃ qs : List ℕ, qs.Pairwise (· < ·) ∧
        (∀ q, q ∈ qs ↔ ([97, 97] : List UInt8) <+: [97, 97, 97].drop q) ∧
        (List.range ansi).map ans.cell = qs.map Nat.cast) ∧
      ∀ k, ansi ≤ k → k < 3 → ans.cell k = -1 :=
  kmp_finds_occurrences (s := ⟨[97, 97, 97], by decide⟩) (p := ⟨[97, 97], by decide⟩)
    (by decide) le_rfl _ _

/-! ### Counting -/

section Intslen

variable {ar : Heap ℕ ℤ} {isValue isEnd : ℤ → Bool} {cnt n : ℕ}

/-- The loop counts up to the first cell that is the end. -/
theorem intslen.loop_spec {vs : List ℤ} {e : ℤ}
    (hvs : ∀ k (hk : k < vs.length), ar.load (i + k) = some (vs.get ⟨k, hk⟩))
    (hgo : ∀ v ∈ vs, isEnd v = false) (hend : ar.load (i + vs.length) = some e) (he : isEnd e)
    (hfuel : vs.length < fuel) :
    intslen.loop ar isValue isEnd fuel i cnt = some (cnt + vs.countP isValue) := by
  induction fuel generalizing i cnt vs with
  | zero => omega
  | succ fuel ih =>
    cases vs with
    | nil =>
      have hload : ar.load i = some e := hend
      simp [intslen.loop, hload, he]
    | cons v vs =>
      have hload : ar.load i = some v := hvs 0 (Nat.succ_pos _)
      have hv : isEnd v = false := hgo v (List.mem_cons_self ..)
      have hrest (cnt : ℕ) : intslen.loop ar isValue isEnd fuel (i + 1) cnt =
          some (cnt + vs.countP isValue) := by
        refine ih ?_ (fun u hu => hgo u (List.mem_cons_of_mem _ hu)) ?_
          (Nat.lt_of_succ_lt_succ hfuel)
        · intro k hk
          rw [show i + 1 + k = i + (k + 1) by omega]
          exact hvs (k + 1) (Nat.succ_lt_succ hk)
        · rw [← hend, List.length_cons]
          exact congrArg ar.load (by omega)
      by_cases hval : isValue v
      · simp [intslen.loop, hload, hv, hval, hrest]
        omega
      · simp [intslen.loop, hload, hv, hval, hrest]

/-- Where the loop ends, there is an end. -/
theorem intslen.exists_isEnd (h : intslen.loop ar isValue isEnd fuel i cnt = some n) :
    ∃ k v, ar.load k = some v ∧ isEnd v := by
  induction fuel generalizing i cnt with
  | zero => cases h
  | succ fuel ih =>
    obtain ⟨v, hv, h⟩ := Option.bind_eq_some_iff.mp h
    split at h
    · next hend => exact ⟨i, v, hv, hend⟩
    · obtain ⟨v', hv', h⟩ := Option.bind_eq_some_iff.mp h
      split at h
      · exact ih h
      · exact ih h

end Intslen

section

variable {ans : Heap ℕ ℤ} {ansi : ℕ}

/-- A negative cell is an end that `intslen` comes to. -/
theorem intslen_of_kmp (hp : p.chars ≠ [])
    (h : kmp fuel mallocPi mallocAns s p = some (some (ans, ansi))) (hroom : ansi < s.strlen)
    (hfuel : s.strlen ≤ fuel') (isValue : ℤ → Bool) :
    intslen fuel' ans isValue isIntArrEnd =
      some (((occurrences s p s.strlen).map Nat.cast).countP isValue) := by
  obtain ⟨rfl, hlive, hcells⟩ := kmp_result hp h
  have hload : ∀ k < s.strlen, ans.load k = some (answer (occurrences s p s.strlen) k) := by
    intro k hk
    rw [Heap.load_of_mem (by rwa [hlive, Finset.mem_range]), hcells k hk]
  rw [intslen, ← Nat.zero_add (List.countP _ _)]
  refine intslen.loop_spec (e := -1) ?_ ?_ ?_ rfl (by simp; omega)
  · intro k hk
    rw [List.length_map] at hk
    rw [hload _ (by omega)]
    simp [answer, hk]
  · intro v hv
    obtain ⟨q, -, rfl⟩ := List.mem_map.mp hv
    exact decide_eq_false (by omega)
  · rw [hload _ (by simpa using hroom)]
    simp [answer]

/-- There is a negative cell just when not every cell was needed. -/
theorem exists_neg_iff (hp : p.chars ≠ [])
    (h : kmp fuel mallocPi mallocAns s p = some (some (ans, ansi))) :
    (∃ k < s.strlen, ans.cell k < 0) ↔ ansi < s.strlen := by
  obtain ⟨rfl, -, hcells⟩ := kmp_result hp h
  constructor
  · rintro ⟨k, hk, hneg⟩
    rw [hcells k hk, answer] at hneg
    split at hneg
    · omega
    · next hnone => exact (List.getElem?_eq_none_iff.mp hnone).trans_lt hk
  · intro hroom
    refine ⟨_, hroom, ?_⟩
    rw [hcells _ hroom, answer, List.getElem?_eq_none le_rfl]
    decide

/-- **The two counts.** `intslen` counts the occurrences, and so does `ansi`, except that an
occurrence at the very front is a cell that is not positive. -/
theorem intslen_eq_ansi_iff (hp : p.chars ≠ [])
    (h : kmp fuel mallocPi mallocAns s p = some (some (ans, ansi)))
    (hneg : ∃ k < s.strlen, ans.cell k < 0) (hfuel : s.strlen ≤ fuel') :
    (intslen fuel' ans isValueSet isIntArrEnd = some ansi ∧
      ∃ qs : List ℕ, qs.Nodup ∧ (∀ q, q ∈ qs ↔ p.chars <+: s.chars.drop q) ∧ ansi = qs.length) ↔
    ¬ p.chars <+: s.chars := by
  have hroom := (exists_neg_iff hp h).mp hneg
  rw [intslen_of_kmp hp h hroom hfuel, Option.some_inj]
  obtain ⟨rfl, -, -⟩ := kmp_result hp h
  have hocc : ∃ qs : List ℕ, qs.Nodup ∧ (∀ q, q ∈ qs ↔ p.chars <+: s.chars.drop q) ∧
      (occurrences s p s.strlen).length = qs.length :=
    ⟨_, (pairwise_occurrences ..).imp Nat.ne_of_lt, fun q => mem_occurrences_strlen hp, rfl⟩
  rw [and_iff_left hocc, List.countP_map, List.countP_eq_length,
    show p.chars <+: s.chars ↔ 0 ∈ occurrences s p s.strlen by rw [mem_occurrences_strlen hp]; rfl]
  constructor
  · intro hall hfront
    have : (0 : ℤ) > 0 := of_decide_eq_true (hall 0 hfront)
    omega
  · intro hfront q hq
    have hpos : q ≠ 0 := by
      rintro rfl
      exact hfront hq
    exact decide_eq_true (show (q : ℤ) > 0 by omega)

theorem intslen_eq_ansi_iff_ba :
    ∃ ans ansi, kmp 1 (some fun _ => 7) (some fun _ => 7) ⟨[98, 97], by decide⟩
        ⟨[97], by decide⟩ = some (some (ans, ansi)) ∧
      ((intslen 2 ans isValueSet isIntArrEnd = some ansi ∧
        ∃ qs : List ℕ, qs.Nodup ∧
          (∀ q, q ∈ qs ↔ ([97] : List UInt8) <+: [98, 97].drop q) ∧ ansi = qs.length) ↔
      ¬ ([97] : List UInt8) <+: [98, 97]) :=
  ⟨_, _, rfl, intslen_eq_ansi_iff (List.cons_ne_nil _ _)
    (show kmp 1 (some fun _ => 7) (some fun _ => 7) ⟨[98, 97], by decide⟩ ⟨[97], by decide⟩ =
      some (some (_, _)) from rfl) ⟨1, by decide, by decide⟩ le_rfl⟩

/-- In `"ab"`, `"a"` occurs once, and `intslen` counts no occurrence. -/
theorem not_intslen_eq_ansi :
    ∃ s p ans ansi, s.chars ≠ [] ∧ p.chars ≠ [] ∧
      kmp 1 (some fun _ => 7) (some fun _ => 7) s p = some (some (ans, ansi)) ∧
      (∃ k < s.strlen, ans.cell k < 0) ∧ ansi = 1 ∧
      intslen 2 ans isValueSet isIntArrEnd = some 0 :=
  ⟨⟨[97, 98], by decide⟩, ⟨[97], by decide⟩, _, _, by decide, by decide, rfl,
    ⟨1, by decide, by decide⟩, rfl, by decide⟩

/-- Every cell is needed just when each character of the text is an occurrence. -/
theorem strlen_le_length_occurrences_iff (hs : s.chars ≠ []) (hp : p.chars ≠ []) :
    s.strlen ≤ (occurrences s p s.strlen).length ↔
      ∃ c, p.chars = [c] ∧ s.chars = List.replicate s.strlen c := by
  have hn : 0 < s.strlen := List.length_pos_iff.mpr hs
  have hm : 0 < p.strlen := List.length_pos_iff.mpr hp
  have hle := length_occurrences_le s p s.strlen
  have hfront {c : UInt8} {q : ℕ} : [c] <+: s.chars.drop q ↔ s.chars[q]? = some c := by
    rw [← List.head?_drop]
    cases s.chars.drop q with
    | nil => simp
    | cons b l => simp [eq_comm]
  constructor
  · intro hall
    have hone : p.strlen = 1 := by omega
    obtain ⟨c, hc⟩ := List.length_eq_one_iff.mp hone
    have hlen : (occurrences s p s.strlen).length = (List.range s.strlen).length := by
      rw [List.length_range]
      omega
    rw [occurrences, hone, Nat.add_sub_cancel, List.length_filter_eq_length_iff] at hlen
    refine ⟨c, hc, List.eq_replicate_iff.mpr ⟨rfl, ?_⟩⟩
    intro b hb
    obtain ⟨q, hq, rfl⟩ := List.mem_iff_getElem.mp hb
    have hocc := of_decide_eq_true (hlen q (List.mem_range.mpr hq))
    rw [hc, hfront, List.getElem?_eq_getElem hq] at hocc
    exact Option.some_inj.mp hocc
  · rintro ⟨c, hc, hrep⟩
    have hone : p.strlen = 1 := by rw [CStr.strlen, hc]; rfl
    rw [occurrences, hone, Nat.add_sub_cancel, List.filter_eq_self.mpr fun q hq => ?_,
      List.length_range]
    have hq := List.mem_range.mp hq
    rw [hc, decide_eq_true_eq, hfront, hrep]
    exact List.getElem?_replicate_of_lt hq

/-- **The end marker.** `kmp` leaves one, and `intslen` stays inside the array, unless the text is
made of one character and that is the pattern. -/
theorem kmp_endMarker_iff (hs : s.chars ≠ []) (hp : p.chars ≠ [])
    (h : kmp fuel mallocPi mallocAns s p = some (some (ans, ansi))) (hfuel : s.strlen ≤ fuel')
    (isValue : ℤ → Bool) :
    ((∃ k < s.strlen, ans.cell k < 0) ↔
        ¬ ∃ c, p.chars = [c] ∧ s.chars = List.replicate s.strlen c) ∧
      ((intslen fuel' ans isValue isIntArrEnd).isSome ↔
        ¬ ∃ c, p.chars = [c] ∧ s.chars = List.replicate s.strlen c) := by
  have hneg := exists_neg_iff hp h
  rw [← strlen_le_length_occurrences_iff hs hp, not_le, ← (kmp_result hp h).1]
  refine ⟨hneg, ?_, ?_⟩
  · intro hsome
    obtain ⟨n, hn⟩ := Option.isSome_iff_exists.mp hsome
    obtain ⟨k, v, hload, hv⟩ := intslen.exists_isEnd hn
    obtain ⟨hk, hcell⟩ := Option.ite_none_right_eq_some.mp hload
    rw [(kmp_result hp h).2.1, Finset.mem_range] at hk
    refine hneg.mp ⟨k, hk, ?_⟩
    rw [Option.some_inj.mp hcell]
    exact of_decide_eq_true hv
  · intro hroom
    rw [intslen_of_kmp hp h hroom hfuel]
    rfl

theorem kmp_endMarker_iff_ab :
    ∃ ans ansi, kmp 1 (some fun _ => 7) (some fun _ => 7) ⟨[97, 98], by decide⟩
        ⟨[97], by decide⟩ = some (some (ans, ansi)) ∧
      ((∃ k < 2, ans.cell k < 0) ↔
        ¬ ∃ c : UInt8, [97] = [c] ∧ [97, 98] = List.replicate 2 c) ∧
      ((intslen 2 ans isValueSet isIntArrEnd).isSome ↔
        ¬ ∃ c : UInt8, [97] = [c] ∧ [97, 98] = List.replicate 2 c) :=
  ⟨_, _, rfl, kmp_endMarker_iff (List.cons_ne_nil _ _) (List.cons_ne_nil _ _)
    (show kmp 1 (some fun _ => 7) (some fun _ => 7) ⟨[97, 98], by decide⟩ ⟨[97], by decide⟩ =
      some (some (_, _)) from rfl) le_rfl isValueSet⟩

/-- In `"a"`, every cell is an occurrence of `"a"`. -/
theorem not_kmp_endMarker :
    ∃ s p ans ansi, s.chars ≠ [] ∧ p.chars ≠ [] ∧
      kmp 1 (some fun _ => 7) (some fun _ => 7) s p = some (some (ans, ansi)) ∧
      (¬ ∃ k < s.strlen, ans.cell k < 0) ∧
      ∀ fuel, intslen fuel ans isValueSet isIntArrEnd = none :=
  ⟨⟨[97], by decide⟩, ⟨[97], by decide⟩, _, _, by decide, by decide, rfl, by decide, fun
    | 0 => rfl
    | 1 => rfl
    | _ + 2 => rfl⟩

end

end Exec02
