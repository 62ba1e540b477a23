import Exec02.Lib.CString
import Exec02.Lib.Machine
import Mathlib.Data.List.Forall2

/-!
# Splitting a string

`MyString.c`: `strsep` takes the next field off a string, by writing a NUL over the delimiter behind
it. Called again and again on a string, it changes what it walks over.

## Reading the model

The buffer is the string with its NUL, and nothing else may be accessed. A pointer into it is an
index, and `NULL` is `none`.

## Main results

* `step_of_midway` — one call takes one field
* `strsep_splits` — the calls take all of them
-/

namespace Exec02

/-- A buffer, and a pointer into it. -/
structure Strsep where
  buffer : List UInt8
  string : Option ℕ

namespace Strsep

/-- `strsep(&string, delim)`. -/
def strsep (s : Strsep) (delim : CStr) : Option (Option ℕ × Strsep) :=
  match s.string with
  | none => some (none, { s with string := none })
  | some start => do
    match ← strpbrk (· ∈ delim.chars) (s.buffer.drop start) with
    | none => return (some start, { s with string := none })
    | some p => return (some start, ⟨s.buffer.set (start + p) 0, some (start + p + 1)⟩)

/-- A pointer to a string. -/
def start (s : CStr) : Strsep := ⟨s.chars ++ [0], some 0⟩

/-- The string at a pointer. -/
def text (s : Strsep) (p : ℕ) : List UInt8 := cstr (s.buffer.drop p)

end Strsep

/-- The loop that calls `strsep` until the pointer is `NULL`, observed at the pointers that are
returned. -/
def strsepMachine (delim : CStr) : Machine Strsep Unit ℕ where
  allowed s _ := s.string ≠ none
  step s _ := (s.strsep delim).map fun r => (r.2, r.1.toList)

/-- The delimiters overwritten. -/
def blanked (delim : CStr) (chars : List UInt8) : List UInt8 :=
  chars.map fun c => if c ∈ delim.chars then 0 else c

variable {s delim : CStr} {t : Strsep} {outs : List ℕ} {pre rest : List UInt8}
  {tokens : List (List UInt8)}

@[simp] theorem length_blanked (delim : CStr) (chars : List UInt8) :
    (blanked delim chars).length = chars.length := List.length_map _

theorem blanked_append (delim : CStr) (xs ys : List UInt8) :
    blanked delim (xs ++ ys) = blanked delim xs ++ blanked delim ys := List.map_append

theorem blanked_eq_self {field : List UInt8} (h : ∀ c ∈ field, decide (c ∈ delim.chars) = false) :
    blanked delim field = field := by
  refine (List.map_congr_left ?_).trans (List.map_id field)
  intro c hc
  exact if_neg (of_decide_eq_false (h c hc))

/-! ### Tokens in a buffer -/

/-- A token in a buffer, with its NUL. -/
def TokenAt (buffer : List UInt8) (p : ℕ) (token : List UInt8) : Prop :=
  ∃ before after, buffer = before ++ (token ++ 0 :: after) ∧ p = before.length ∧ 0 ∉ token

theorem TokenAt.append {buffer token : List UInt8} {p : ℕ} (h : TokenAt buffer p token)
    (more : List UInt8) : TokenAt (buffer ++ more) p token := by
  obtain ⟨before, after, rfl, hp, htoken⟩ := h
  exact ⟨before, after ++ more, by simp, hp, htoken⟩

theorem TokenAt.text {token : List UInt8} {p : ℕ} (h : TokenAt t.buffer p token) :
    t.text p = token := by
  obtain ⟨before, after, hbuffer, rfl, htoken⟩ := h
  rw [Strsep.text, hbuffer, List.drop_left, cstr_append_nul htoken]

theorem map_text {buffer : List UInt8} (h : List.Forall₂ (TokenAt buffer) outs tokens)
    (more : List UInt8) (ht : t.buffer = buffer ++ more) : outs.map t.text = tokens := by
  induction h with
  | nil => rfl
  | cons hp _ ih => rw [List.map_cons, ih, TokenAt.text (ht ▸ hp.append more)]

/-! ### One call -/

/-- In the middle of the string: what is in front of the pointer is tokens, and what is behind it is
as it was. -/
structure StrsepMidway (s delim : CStr) (t : Strsep) (outs : List ℕ) (pre rest : List UInt8)
    (tokens : List (List UInt8)) : Prop where
  chars : s.chars = pre ++ rest
  string : t.string = some pre.length
  buffer : t.buffer = blanked delim pre ++ (rest ++ [0])
  split : s.chars.splitOnP (· ∈ delim.chars) = tokens ++ rest.splitOnP (· ∈ delim.chars)
  tokensAt : List.Forall₂ (TokenAt (blanked delim pre)) outs tokens

/-- All tokens have been returned. -/
structure StrsepDone (s delim : CStr) (t : Strsep) (outs : List ℕ) : Prop where
  string : t.string = none
  buffer : t.buffer = blanked delim s.chars ++ [0]
  tokensAt : List.Forall₂ (TokenAt t.buffer) outs (s.chars.splitOnP (· ∈ delim.chars))

theorem midway_start (s delim : CStr) : StrsepMidway s delim (.start s) [] [] s.chars [] :=
  ⟨rfl, rfl, rfl, rfl, .nil⟩

/-- **One call.** It returns the pointer, and the token there is the next field: the last one, or
one with a delimiter behind it. -/
theorem step_of_midway (h : StrsepMidway s delim t outs pre rest tokens) :
    ∃ u, (strsepMachine delim).step t () = some (u, [pre.length]) ∧
      (StrsepDone s delim u (outs ++ [pre.length]) ∨
        ∃ pre' rest' tokens',
          StrsepMidway s delim u (outs ++ [pre.length]) pre' rest' tokens') := by
  have hdrop : t.buffer.drop pre.length = rest ++ [0] := by
    rw [h.buffer, ← length_blanked delim pre, List.drop_left]
  have hnul : ∀ c ∈ rest, c ≠ 0 := by
    rintro c hc rfl
    exact s.no_nul (h.chars ▸ List.mem_append_right _ hc)
  rcases strpbrk_cases (· ∈ delim.chars) (fun h0 => hnul 0 h0 rfl) [] with
    ⟨hrest, hscan⟩ | ⟨field, c, more, rfl, hfield, hc, hscan⟩
  · have hstep : (strsepMachine delim).step t () =
        some ({ t with string := none }, [pre.length]) := by
      simp [strsepMachine, Strsep.strsep, h.string, hdrop, hscan]
    have hbuffer : t.buffer = blanked delim s.chars ++ [0] := by
      rw [h.buffer, h.chars, blanked_append, blanked_eq_self hrest, List.append_assoc]
    refine ⟨_, hstep, Or.inl ⟨rfl, hbuffer, ?_⟩⟩
    rw [h.split, List.splitOnP_eq_singleton hrest]
    refine List.rel_append (h.tokensAt.imp ?_) (.cons ?_ .nil)
    · intro p token hp
      show TokenAt t.buffer p token
      rw [h.buffer]
      exact hp.append _
    · exact ⟨_, [], h.buffer, (length_blanked delim pre).symm, fun h0 => hnul 0 h0 rfl⟩
  · rw [← hdrop] at hscan
    have hpre : blanked delim (pre ++ field ++ [c]) = blanked delim pre ++ (field ++ [0]) := by
      rw [blanked_append, blanked_append, blanked_eq_self hfield, List.append_assoc]
      simp only [blanked, List.map_singleton, if_pos (of_decide_eq_true hc)]
    have hbuffer : t.buffer.set (pre.length + field.length) 0 =
        blanked delim (pre ++ field ++ [c]) ++ (more ++ [0]) := by
      rw [hpre, h.buffer, List.set_append_right _ _ (by simp)]
      simp
    have hstep : (strsepMachine delim).step t () =
        some (⟨t.buffer.set (pre.length + field.length) 0,
          some (pre.length + field.length + 1)⟩, [pre.length]) := by
      simp [strsepMachine, Strsep.strsep, h.string, hscan]
    refine ⟨_, hstep,
      Or.inr ⟨pre ++ field ++ [c], more, tokens ++ [field], ?_, ?_, hbuffer, ?_, ?_⟩⟩
    · rw [h.chars]
      simp
    · simp [Nat.add_assoc]
    · rw [h.split, List.splitOnP_append_cons_of_forall_mem hfield c hc]
      simp
    · rw [hpre]
      refine List.rel_append (h.tokensAt.imp fun p token hp => hp.append _) (.cons ?_ .nil)
      exact ⟨_, [], rfl, (length_blanked delim pre).symm, fun h0 =>
        hnul 0 (List.mem_append_left _ h0) rfl⟩

/-! ### Runs -/

theorem midway_of_run {calls : List Unit} (h : (strsepMachine delim).Run (.start s) calls t outs) :
    outs.length = calls.length ∧ (StrsepDone s delim t outs ∨
      ∃ pre rest tokens, StrsepMidway s delim t outs pre rest tokens) := by
  refine h.invariant (P := fun calls t outs => outs.length = calls.length ∧
    (StrsepDone s delim t outs ∨ ∃ pre rest tokens, StrsepMidway s delim t outs pre rest tokens))
    ⟨rfl, Or.inr ⟨_, _, _, midway_start s delim⟩⟩ ?_
  rintro calls t outs ⟨⟩ u o - ⟨hlength, hsep⟩ ha hstep
  rcases hsep with hsep | ⟨pre, rest, tokens, hsep⟩
  · exact absurd hsep.string ha
  · obtain ⟨u', hstep', hsep'⟩ := step_of_midway hsep
    obtain ⟨rfl, rfl⟩ := Prod.mk.inj (Option.some.inj (hstep'.symm.trans hstep))
    exact ⟨by rw [List.length_append, List.length_append, hlength]; rfl, hsep'⟩

/-- What has been returned is the fields up to here. -/
theorem tokens_of_run {calls : List Unit} (h : (strsepMachine delim).Run (.start s) calls t outs) :
    outs.map t.text = (s.chars.splitOnP (· ∈ delim.chars)).take calls.length ∧
      calls.length ≤ s.chars.countP (· ∈ delim.chars) + 1 ∧
      (t.string = none ↔ calls.length = s.chars.countP (· ∈ delim.chars) + 1) := by
  obtain ⟨hlength, hsep⟩ := midway_of_run h
  rw [← hlength, ← length_splitOnP]
  rcases hsep with hsep | ⟨pre, rest, tokens, hsep⟩
  · rw [hsep.tokensAt.length_eq, List.take_length]
    exact ⟨map_text hsep.tokensAt [] (List.append_nil _).symm, le_rfl, iff_of_true hsep.string rfl⟩
  · have hrest : 0 < (rest.splitOnP (· ∈ delim.chars)).length :=
      List.length_pos_of_ne_nil (List.splitOnP_ne_nil _ _)
    rw [hsep.tokensAt.length_eq, hsep.split, List.take_left, List.length_append, hsep.string]
    exact ⟨map_text hsep.tokensAt _ hsep.buffer, by omega, iff_of_false nofun (by omega)⟩

/-- **`strsep` splits a string.** The loop makes one call more than there are delimiters, none of
which goes wrong; what it returns is the fields, at every moment those up to there; and with the
delimiters back between them they are the string. -/
theorem strsep_splits (s delim : CStr) :
    (∀ calls t outs, (strsepMachine delim).Run (.start s) calls t outs →
      outs.map t.text = (s.chars.splitOnP (· ∈ delim.chars)).take calls.length ∧
      calls.length ≤ s.chars.countP (· ∈ delim.chars) + 1 ∧
      (t.string = none ↔ calls.length = s.chars.countP (· ∈ delim.chars) + 1) ∧
      (t.string ≠ none → ∃ u p, (strsepMachine delim).step t () = some (u, [p]))) ∧
    ∃ calls t outs, (strsepMachine delim).Run (.start s) calls t outs ∧ t.string = none ∧
      outs.map t.text = s.chars.splitOnP (· ∈ delim.chars) ∧
      t.buffer = (s.chars.map fun c => if c ∈ delim.chars then 0 else c) ++ [0] ∧
      (List.zipWith (· ++ ·) (outs.map t.text)
        ((s.chars.filter (· ∈ delim.chars)).map (fun c => [c]) ++ [[]])).flatten = s.chars := by
  have hsafe : ∀ calls t outs, (strsepMachine delim).Run (.start s) calls t outs →
      t.string ≠ none → ∃ u p, (strsepMachine delim).step t () = some (u, [p]) := by
    intro calls t outs h ht
    obtain ⟨-, hsep | ⟨pre, rest, tokens, hsep⟩⟩ := midway_of_run h
    · exact absurd hsep.string ht
    · obtain ⟨u, hstep, -⟩ := step_of_midway hsep
      exact ⟨u, pre.length, hstep⟩
  refine ⟨?_, ?_⟩
  · intro calls t outs h
    obtain ⟨htokens, hle, hend⟩ := tokens_of_run h
    exact ⟨htokens, hle, hend, hsafe calls t outs h⟩
  · have hruns : ∃ t outs, (strsepMachine delim).Run (.start s)
        (List.replicate (s.chars.countP (· ∈ delim.chars) + 1) ()) t outs := by
      refine Machine.exists_run ?_
      intro calls _ t outs hpfx h
      have ht : t.string ≠ none := fun ht => by
        have hlength := (tokens_of_run h).2.2.mp ht
        have hle := hpfx.length_le
        rw [List.length_append, List.length_singleton, List.length_replicate] at hle
        omega
      obtain ⟨u, p, hstep⟩ := hsafe calls t outs h ht
      exact ⟨ht, u, [p], hstep⟩
    obtain ⟨t, outs, h⟩ := hruns
    have hcalls := List.length_replicate (n := s.chars.countP (· ∈ delim.chars) + 1) (a := ())
    obtain ⟨htokens, -, hend⟩ := tokens_of_run h
    rw [hcalls, ← length_splitOnP, List.take_length] at htokens
    have ht := hend.mpr hcalls
    refine ⟨_, t, outs, h, ht, htokens, ?_, ?_⟩
    · obtain ⟨-, hsep | ⟨pre, rest, tokens, hsep⟩⟩ := midway_of_run h
      · exact hsep.buffer
      · rw [hsep.string] at ht
        cases ht
    · rw [htokens]
      exact List.splitOnP_spec _

end Exec02
