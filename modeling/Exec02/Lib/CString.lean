import Mathlib.Algebra.Ring.Int.Defs
import Mathlib.Algebra.Ring.Nat
import Mathlib.Data.List.TakeWhile

/-!
# C strings, character buffers and the bounds-checking runtime

Bytes are `UInt8`, and a C string is what a byte array holds up to its first NUL. A `Buffer n` is a
`char` array of `n` bytes, with its size as a field: it can be written only where it is, and a
write that would leave it is undefined behaviour.

The checked functions of the Microsoft runtime do not overflow. When a result does not fit they
call the invalid-parameter handler, which by default ends the process; a program may install one
that returns, and then the destination is left empty. `InvalidParameter` is that choice, and a
function that may call the handler answers `none` where the process ends.

## Main definitions

* `Buffer`, `Buffer.write`, `Buffer.slice`
* `strncatS`, `sprintfS` — `strncat_s` and `sprintf_s` on the strings they work on
* `formatInt` — the conversion `%<width>d`
* `atoi`
* `CStr` — a string with its NUL, which can be read as far as that
* `strpbrk` — the next character of a set
* `strtokS` — `strtok_s`, and `tokens`, what it answers from call to call

## Main results

* `Buffer.slice_write` — what was written is there, and what lies outside is untouched
* `mem_formatInt`, `formatInt_length` — a formatted number, which fills its width if it fits
* `atoi_formatInt` — a number that was formatted is read again
* `tokens_of_strtokS` — the tokens are what is between the delimiters
-/

namespace Exec02

/-! ### Buffers -/

/-- A `char` array of `n` bytes. -/
structure Buffer (n : ℕ) where
  bytes : List UInt8
  size_eq : bytes.length = n

namespace Buffer

variable {n : ℕ} {b b' : Buffer n} {off off' len : ℕ} {data : List UInt8}

/-- Copy `data` to `off`, provided it stays inside. -/
def write (b : Buffer n) (off : ℕ) (data : List UInt8) : Option (Buffer n) :=
  if h : off + data.length ≤ n then
    some
      { bytes := b.bytes.take off ++ data ++ b.bytes.drop (off + data.length)
        size_eq := by simp [b.size_eq]; omega }
  else none

/-- The `len` bytes at `off`. -/
def slice (b : Buffer n) (off len : ℕ) : List UInt8 := (b.bytes.drop off).take len

theorem write_isSome (b : Buffer n) (h : off + data.length ≤ n) :
    ∃ b', b.write off data = some b' :=
  ⟨_, dif_pos h⟩

theorem bytes_of_write (h : b.write off data = some b') :
    b'.bytes = b.bytes.take off ++ data ++ b.bytes.drop (off + data.length) := by
  rw [write] at h
  split at h
  · obtain rfl := Option.some.inj h
    rfl
  · cases h

/-- A write to the front. -/
theorem exists_write_zero (b : Buffer n) (h : data.length ≤ n) :
    ∃ b', b.write 0 data = some b' ∧ b'.bytes = data ++ b.bytes.drop data.length := by
  obtain ⟨b', hb'⟩ := b.write_isSome (show 0 + data.length ≤ n by omega)
  refine ⟨b', hb', ?_⟩
  rw [bytes_of_write hb', List.take_zero, List.nil_append, Nat.zero_add]

/-- **Read after write.** -/
theorem slice_write (h : b.write off data = some b') : b'.slice off data.length = data := by
  have hoff : off ≤ b.bytes.length := by
    rw [write] at h
    split at h
    · rw [b.size_eq]; omega
    · cases h
  rw [slice, bytes_of_write h, List.append_assoc, List.drop_append_of_le_length (by simp [hoff])]
  simp

theorem slice_append (b : Buffer n) (off len len' : ℕ) :
    b.slice off len ++ b.slice (off + len) len' = b.slice off (len + len') := by
  rw [slice, slice, slice, ← List.drop_drop, ← List.take_add]

theorem take_slice (b : Buffer n) (off : ℕ) {len len' : ℕ} (h : len' ≤ len) :
    (b.slice off len).take len' = b.slice off len' := by
  rw [slice, List.take_take, min_eq_left h, slice]

theorem drop_slice (b : Buffer n) (off len len' : ℕ) :
    (b.slice off len).drop len' = b.slice (off + len') (len - len') := by
  rw [slice, List.drop_take, List.drop_drop, slice]

/-- Bytes behind a write at the front are untouched. -/
theorem slice_write_zero (h : b.write 0 data = some b') (len : ℕ) :
    b'.slice data.length len = b.slice data.length len := by
  rw [slice, slice, bytes_of_write h]
  simp

theorem length_slice (b : Buffer n) (h : off + len ≤ n) : (b.slice off len).length = len := by
  rw [slice, List.length_take, List.length_drop, b.size_eq]
  omega

/-- **Frame.** Bytes outside what is written are untouched. -/
theorem slice_write_of_disjoint (h : b.write off data = some b')
    (hd : off' + len ≤ off ∨ off + data.length ≤ off') : b'.slice off' len = b.slice off' len := by
  have hoff : off + data.length ≤ n := by
    rw [write] at h
    split at h
    · assumption
    · cases h
  rw [slice, slice, bytes_of_write h]
  refine List.ext_getElem? ?_
  intro k
  simp only [List.getElem?_take, List.getElem?_drop]
  split
  · next hk =>
    have htake : (b.bytes.take off).length = off := by
      rw [List.length_take, b.size_eq]
      omega
    rcases hd with hd | hd
    · rw [List.append_assoc, List.getElem?_append_left (by omega),
        List.getElem?_take_of_lt (by omega)]
    · rw [List.getElem?_append_right (by rw [List.length_append]; omega), List.getElem?_drop,
        List.length_append, htake]
      exact congrArg (b.bytes[·]?) (by omega)
  · rfl

/-- A text is copied to the front, and a NUL behind it: then comes what was there. -/
theorem slice_terminated {b'' : Buffer n} (h : b.write 0 data = some b')
    (h' : b'.write data.length [0] = some b'') (len : ℕ) :
    b''.slice 0 (data.length + (1 + len)) = data ++ 0 :: b.slice (data.length + 1) len := by
  have hdata : b''.slice 0 data.length = data := by
    rw [slice_write_of_disjoint h' (Or.inl (by omega)), slice_write h]
  have hnul : b''.slice data.length 1 = [0] := slice_write h'
  have hrest : b''.slice (data.length + 1) len = b.slice (data.length + 1) len := by
    rw [slice_write_of_disjoint h' (Or.inr (by rw [List.length_singleton])),
      slice_write_of_disjoint h (Or.inr (by omega))]
  rw [← slice_append b'' 0 data.length (1 + len), Nat.zero_add,
    ← slice_append b'' data.length 1 len, hdata, hnul, hrest]
  rfl

end Buffer

/-! ### The runtime -/

/-- What the invalid-parameter handler does. -/
inductive InvalidParameter
  /-- It ends the process, as the default handler does. -/
  | terminates
  /-- It returns, and the destination string is left empty. -/
  | returns
  deriving DecidableEq

/-- The destination after the handler was called, if the process is still there. -/
def InvalidParameter.call : InvalidParameter → Option (List UInt8)
  | .terminates => none
  | .returns => some []

/-- The string a byte array holds: everything before its first NUL. -/
def cstr (bytes : List UInt8) : List UInt8 := bytes.takeWhile (· ≠ 0)

/-- `strncat_s(dst, size, src, n)`, on the string in `dst` and the array `src`: append at most `n`
characters of the string in `src`, if they and the NUL fit in `size`. -/
def strncatS (crt : InvalidParameter) (dst : List UInt8) (size : ℕ) (src : List UInt8) (n : ℕ) :
    Option (List UInt8) :=
  let appended := cstr (src.take n)
  if dst.length + appended.length + 1 ≤ size then some (dst ++ appended) else crt.call

/-- `sprintf_s` into `size` bytes, given the text its format produces. -/
def sprintfS (crt : InvalidParameter) (size : ℕ) (text : List UInt8) : Option (List UInt8) :=
  if text.length + 1 ≤ size then some text else crt.call

/-- The decimal digits of a number, as characters. -/
def decimal (n : ℕ) : List UInt8 := (Nat.toDigits 10 n).map fun c => UInt8.ofNat c.toNat

/-- The conversion `%<width>d`: right-aligned, padded with spaces. -/
def formatInt (width : ℕ) (i : ℤ) : List UInt8 :=
  let text := (if i < 0 then [45] else []) ++ decimal i.natAbs
  List.replicate (width - text.length) 32 ++ text

/-- `isspace`. -/
def isSpace (b : UInt8) : Bool := b = 32 || (9 ≤ b && b ≤ 13)

/-- `isdigit`. -/
def isDigit (b : UInt8) : Bool := 48 ≤ b && b ≤ 57

/-- `atoi`: white space, a sign, digits, and whatever follows is ignored. Out of range it answers
the nearest `int`. -/
def atoi (s : List UInt8) : ℤ :=
  let s := (cstr s).dropWhile isSpace
  let digits := match s with
    | 43 :: s | 45 :: s => s
    | s => s
  let value := (digits.takeWhile isDigit).foldl (fun n b => 10 * n + (b.toNat - 48)) 0
  max (-2 ^ 31) (min (2 ^ 31 - 1) (if s.head? = some 45 then -(value : ℤ) else value))

@[simp] theorem atoi_nil : atoi [] = 0 := by decide

theorem isDigit_iff {b : UInt8} : isDigit b ↔ 48 ≤ b.toNat ∧ b.toNat ≤ 57 := by
  simp only [isDigit, Bool.and_eq_true, decide_eq_true_eq, UInt8.le_iff_toNat_le]
  exact Iff.rfl

/-- A digit is neither white space nor a sign. -/
theorem isSpace_of_isDigit {b : UInt8} (hb : isDigit b) : isSpace b = false ∧ b ≠ 43 ∧ b ≠ 45 := by
  obtain ⟨h₁, h₂⟩ := isDigit_iff.mp hb
  refine ⟨?_, ?_, ?_⟩
  · rw [isSpace, Bool.or_eq_false_iff, Bool.and_eq_false_iff, decide_eq_false_iff_not]
    refine ⟨?_, Or.inr (decide_eq_false ?_)⟩
    · rintro rfl
      exact absurd h₁ (by decide)
    · rw [UInt8.le_iff_toNat_le]
      intro h
      have h : b.toNat ≤ 13 := h
      omega
  · rintro rfl
    exact absurd h₁ (by decide)
  · rintro rfl
    exact absurd h₁ (by decide)

/-- The characters of a number, as bytes. -/
theorem toNat_of_mem_toDigits {n : ℕ} {c : Char} (hc : c ∈ Nat.toDigits 10 n) :
    (UInt8.ofNat c.toNat).toNat = c.toNat ∧ 48 ≤ c.toNat ∧ c.toNat ≤ 57 := by
  have hdigit := Nat.isDigit_of_mem_toDigits (by decide) (by decide) hc
  simp only [Char.isDigit, Bool.and_eq_true, decide_eq_true_eq] at hdigit
  have h₁ : 48 ≤ c.toNat := hdigit.1
  have h₂ : c.toNat ≤ 57 := hdigit.2
  refine ⟨?_, h₁, h₂⟩
  rw [UInt8.toNat_ofNat', Nat.mod_eq_of_lt (by omega)]

theorem isDigit_of_mem_decimal {n : ℕ} {b : UInt8} (hb : b ∈ decimal n) : isDigit b := by
  obtain ⟨c, hc, rfl⟩ := List.mem_map.mp hb
  obtain ⟨hbyte, hrange⟩ := toNat_of_mem_toDigits hc
  rwa [isDigit_iff, hbyte]

/-- The digits of a number, read again. -/
theorem foldl_decimal (n : ℕ) :
    (decimal n).foldl (fun (k : ℤ) b => 10 * k + (b.toNat - 48)) 0 = n := by
  have hfold : ∀ (cs : List Char) (k : ℕ), (∀ c ∈ cs, c ∈ Nat.toDigits 10 n) →
      (cs.map fun c => UInt8.ofNat c.toNat).foldl (fun (k : ℤ) b => 10 * k + (b.toNat - 48)) k =
        Nat.ofDigitChars 10 cs k := by
    intro cs
    induction cs with
    | nil => intro k _; rfl
    | cons c cs ih =>
      intro k hcs
      obtain ⟨hbyte, h₁, -⟩ := toNat_of_mem_toDigits (hcs c (List.mem_cons_self ..))
      have hzero : '0'.toNat = 48 := rfl
      rw [List.map_cons, List.foldl_cons, Nat.ofDigitChars_cons, hbyte, hzero,
        ← ih _ fun b hb => hcs b (List.mem_cons_of_mem _ hb)]
      congr 1
      omega
  have hvalue := hfold (Nat.toDigits 10 n) 0 fun _ => id
  rwa [Nat.ofDigitChars_ten_toDigits] at hvalue

/-- What a formatted number consists of. -/
theorem mem_formatInt {width : ℕ} {i : ℤ} {b : UInt8} (hb : b ∈ formatInt width i) :
    b = 32 ∨ b = 45 ∨ isDigit b := by
  rcases List.mem_append.mp hb with hpad | htext
  · exact Or.inl (List.eq_of_mem_replicate hpad)
  · rcases List.mem_append.mp htext with hsign | hdigit
    · split_ifs at hsign with hneg
      · exact Or.inr (Or.inl (List.mem_singleton.mp hsign))
      · exact absurd hsign List.not_mem_nil
    · exact Or.inr (Or.inr (isDigit_of_mem_decimal hdigit))

/-- Digits and padding contain no NUL. -/
theorem formatInt_ne_nul {width : ℕ} {i : ℤ} {b : UInt8} (hb : b ∈ formatInt width i) : b ≠ 0 := by
  rcases mem_formatInt hb with rfl | rfl | hdigit
  · decide
  · decide
  · rintro rfl
    exact absurd hdigit (by decide)

/-- A number stays on its line. -/
theorem newline_notMem_formatInt (width : ℕ) (i : ℤ) : 10 ∉ formatInt width i := by
  intro hb
  rcases mem_formatInt hb with h | h | h
  · exact absurd h (by decide)
  · exact absurd h (by decide)
  · exact absurd h (by decide)

/-- A number that fits its width fills it exactly. -/
theorem formatInt_length {width n : ℕ} (hw : 0 < width) (hn : n < 10 ^ width) :
    (formatInt width n).length = width := by
  have hlen : (decimal n).length ≤ width := by
    rw [decimal, List.length_map]
    exact (Nat.length_toDigits_le_iff (by decide) hw).mpr hn
  have hneg : ¬ (n : ℤ) < 0 := by omega
  simp only [formatInt, hneg, if_false, List.nil_append, Int.natAbs_natCast, List.length_append,
    List.length_replicate]
  omega

theorem cstr_of_ne_nul {s : List UInt8} (h : ∀ b ∈ s, b ≠ 0) : cstr s = s := by
  rw [cstr, List.takeWhile_eq_self_iff]
  simpa using h

/-- A NUL ends a string, whatever follows it. -/
theorem cstr_append_zero (s bytes : List UInt8) : cstr (s ++ 0 :: bytes) = cstr s := by
  induction s with
  | nil => rfl
  | cons b s ih =>
    rw [List.cons_append, cstr, cstr, List.takeWhile_cons, List.takeWhile_cons, ← cstr, ← cstr, ih]

theorem cstr_append {s : List UInt8} (h : 0 ∉ s) (bytes : List UInt8) :
    cstr (s ++ bytes) = s ++ cstr bytes := by
  rw [cstr, List.takeWhile_append_of_pos]
  · rfl
  · intro b hb
    have hne : b ≠ 0 := ne_of_mem_of_not_mem hb h
    simpa using hne

/-- A string in front of its NUL. -/
theorem cstr_append_nul {s : List UInt8} (h : 0 ∉ s) (bytes : List UInt8) :
    cstr (s ++ 0 :: bytes) = s := by
  rw [cstr_append h]
  exact List.append_nil s

theorem length_cstr_lt {s : List UInt8} (h : 0 ∈ s) : (cstr s).length < s.length := by
  have hpfx : cstr s <+: s := List.takeWhile_prefix _
  refine lt_of_le_of_ne hpfx.length_le ?_
  intro heq
  have hall := hpfx.eq_of_length heq
  rw [cstr, List.takeWhile_eq_self_iff] at hall
  simpa using hall 0 h

/-- Whatever stands behind the first NUL is not read. -/
theorem atoi_cstr (s : List UInt8) : atoi (cstr s) = atoi s := by
  have hcstr : cstr (cstr s) = cstr s := by
    refine cstr_of_ne_nul ?_
    intro b hb
    simpa using List.mem_takeWhile_imp (show b ∈ s.takeWhile (· ≠ 0) from hb)
  simp only [atoi, hcstr]

theorem atoi_range (s : List UInt8) : -2 ^ 31 ≤ atoi s ∧ atoi s ≤ 2 ^ 31 - 1 := by
  simp only [atoi]
  exact ⟨Int.le_max_left .., Int.max_le.mpr ⟨by decide, Int.min_le_left ..⟩⟩

/-- **Numbers round trip.** `atoi` reads what `%<width>d` has written. -/
theorem atoi_formatInt (width : ℕ) {n : ℕ} (hn : n < 2 ^ 31) : atoi (formatInt width n) = n := by
  have hneg : ¬ (n : ℤ) < 0 := by omega
  have hvalue := foldl_decimal n
  have hdigits := fun b => isDigit_of_mem_decimal (n := n) (b := b)
  have hskip : (cstr (formatInt width n)).dropWhile isSpace = (decimal n).dropWhile isSpace := by
    rw [cstr_of_ne_nul fun _ => formatInt_ne_nul]
    simp only [formatInt, hneg, if_false, List.nil_append, Int.natAbs_natCast]
    rw [List.dropWhile_append_of_pos fun b hb => ?_]
    rw [List.eq_of_mem_replicate hb]
    rfl
  obtain ⟨d, ds, hd⟩ : ∃ d ds, decimal n = d :: ds :=
    List.exists_cons_of_ne_nil fun h => Nat.toDigits_ne_nil (List.map_eq_nil_iff.mp h)
  rw [hd] at hvalue hdigits hskip
  obtain ⟨hspace, hplus, hminus⟩ := isSpace_of_isDigit (hdigits d (List.mem_cons_self ..))
  rw [List.dropWhile_cons_of_neg (by simp [hspace])] at hskip
  have hsign : (match d :: ds with
      | 43 :: s | 45 :: s => s
      | s => s) = d :: ds := by
    split
    · next heq => exact absurd (List.cons.inj heq).1 hplus
    · next heq => exact absurd (List.cons.inj heq).1 hminus
    · rfl
  have hhead : ¬ (d :: ds).head? = some 45 := by simpa using hminus
  simp only [atoi, hskip, hsign]
  rw [if_neg hhead, List.takeWhile_eq_self_iff.mpr hdigits, hvalue]
  omega

/-! ### Strings with their NUL -/

/-- A NUL-terminated string. -/
structure CStr where
  /-- What is in front of the NUL. -/
  chars : List UInt8
  no_nul : 0 ∉ chars

namespace CStr

variable {s : CStr} {i : ℕ}

def strlen (s : CStr) : ℕ := s.chars.length

/-- The characters, and NUL from their end on. -/
def char (s : CStr) (i : ℕ) : UInt8 := s.chars.getD i 0

/-- `s[i]`: the NUL can be read, and nothing behind it. -/
def get (s : CStr) (i : ℕ) : Option UInt8 := if i ≤ s.strlen then some (s.char i) else none

theorem get_of_le (h : i ≤ s.strlen) : s.get i = some (s.char i) := if_pos h

theorem char_of_lt (h : i < s.strlen) : s.char i = s.chars.get ⟨i, h⟩ := by
  rw [char, List.getD_eq_getElem?_getD, List.getElem?_eq_getElem h, Option.getD_some]
  rfl

end CStr

/-! ### The next character of a set -/

/-- `strpbrk`: how far from here the next character of the set is, if there is one in front of the
NUL. It must not be looked for where there is no NUL. -/
def strpbrk (accept : UInt8 → Bool) : List UInt8 → Option (Option ℕ)
  | [] => none
  | c :: bytes =>
    if c = 0 then some none
    else if accept c then some (some 0)
    else (strpbrk accept bytes).map (Option.map (· + 1))

section Strpbrk

variable {accept : UInt8 → Bool} {field : List UInt8}

theorem strpbrk_append (h : ∀ c ∈ field, c ≠ 0 ∧ accept c = false) (bytes : List UInt8) :
    strpbrk accept (field ++ bytes) =
      (strpbrk accept bytes).map (Option.map (· + field.length)) := by
  induction field with
  | nil => simp
  | cons c field ih =>
    obtain ⟨⟨hc, haccept⟩, hfield⟩ := List.forall_mem_cons.mp h
    rw [List.cons_append, strpbrk, if_neg hc, if_neg (by simp [haccept]), ih hfield,
      Option.map_map, Option.map_comp_map]
    exact congrArg (fun f => (strpbrk accept bytes).map (Option.map f))
      (funext fun k => Nat.add_assoc k field.length 1)

/-- **The first one.** There is none in front of the NUL, or a field without one in front of it. -/
theorem strpbrk_cases {s : List UInt8} (accept : UInt8 → Bool) (hs : 0 ∉ s) (bytes : List UInt8) :
    ((∀ c ∈ s, accept c = false) ∧ strpbrk accept (s ++ 0 :: bytes) = some none) ∨
      ∃ field c more, s = field ++ c :: more ∧ (∀ d ∈ field, accept d = false) ∧ accept c ∧
        strpbrk accept (s ++ 0 :: bytes) = some (some field.length) := by
  have hnul : ∀ c ∈ s, c ≠ 0 := fun c hc => ne_of_mem_of_not_mem hc hs
  cases hfind : s.find? accept with
  | none =>
    have hall : ∀ c ∈ s, accept c = false := by simpa using List.find?_eq_none.mp hfind
    refine Or.inl ⟨hall, ?_⟩
    rw [strpbrk_append fun c hc => ⟨hnul c hc, hall c hc⟩]
    rfl
  | some c =>
    obtain ⟨hc, field, more, rfl, hfield⟩ := List.find?_eq_some_iff_append.mp hfind
    have hfield : ∀ d ∈ field, accept d = false := by simpa using hfield
    refine Or.inr ⟨field, c, more, rfl, hfield, hc, ?_⟩
    rw [List.append_assoc, strpbrk_append fun d hd =>
        ⟨hnul d (List.mem_append_left _ hd), hfield d hd⟩, List.cons_append, strpbrk,
      if_neg (hnul c (by simp)), if_pos hc]
    simp

end Strpbrk

/-! ### Tokens -/

/-- The bytes of a string literal. -/
def ascii (s : String) : List UInt8 := s.toUTF8.data.toList

/-- `strtok_s(NULL, delim, &context)`: the token at the front of the context, and the context
behind the delimiter that ends it. -/
def strtokS (delim : UInt8 → Bool) (context : List UInt8) : Option (List UInt8 × List UInt8) :=
  match context.dropWhile delim with
  | [] => none
  | b :: rest => some (b :: rest.takeWhile (!delim ·), (rest.dropWhile (!delim ·)).tail)

/-- The tokens of a context: its fields that are not empty. -/
def tokens (delim : UInt8 → Bool) (context : List UInt8) : List (List UInt8) :=
  (context.splitOnP delim).filter (· ≠ [])

section Tokens

variable {delim : UInt8 → Bool} {context rest token : List UInt8}

/-- There is one field more than there are delimiters. -/
theorem length_splitOnP (delim : UInt8 → Bool) (context : List UInt8) :
    (context.splitOnP delim).length = context.countP delim + 1 := by
  induction context with
  | nil => rfl
  | cons b context ih =>
    rw [List.splitOnP_cons_eq_if_modifyHead]
    split_ifs with hb
    · rw [List.length_cons, ih, List.countP_cons_of_pos hb]
    · rw [List.length_modifyHead, ih, List.countP_cons_of_neg hb]

theorem length_lt_of_strtokS (h : strtokS delim context = some (token, rest)) :
    rest.length < context.length := by
  rw [strtokS] at h
  split at h
  · cases h
  · next b tail hskip =>
    obtain ⟨-, rfl⟩ := Prod.mk.inj (Option.some.inj h)
    have hsuffix := (List.dropWhile_suffix (l := context) delim).length_le
    have hrest := (List.dropWhile_suffix (l := tail) (!delim ·)).length_le
    rw [hskip, List.length_cons] at hsuffix
    rw [List.length_tail]
    omega

/-- Delimiters in front make no token. -/
theorem tokens_dropWhile (delim : UInt8 → Bool) (context : List UInt8) :
    tokens delim (context.dropWhile delim) = tokens delim context := by
  induction context with
  | nil => rfl
  | cons b context ih =>
    by_cases hb : delim b
    · rw [List.dropWhile_cons_of_pos (by simpa using hb), ih]
      simp [tokens, List.splitOnP_cons_eq_if_modifyHead, hb]
    · rw [List.dropWhile_cons_of_neg hb]

/-- A field without a delimiter in front of one is a token of its own. -/
theorem tokens_append {b c : UInt8} {field : List UInt8} (hc : delim c)
    (hfield : ∀ d ∈ b :: field, delim d = false) (more : List UInt8) :
    tokens delim (b :: field ++ c :: more) = (b :: field) :: tokens delim more := by
  rw [tokens, List.splitOnP_append_cons_of_forall_mem hfield c hc]
  simp [tokens]

/-- **The tokens.** `strtok_s` answers the first of them and leaves the context of the others, or
`NULL` when there is none. -/
theorem tokens_of_strtokS (delim : UInt8 → Bool) (context : List UInt8) : tokens delim context =
    match strtokS delim context with
    | none => []
    | some (token, rest) => token :: tokens delim rest := by
  rw [← tokens_dropWhile, strtokS]
  cases hskip : context.dropWhile delim with
  | nil => rfl
  | cons b tail =>
    have hb : delim b = false := by
      have h := List.dropWhile_get_zero_not delim context (by rw [hskip]; simp)
      simpa [hskip] using h
    have hfield : ∀ d ∈ b :: tail.takeWhile (!delim ·), delim d = false := by
      intro d hd
      rcases List.mem_cons.mp hd with rfl | hd
      · exact hb
      · simpa using List.mem_takeWhile_imp hd
    have hsplit := List.takeWhile_append_dropWhile (p := (!delim ·)) (l := tail)
    generalize hword : tail.takeWhile (!delim ·) = field at hfield hsplit
    cases hend : tail.dropWhile (!delim ·) with
    | nil =>
      rw [hend, List.append_nil] at hsplit
      subst hsplit
      simp [tokens, List.splitOnP_eq_singleton hfield, hword, hend]
    | cons c more =>
      have hc : delim c := by
        have h := List.dropWhile_get_zero_not (!delim ·) tail (by rw [hend]; simp)
        simpa [hend] using h
      rw [hend] at hsplit
      simp only [hword, hend, List.tail_cons]
      rw [← hsplit, ← List.cons_append, tokens_append hc hfield]

theorem tokens_eq_nil_iff : tokens delim context = [] ↔ strtokS delim context = none := by
  rw [tokens_of_strtokS]
  cases strtokS delim context with
  | none => exact iff_of_true rfl rfl
  | some r => exact iff_of_false nofun nofun

theorem tokens_eq_cons_iff {ts : List (List UInt8)} : tokens delim context = token :: ts ↔
    ∃ rest, strtokS delim context = some (token, rest) ∧ tokens delim rest = ts := by
  rw [tokens_of_strtokS]
  cases strtokS delim context with
  | none => exact iff_of_false nofun nofun
  | some r =>
    obtain ⟨token', rest⟩ := r
    constructor
    · intro h
      obtain ⟨rfl, rfl⟩ := List.cons.inj h
      exact ⟨rest, rfl, rfl⟩
    · rintro ⟨rest', h, rfl⟩
      obtain ⟨rfl, rfl⟩ := Prod.mk.inj (Option.some.inj h)
      rfl

end Tokens

end Exec02
