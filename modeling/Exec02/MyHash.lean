import Exec02.Lib.CString
import Mathlib.Algebra.Order.Ring.Nat
import Mathlib.Data.Int.Basic
import Mathlib.Data.Nat.Bitwise

/-!
# The string hash of `myhash.c`

`myhash` shifts what it has by a nibble, adds the next character and folds the nibble that came to
the top back onto the second lowest one. So the top nibble is empty again before the next shift,
and the shift loses nothing.

## Reading the model

* the arithmetic is that of a 32-bit `unsigned int`
* `char` is signed: a character is extended by its sign before it is added, so that the addition
  can wrap around
* the bytes of a key are those from `ptr` on. A key with no NUL among them is `none`, and so is a
  table of no size, by which nothing can be divided

## Main results

* `foldTop_lt`, `eq_of_foldTop_eq_of_near` — folding makes room, and keeps apart what is close
  together
* `myhash.turn_injective` — two characters in the same place make a difference
* `myhash_separates` — 28 bits after every character, and keys that differ in the last one
-/

namespace Exec02

/-! ### The source -/

/-- The body of the loop of `myhash`, on `val` and `*ptr`. -/
def myhash.turn (val : UInt32) (c : UInt8) : UInt32 :=
  let val := (val <<< 4) + c.toInt8.toInt32.toUInt32
  let tmp := val &&& 0xf0000000
  if tmp ≠ 0 then
    let val := val ^^^ (tmp >>> 24)
    val ^^^ tmp
  else val

/-- The loop of `myhash`, on the bytes from `ptr` on. -/
def myhash.loop : List UInt8 → UInt32 → Option UInt32
  | [], _ => none
  | c :: bytes, val => if c ≠ 0 then myhash.loop bytes (myhash.turn val c) else some val

/-- `myhash`. -/
def myhash (primeTabsiz : UInt32) (key : List UInt8) : Option UInt32 := do
  let val ← myhash.loop key 0
  if primeTabsiz = 0 then none else some (val % primeTabsiz)

/-- `val` after the first `k` characters. -/
def myhash.accumulator (key : CStr) (k : ℕ) : UInt32 := (key.chars.take k).foldl myhash.turn 0

/-! ### Folding the top nibble -/

/-- The nibble above the 28 bits that stay goes onto the second lowest one. -/
def foldTop (x : ℕ) : ℕ := x % 2 ^ 28 ^^^ x / 2 ^ 28 * 2 ^ 4

section FoldTop

variable {x y : ℕ}

/-- What stands above the low bits. -/
theorem and_top (hx : x < 2 ^ 32) : x &&& 0xf0000000 = x / 2 ^ 28 * 2 ^ 28 := by
  have hlow : (x &&& 0xf0000000) % 2 ^ 28 = 0 := by
    rw [Nat.and_mod_two_pow]
    exact Nat.and_zero _
  have htop : (x &&& 0xf0000000) / 2 ^ 28 = x / 2 ^ 28 := by
    rw [Nat.and_div_two_pow, show (0xf0000000 : ℕ) / 2 ^ 28 = 2 ^ 4 - 1 by rfl,
      Nat.and_two_pow_sub_one_eq_mod, Nat.mod_eq_of_lt (by omega)]
  omega

/-- Taking it away. -/
theorem xor_top (x : ℕ) : x ^^^ x / 2 ^ 28 * 2 ^ 28 = x % 2 ^ 28 := by
  have hlow : (x ^^^ x / 2 ^ 28 * 2 ^ 28) % 2 ^ 28 = x % 2 ^ 28 := by
    rw [Nat.xor_mod_two_pow, Nat.mul_mod_left, Nat.xor_zero]
  have htop : (x ^^^ x / 2 ^ 28 * 2 ^ 28) / 2 ^ 28 = 0 := by
    rw [Nat.xor_div_two_pow, Nat.mul_div_cancel _ (by decide), Nat.xor_self]
  omega

/-- **Room.** The top nibble is empty. -/
theorem foldTop_lt (hx : x < 2 ^ 32) : foldTop x < 2 ^ 28 :=
  Nat.xor_lt_two_pow (by omega) (by omega)

/-- Above the lowest two nibbles nothing changes. -/
theorem foldTop_div (hx : x < 2 ^ 32) : foldTop x / 2 ^ 8 = x % 2 ^ 28 / 2 ^ 8 := by
  rw [foldTop, Nat.xor_div_two_pow, show x / 2 ^ 28 * 2 ^ 4 / 2 ^ 8 = 0 by omega, Nat.xor_zero]

/-- Under the same top nibble, the rest can be told from what became of it. -/
theorem eq_of_foldTop_eq (hdiv : x / 2 ^ 28 = y / 2 ^ 28) (h : foldTop x = foldTop y) : x = y := by
  rw [foldTop, foldTop, hdiv] at h
  have hmod := Nat.xor_left_inj.mp h
  omega

/-- **Close together.** Two numbers that are less than a byte apart, around the end of the 32 bits
too, do not become the same: where one more is carried into the top nibble, the upper bits of the
rest go from all ones to all zeros. -/
theorem eq_of_foldTop_eq_of_near (hx : x < 2 ^ 32) (hy : y < 2 ^ 32)
    (hnear : ((x : ℤ) - y) % 2 ^ 32 < 2 ^ 8 ∨ ((y : ℤ) - x) % 2 ^ 32 < 2 ^ 8)
    (h : foldTop x = foldTop y) : x = y := by
  have hupper : x % 2 ^ 28 / 2 ^ 8 = y % 2 ^ 28 / 2 ^ 8 := by
    rw [← foldTop_div hx, ← foldTop_div hy, h]
  exact eq_of_foldTop_eq (by omega) h

end FoldTop

/-! ### A turn -/

/-- A `char`, extended by its sign. -/
theorem toNat_char (c : UInt8) : c.toInt8.toInt32.toUInt32.toNat =
    c.toNat + if 2 ^ 7 ≤ c.toNat then 2 ^ 32 - 2 ^ 8 else 0 := by
  have hext : c.toInt8.toInt32.toUInt32.toNat = (c.toBitVec.signExtend 32).toNat := rfl
  rw [hext, BitVec.toNat_signExtend, BitVec.toNat_setWidth, BitVec.msb_eq_decide]
  have hc := c.toNat_lt
  have hmod : c.toBitVec.toNat % 2 ^ 32 = c.toNat := Nat.mod_eq_of_lt (hc.trans (by decide))
  rw [hmod]
  simp

theorem char_injective : Function.Injective fun c : UInt8 => c.toInt8.toInt32.toUInt32 := by
  intro c c' h
  have hnat := congrArg UInt32.toNat h
  simp only [toNat_char] at hnat
  have hc := c.toNat_lt
  have hc' := c'.toNat_lt
  refine UInt8.toNat_inj.mp ?_
  split_ifs at hnat <;> omega

/-- With their signs too, two characters are less than a byte apart. -/
theorem add_char_near (x : UInt32) (c c' : UInt8) :
    (((x + c.toInt8.toInt32.toUInt32).toNat : ℤ) - (x + c'.toInt8.toInt32.toUInt32).toNat) %
        2 ^ 32 < 2 ^ 8 ∨
      (((x + c'.toInt8.toInt32.toUInt32).toNat : ℤ) - (x + c.toInt8.toInt32.toUInt32).toNat) %
        2 ^ 32 < 2 ^ 8 := by
  have hc := c.toNat_lt
  have hc' := c'.toNat_lt
  rw [UInt32.toNat_add, UInt32.toNat_add, toNat_char, toNat_char]
  split_ifs <;> omega

namespace myhash

/-- The body folds what the addition made. -/
theorem toNat_turn (val : UInt32) (c : UInt8) :
    (turn val c).toNat = foldTop ((val <<< 4) + c.toInt8.toInt32.toUInt32).toNat := by
  rw [turn]
  generalize (val <<< 4) + c.toInt8.toInt32.toUInt32 = x
  have hx := x.toNat_lt
  have htop : (x &&& 0xf0000000).toNat = x.toNat / 2 ^ 28 * 2 ^ 28 := by
    rw [UInt32.toNat_and]
    exact and_top hx
  have hshift : ((x &&& 0xf0000000) >>> 24).toNat = x.toNat / 2 ^ 28 * 2 ^ 4 := by
    rw [UInt32.toNat_shiftRight, htop, Nat.shiftRight_eq_div_pow]
    change x.toNat / 2 ^ 28 * 2 ^ 28 / 2 ^ 24 = _
    omega
  by_cases htmp : x &&& 0xf0000000 ≠ 0
  · rw [if_pos htmp, UInt32.toNat_xor, UInt32.toNat_xor, hshift, htop, Nat.xor_right_comm, xor_top,
      foldTop]
  · rw [if_neg htmp]
    have hzero : x.toNat / 2 ^ 28 = 0 := by
      rw [not_ne_iff.mp htmp, UInt32.toNat_zero] at htop
      omega
    rw [foldTop, hzero, Nat.zero_mul, Nat.xor_zero]
    omega

theorem turn_lt (val : UInt32) (c : UInt8) : (turn val c).toNat < 2 ^ 28 := by
  rw [toNat_turn]
  exact foldTop_lt (UInt32.toNat_lt _)

/-- **One character.** What two of them add is close together, and folding keeps it apart. -/
theorem turn_injective (val : UInt32) : Function.Injective (turn val) := by
  intro c c' h
  have hfold := congrArg UInt32.toNat h
  rw [toNat_turn, toNat_turn] at hfold
  have hsum := eq_of_foldTop_eq_of_near (UInt32.toNat_lt _) (UInt32.toNat_lt _)
    (add_char_near (val <<< 4) c c') hfold
  exact char_injective ((UInt32.add_right_inj _).mp (UInt32.toNat_inj.mp hsum))

/-! ### A run -/

variable {chars : List UInt8}

/-- The loop turns once for each character that is not NUL. -/
theorem loop_append (h : 0 ∉ chars) (bytes : List UInt8) (val : UInt32) :
    loop (chars ++ bytes) val = loop bytes (chars.foldl turn val) := by
  induction chars generalizing val with
  | nil => rfl
  | cons c chars ih =>
    obtain ⟨hc, hchars⟩ := not_or.mp (h ∘ List.mem_cons.mpr)
    rw [List.cons_append, loop, if_pos (Ne.symm hc), ih hchars, List.foldl_cons]

theorem loop_eq (key : CStr) (rest : List UInt8) :
    loop (key.chars ++ 0 :: rest) 0 = some (key.chars.foldl turn 0) := by
  rw [loop_append key.no_nul]
  rfl

/-- The loop comes by the accumulator. -/
theorem loop_accumulator (key : CStr) (rest : List UInt8) (k : ℕ) :
    loop (key.chars ++ 0 :: rest) 0 =
      loop (key.chars.drop k ++ 0 :: rest) (accumulator key k) := by
  have hfront : 0 ∉ key.chars.take k := fun h => key.no_nul (List.mem_of_mem_take h)
  rw [accumulator, ← loop_append hfront, ← List.append_assoc, List.take_append_drop]

theorem foldl_turn_lt (chars : List UInt8) : (chars.foldl turn 0).toNat < 2 ^ 28 := by
  rcases List.eq_nil_or_concat chars with rfl | ⟨init, c, rfl⟩
  · decide
  · rw [List.concat_eq_append, List.foldl_append]
    exact turn_lt _ c

/-- The last turn is that of the last character. -/
theorem accumulator_strlen {key : CStr} {init : List UInt8} {c : UInt8}
    (h : key.chars = init ++ [c]) :
    accumulator key key.strlen = turn (init.foldl turn 0) c := by
  rw [accumulator, CStr.strlen, List.take_length, h, List.foldl_append]
  rfl

/-- A shift by a nibble discards nothing. -/
theorem toNat_shift {val : UInt32} (h : val.toNat < 2 ^ 28) :
    (val <<< 4).toNat = val.toNat * 2 ^ 4 := by
  rw [UInt32.toNat_shiftLeft, Nat.shiftLeft_eq]
  exact Nat.mod_eq_of_lt (show val.toNat * 2 ^ 4 < 2 ^ 32 by omega)

end myhash

/-- In a table that is large enough, `myhash` answers what the loop ends with. -/
theorem myhash_eq {primeTabsiz : UInt32} (htab : 2 ^ 28 ≤ primeTabsiz.toNat) (key : CStr)
    (rest : List UInt8) :
    myhash primeTabsiz (key.chars ++ 0 :: rest) = some (myhash.accumulator key key.strlen) := by
  rw [myhash.accumulator, CStr.strlen, List.take_length]
  have hpos : primeTabsiz ≠ 0 := by
    rintro rfl
    exact absurd htab (by decide)
  have hlt := myhash.foldl_turn_lt key.chars
  have hmod : key.chars.foldl myhash.turn 0 % primeTabsiz = key.chars.foldl myhash.turn 0 := by
    rw [← UInt32.toNat_inj, UInt32.toNat_mod]
    exact Nat.mod_eq_of_lt (hlt.trans_le htab)
  rw [myhash, myhash.loop_eq]
  exact (if_neg hpos).trans (congrArg some hmod)

/-- **`myhash` keeps 28 bits and separates last characters.** After every character the next shift
discards nothing, a table of 2²⁸ places or more does not matter, and two keys that are equal but
for the last byte have different places in it. -/
theorem myhash_separates :
    (∀ (key : CStr) (rest : List UInt8),
      (∀ k, (myhash.accumulator key k).toNat < 2 ^ 28 ∧
        (myhash.accumulator key k <<< 4).toNat = (myhash.accumulator key k).toNat * 2 ^ 4 ∧
        myhash.loop (key.chars ++ 0 :: rest) 0 =
          myhash.loop (key.chars.drop k ++ 0 :: rest) (myhash.accumulator key k)) ∧
      ∀ primeTabsiz : UInt32, 2 ^ 28 ≤ primeTabsiz.toNat →
        myhash primeTabsiz (key.chars ++ 0 :: rest) =
          some (myhash.accumulator key key.strlen)) ∧
    ∀ (key key' : CStr) (rest rest' init : List UInt8) (c c' : UInt8),
      key.chars = init ++ [c] → key'.chars = init ++ [c'] → c ≠ c' →
        ∀ primeTabsiz : UInt32, 2 ^ 28 ≤ primeTabsiz.toNat →
          myhash primeTabsiz (key.chars ++ 0 :: rest) ≠
            myhash primeTabsiz (key'.chars ++ 0 :: rest') := by
  refine ⟨fun key rest => ⟨?_, fun primeTabsiz htab => myhash_eq htab key rest⟩, ?_⟩
  · intro k
    have hlt := myhash.foldl_turn_lt (key.chars.take k)
    exact ⟨hlt, myhash.toNat_shift hlt, myhash.loop_accumulator key rest k⟩
  · intro key key' rest rest' init c c' hkey hkey' hne primeTabsiz htab heq
    rw [myhash_eq htab, myhash_eq htab, Option.some_inj, myhash.accumulator_strlen hkey,
      myhash.accumulator_strlen hkey'] at heq
    exact hne (myhash.turn_injective _ heq)

/-- Two keys in the smallest such table, of which the second ends in a negative character. -/
theorem myhash_separates_sample :
    myhash 0x10000000 [97, 98, 0] ≠ myhash 0x10000000 [97, 200, 0] :=
  myhash_separates.2 ⟨[97, 98], by decide⟩ ⟨[97, 200], by decide⟩ [] [] [97] 98 200 rfl rfl
    (by decide) 0x10000000 (by decide)

end Exec02
