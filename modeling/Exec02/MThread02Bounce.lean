import Mathlib.Algebra.Order.Ring.Int
import Mathlib.Logic.Function.Iterate
import Mathlib.Order.Lattice.Nat

/-!
# The bouncing face

`MThread02.c`, and `Main01.c` with the same text: a round of `bounceProc` draws the face, moves it,
and turns it round if it has left the screen. By then it is too late, since the next round draws it
where it is now. And a face that is as far down as the screen is high is not turned round.

## Reading the model

A `SHORT` has 16 bits. The position and the step that `getrandom` gives a face are its start.

## Main results

* `bounce_spec` — one round
* `drawn_on_screen_iff` — for how many rounds the face is drawn on the screen
-/

namespace Exec02

/-- `COORD`. -/
structure Coord where
  x : Int16
  y : Int16
  deriving DecidableEq

/-- The face of a thread. -/
structure Face where
  coords : Coord
  delta : Coord
  deriving DecidableEq

/-- A round of `bounceProc` behind the drawing, on a screen of the size `dwSize`. -/
def Face.bounce (dwSize : Coord) (face : Face) : Face :=
  let coords : Coord := ⟨face.coords.x + face.delta.x, face.coords.y + face.delta.y⟩
  { coords
    delta.x := if coords.x < 0 ∨ coords.x ≥ dwSize.x then -face.delta.x else face.delta.x
    delta.y := if coords.y < 0 ∨ coords.y > dwSize.y then -face.delta.y else face.delta.y }

/-- Where the face is drawn in a round. -/
def Face.drawn (dwSize : Coord) (face : Face) (round : ℕ) : Coord :=
  ((Face.bounce dwSize)^[round] face).coords

/-- A position is on the screen. -/
def OnScreen (dwSize coords : Coord) : Prop :=
  (0 ≤ coords.x ∧ coords.x < dwSize.x) ∧ 0 ≤ coords.y ∧ coords.y < dwSize.y

/-- A step of at most three in each direction. -/
def SmallStep (delta : Coord) : Prop :=
  (-3 ≤ delta.x ∧ delta.x ≤ 3) ∧ -3 ≤ delta.y ∧ delta.y ≤ 3

/-- So many steps away is on the screen. -/
def Face.Reaches (dwSize : Coord) (face : Face) (steps : ℕ) : Prop :=
  (0 ≤ face.coords.x.toInt + steps * face.delta.x.toInt ∧
    face.coords.x.toInt + steps * face.delta.x.toInt < dwSize.x.toInt) ∧
  0 ≤ face.coords.y.toInt + steps * face.delta.y.toInt ∧
    face.coords.y.toInt + steps * face.delta.y.toInt < dwSize.y.toInt

instance (dwSize coords : Coord) : Decidable (OnScreen dwSize coords) :=
  inferInstanceAs (Decidable ((_ ∧ _) ∧ _ ∧ _))

instance (delta : Coord) : Decidable (SmallStep delta) :=
  inferInstanceAs (Decidable ((_ ∧ _) ∧ _ ∧ _))

instance (dwSize : Coord) (face : Face) (steps : ℕ) : Decidable (face.Reaches dwSize steps) :=
  inferInstanceAs (Decidable ((_ ∧ _) ∧ _ ∧ _))

/-! ### One round -/

/-- One axis: the sum is on the screen as a `SHORT` if it is as a number, and then they agree. -/
theorem add_spec {size c d : Int16} (hc : 0 ≤ c ∧ c < size) (hd : -3 ≤ d ∧ d ≤ 3) :
    (0 ≤ c + d ∧ c + d < size ↔ 0 ≤ c.toInt + d.toInt ∧ c.toInt + d.toInt < size.toInt) ∧
    (0 ≤ c.toInt + d.toInt ∧ c.toInt + d.toInt < size.toInt →
      (c + d).toInt = c.toInt + d.toInt) := by
  have hsize := size.toInt_lt
  have hthree : (3 : Int16).toInt = 3 := rfl
  have hthree' : (-3 : Int16).toInt = -3 := rfl
  simp only [Int16.le_iff_toInt_le, Int16.lt_iff_toInt_lt, Int16.toInt_zero, hthree, hthree'] at *
  have hsum : (c + d).toInt = if c.toInt + d.toInt < 2 ^ 15 then c.toInt + d.toInt
      else c.toInt + d.toInt - 2 ^ 16 := by
    rw [Int16.toInt_add, Int.bmod]
    split_ifs <;> omega
  rw [hsum]
  split_ifs <;> omega

/-- **One round.** The face stays on the screen if its next position is there, and then it is not
turned round. -/
theorem bounce_spec {dwSize : Coord} {face : Face} (hface : OnScreen dwSize face.coords)
    (hdelta : SmallStep face.delta) :
    (OnScreen dwSize (face.bounce dwSize).coords ↔ face.Reaches dwSize 1) ∧
    (face.Reaches dwSize 1 →
      (face.bounce dwSize).coords.x.toInt = face.coords.x.toInt + face.delta.x.toInt ∧
      (face.bounce dwSize).coords.y.toInt = face.coords.y.toInt + face.delta.y.toInt ∧
      (face.bounce dwSize).delta = face.delta) := by
  obtain ⟨hx, hxsum⟩ := add_spec hface.1 hdelta.1
  obtain ⟨hy, hysum⟩ := add_spec hface.2 hdelta.2
  have hreaches : face.Reaches dwSize 1 ↔
      (0 ≤ face.coords.x.toInt + face.delta.x.toInt ∧
        face.coords.x.toInt + face.delta.x.toInt < dwSize.x.toInt) ∧
      0 ≤ face.coords.y.toInt + face.delta.y.toInt ∧
        face.coords.y.toInt + face.delta.y.toInt < dwSize.y.toInt := by
    rw [Face.Reaches, Nat.cast_one, one_mul, one_mul]
  rw [hreaches]
  refine ⟨and_congr hx hy, fun h => ⟨hxsum h.1, hysum h.2, ?_⟩⟩
  obtain ⟨hx₀, hxlt⟩ := hx.mpr h.1
  obtain ⟨hy₀, hylt⟩ := hy.mpr h.2
  have hturnx : ¬ (face.coords.x + face.delta.x < 0 ∨ face.coords.x + face.delta.x ≥ dwSize.x) := by
    rw [not_or]
    exact ⟨Int16.not_lt.mpr hx₀, Int16.not_le.mpr hxlt⟩
  have hturny : ¬ (face.coords.y + face.delta.y < 0 ∨ face.coords.y + face.delta.y > dwSize.y) := by
    rw [not_or]
    exact ⟨Int16.not_lt.mpr hy₀, Int16.not_lt.mpr (Int16.le_of_lt hylt)⟩
  simp only [Face.bounce, if_neg hturnx, if_neg hturny]

/-! ### Runs -/

variable {dwSize : Coord} {face : Face} {n : ℕ}

theorem reaches_zero_iff : face.Reaches dwSize 0 ↔ OnScreen dwSize face.coords := by
  simp [Face.Reaches, OnScreen, Int16.le_iff_toInt_le, Int16.lt_iff_toInt_lt]

/-- After rounds along a line on the screen: whether the next one draws there too, and if it does,
where, and that the face has not been turned round. -/
theorem drawn_spec (hdelta : SmallStep face.delta)
    (hline : ∀ k < n, face.Reaches dwSize k) :
    (OnScreen dwSize (face.drawn dwSize n) ↔ face.Reaches dwSize n) ∧
    (face.Reaches dwSize n →
      (face.drawn dwSize n).x.toInt = face.coords.x.toInt + n * face.delta.x.toInt ∧
      (face.drawn dwSize n).y.toInt = face.coords.y.toInt + n * face.delta.y.toInt ∧
      ((Face.bounce dwSize)^[n] face).delta = face.delta) := by
  induction n with
  | zero => exact ⟨reaches_zero_iff.symm, fun _ => by simp [Face.drawn]⟩
  | succ n ih =>
    obtain ⟨hon, hat⟩ := ih fun k hk => hline k (by omega)
    have hreach := hline n n.lt_succ_self
    obtain ⟨hx, hy, hsame⟩ := hat hreach
    have hdrawn : face.drawn dwSize (n + 1) =
        (((Face.bounce dwSize)^[n] face).bounce dwSize).coords := by
      rw [Face.drawn, Function.iterate_succ_apply']
    rw [hdrawn, Function.iterate_succ_apply']
    rw [Face.drawn] at hon hx hy
    generalize (Face.bounce dwSize)^[n] face = f at hon hx hy hsame
    obtain ⟨hstays, hnext⟩ := bounce_spec (hon.mpr hreach) (hsame ▸ hdelta)
    -- one step from there is one more step from the start
    have hsum : ∀ c d : ℤ, c + (n + 1 : ℕ) * d = c + n * d + d := by
      intro c d
      rw [Nat.cast_succ, add_one_mul, add_assoc]
    have hreaches : f.Reaches dwSize 1 ↔ face.Reaches dwSize (n + 1) := by
      simp only [Face.Reaches, hx, hy, hsame, hsum, Nat.cast_one, one_mul]
    rw [hreaches] at hstays hnext
    refine ⟨hstays, ?_⟩
    intro h
    obtain ⟨hx', hy', hsame'⟩ := hnext h
    rw [hx', hy', hsame', hx, hy, hsame, hsum, hsum]
    exact ⟨rfl, rfl, rfl⟩

/-- What is between two numbers of an interval is in it. -/
theorem between {c d size : ℤ} {k : ℕ} (hc : 0 ≤ c ∧ c < size)
    (hn : 0 ≤ c + n * d ∧ c + n * d < size) (hk : k ≤ n) : 0 ≤ c + k * d ∧ c + k * d < size := by
  have hk : (k : ℤ) ≤ n := Int.ofNat_le.mpr hk
  rcases le_total 0 d with hd | hd
  · have h₀ := mul_nonneg (Int.natCast_nonneg k) hd
    have hle := mul_le_mul_of_nonneg_right hk hd
    omega
  · have h₀ := mul_nonpos_of_nonneg_of_nonpos (Int.natCast_nonneg k) hd
    have hle := mul_le_mul_of_nonpos_right hk hd
    omega

/-- A line is on the screen if its ends are. -/
theorem Face.Reaches.of_le (hstart : OnScreen dwSize face.coords) (h : face.Reaches dwSize n)
    {k : ℕ} (hk : k ≤ n) : face.Reaches dwSize k := by
  have h₀ := reaches_zero_iff.mpr hstart
  simp only [Face.Reaches, Nat.cast_zero, zero_mul, add_zero] at h₀
  exact ⟨between h₀.1 h.1 hk, between h₀.2 h.2 hk⟩

/-- **The face on the screen.** Every round of so many draws the face on the screen exactly if the
last one would without any edges. -/
theorem drawn_on_screen_iff (hstart : OnScreen dwSize face.coords) (hdelta : SmallStep face.delta)
    (n : ℕ) : (∀ round < n, OnScreen dwSize (face.drawn dwSize round)) ↔
      n = 0 ∨ face.Reaches dwSize (n - 1) := by
  have hline : (∀ round < n, OnScreen dwSize (face.drawn dwSize round)) ↔
      ∀ round < n, face.Reaches dwSize round := by
    induction n with
    | zero => exact iff_of_true nofun nofun
    | succ n ih =>
      rw [Nat.forall_lt_succ_right, Nat.forall_lt_succ_right, ih]
      exact and_congr_right fun h => (drawn_spec hdelta h).1
  rw [hline]
  cases n with
  | zero => exact iff_of_true nofun (Or.inl rfl)
  | succ n =>
    constructor
    · exact fun h => Or.inr (h n n.lt_succ_self)
    · rintro (h | h) k hk
      · cases h
      · exact h.of_le hstart (Nat.le_of_lt_succ hk)

/-- Across a small screen. -/
theorem drawn_on_screen_sample :
    OnScreen ⟨4, 4⟩ (Face.drawn ⟨4, 4⟩ ⟨⟨0, 3⟩, ⟨3, -3⟩⟩ 0) ∧
      OnScreen ⟨4, 4⟩ (Face.drawn ⟨4, 4⟩ ⟨⟨0, 3⟩, ⟨3, -3⟩⟩ 1) := by
  have hall : ∀ round < 2, OnScreen ⟨4, 4⟩ (Face.drawn ⟨4, 4⟩ ⟨⟨0, 3⟩, ⟨3, -3⟩⟩ round) :=
    (drawn_on_screen_iff (by decide) (by decide) 2).mpr (Or.inr (by decide))
  exact ⟨hall 0 (by decide), hall 1 (by decide)⟩

/-- One column too far, where the face is turned round, and one line too far, where it is not. -/
theorem not_drawn_on_screen :
    ¬ OnScreen ⟨4, 4⟩ (Face.drawn ⟨4, 4⟩ ⟨⟨3, 0⟩, ⟨1, 0⟩⟩ 1) ∧
    ¬ OnScreen ⟨4, 4⟩ (Face.drawn ⟨4, 4⟩ ⟨⟨0, 3⟩, ⟨0, 1⟩⟩ 1) ∧
    Face.bounce ⟨4, 4⟩ ⟨⟨0, 3⟩, ⟨0, 1⟩⟩ = ⟨⟨0, 4⟩, ⟨0, 1⟩⟩ := by
  decide

end Exec02
