import Mathlib.Data.Int.Log
import TinyState.Js.Number

/-!
# Arithmetic of numbers

The results of the operators are rounded to the nearest number with 53 binary digits. A count
that goes up by ones is exact up to 2^53, and stays there.
-/

namespace TinyState.Js.JsNumber

-- ---------------------------------------------------------------------------
-- Rounding
-- ---------------------------------------------------------------------------

/-- The nearest integer; a half goes to the even one. -/
def nearest (q : ℚ) : Int :=
  if q - ⌊q⌋ < 1 / 2 ∨ (q - ⌊q⌋ = 1 / 2 ∧ ⌊q⌋ % 2 = 0) then ⌊q⌋ else ⌊q⌋ + 1

/-- The distance between the numbers around `q`. -/
def unit (q : ℚ) : ℚ := (2 : ℚ) ^ max (Int.log 2 |q| - 52) (-1074)

/-- The number that a result is rounded to. -/
def round (q : ℚ) : JsNumber :=
  if (2 : ℚ) ^ 1024 ≤ |nearest (q / unit q) * unit q| then infinity (q < 0)
  else real (nearest (q / unit q) * unit q)

theorem nearest_intCast (n : Int) : nearest n = n := by
  simp [nearest]

theorem unit_ne_zero (q : ℚ) : unit q ≠ 0 := zpow_ne_zero _ two_ne_zero

theorem unit_natCast (n : Nat) : unit n = (2 : ℚ) ^ ((Nat.log 2 n : Int) - 52) := by
  have hlog : Int.log 2 |(n : ℚ)| = Nat.log 2 n := by
    rw [abs_of_nonneg (Nat.cast_nonneg n), Int.log_natCast]
  rw [unit, hlog, max_eq_left (by omega)]

theorem lt_overflow {n : Nat} (hn : n ≤ 2 ^ 53) : |(n : ℚ)| < (2 : ℚ) ^ 1024 := by
  rw [abs_of_nonneg (Nat.cast_nonneg n)]
  calc (n : ℚ) ≤ (2 ^ 53 : ℕ) := by exact_mod_cast hn
    _ = (2 : ℚ) ^ 53 := by norm_num
    _ < (2 : ℚ) ^ 1024 := pow_lt_pow_right₀ (by norm_num) (by norm_num)

/-- A natural number up to 2^53 is so many units. -/
theorem exists_units {n : Nat} (hn : n ≤ 2 ^ 53) : ∃ k : Int, (n : ℚ) / unit n = k := by
  rw [unit_natCast]
  rcases Nat.lt_or_eq_of_le hn with hlt | rfl
  · have hlog : Nat.log 2 n ≤ 52 := by
      rcases Nat.eq_zero_or_pos n with rfl | hpos
      · simp
      · exact Nat.lt_succ_iff.mp (Nat.log_lt_of_lt_pow (Nat.ne_of_gt hpos) hlt)
    refine ⟨n * 2 ^ (52 - Nat.log 2 n), ?_⟩
    rw [div_eq_iff (zpow_ne_zero _ two_ne_zero)]
    push_cast
    rw [mul_assoc, ← zpow_natCast (2 : ℚ) (52 - _), ← zpow_add₀ two_ne_zero]
    rw [show ((52 - Nat.log 2 n : Nat) : Int) + ((Nat.log 2 n : Int) - 52) = 0 by omega]
    simp
  · refine ⟨2 ^ 52, ?_⟩
    rw [Nat.log_pow (by omega)]
    norm_num

/-- Numbers up to 2^53 are represented. -/
theorem round_natCast {n : Nat} (hn : n ≤ 2 ^ 53) : round n = real n := by
  obtain ⟨k, hk⟩ := exists_units hn
  have hv : (nearest ((n : ℚ) / unit n) : ℚ) * unit n = n := by
    rw [hk, nearest_intCast, ← hk, div_mul_cancel₀ _ (unit_ne_zero _)]
  rw [round, hv, if_neg (not_le.mpr (lt_overflow hn))]

/-- The number after 2^53 is not. -/
theorem round_stuck : round ((2 ^ 53 : Nat) + 1) = real (2 ^ 53 : Nat) := by
  have hlog : Nat.log 2 (2 ^ 53 + 1) = 53 := by
    rw [Nat.log_eq_iff (by omega)]
    omega
  have hunit : unit ((2 ^ 53 : Nat) + 1) = 2 := by
    have h := unit_natCast (2 ^ 53 + 1)
    rw [hlog, Nat.cast_add, Nat.cast_one] at h
    rw [h]
    norm_num
  have hnear : nearest (((2 ^ 53 : Nat) + 1) / 2) = 2 ^ 52 := by
    have hf : ⌊(((2 ^ 53 : Nat) : ℚ) + 1) / 2⌋ = 2 ^ 52 := by
      rw [Int.floor_eq_iff]
      norm_num
    rw [nearest, hf]
    norm_num
  have hv : (((2 ^ 52 : Int) : ℚ) * 2) = (2 ^ 53 : Nat) := by norm_num
  rw [round, hunit, hnear, hv, if_neg (not_le.mpr (lt_overflow le_rfl))]

-- ---------------------------------------------------------------------------
-- The operators
-- ---------------------------------------------------------------------------

def one : JsNumber := real 1

def plus : JsNumber → JsNumber → JsNumber
  | real p, real q => round (p + q)
  | infinity s, infinity t => if s = t then infinity s else nan
  | infinity s, real _ | real _, infinity s => infinity s
  | nan, _ | _, nan => nan

def minus (x y : JsNumber) : JsNumber := plus x (negate y)

def times : JsNumber → JsNumber → JsNumber
  | real p, real q => round (p * q)
  | infinity s, infinity t => infinity (s != t)
  | infinity s, real q | real q, infinity s =>
    if q = 0 then nan else infinity (s != decide (q < 0))
  | nan, _ | _, nan => nan

/-- `x / y`; a divisor of 0 counts as positive. -/
def dividedBy : JsNumber → JsNumber → JsNumber
  | real p, real q =>
    if q ≠ 0 then round (p / q) else if p = 0 then nan else infinity (p < 0)
  | infinity s, real q => infinity (s != decide (q < 0))
  | real _, infinity _ => zero
  | infinity _, infinity _ | nan, _ | _, nan => nan

/-- `Math.ceil` -/
def ceil : JsNumber → JsNumber
  | real q => real ⌈q⌉
  | x => x

/-- `x == y` -/
def equal (x y : JsNumber) : Bool := x ≠ nan && x = y

/-- `x++` on a count. -/
theorem plus_one {n : Nat} (hn : n ≤ 2 ^ 53) :
    plus (real n) one = real (min (n + 1) (2 ^ 53) : Nat) := by
  change round ((n : ℚ) + 1) = _
  rcases Nat.lt_or_eq_of_le hn with hlt | rfl
  · rw [Nat.min_eq_left hlt, ← round_natCast hlt, Nat.cast_succ]
  · rw [round_stuck, Nat.min_eq_right (Nat.le_succ _)]

theorem equal_real {p : ℚ} {y : JsNumber} : equal (real p) y = true ↔ real p = y := by
  simp [equal]

/-- The number next to a tenth, and a quotient rounded up. -/
example : round (1 / 10) = real (3602879701896397 / 2 ^ 55) ∧
    ceil (dividedBy (real 50000) (real 20000)) = real 3 := by decide +kernel

end TinyState.Js.JsNumber
