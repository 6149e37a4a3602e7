import Mathlib.Data.Rat.Floor

/-!
# Numbers of the language

The numbers that strings are converted to, and what the primitives do with numbers: they compare
them with 0, and count up and down. Rounding is left out, but for what is rounded to 0.
-/

namespace TinyState.Js

/-- A number; both zeros are `real 0`. -/
inductive JsNumber
  | nan
  | infinity (negative : Bool)
  | real (q : ℚ)
  deriving DecidableEq, Repr

namespace JsNumber

def zero : JsNumber := real 0

def add (n : Int) : JsNumber → JsNumber
  | real q => real (q + n)
  | x => x

/-- `x < 0` -/
def isNegative : JsNumber → Bool
  | nan => false
  | infinity negative => negative
  | real q => q < 0

/-- What is at most half of the least number above 0 is rounded to 0. -/
def ofRat (q : ℚ) : JsNumber := if q * 2 ^ 1075 ≤ 1 then zero else real q

def negate : JsNumber → JsNumber
  | nan => nan
  | infinity negative => infinity !negative
  | real q => real (-q)

-- ---------------------------------------------------------------------------
-- Numbers of strings
-- ---------------------------------------------------------------------------

def isSpace (c : Char) : Bool :=
  c.toNat ∈ [0x9, 0xa, 0xb, 0xc, 0xd, 0x20, 0xa0, 0x1680, 0x2028, 0x2029, 0x202f, 0x205f, 0x3000,
    0xfeff] || (0x2000 ≤ c.toNat && c.toNat ≤ 0x200a)

def strip (cs : List Char) : List Char :=
  ((cs.dropWhile isSpace).reverse.dropWhile isSpace).reverse

def digit (c : Char) : Nat :=
  if '0' ≤ c ∧ c ≤ '9' then c.toNat - '0'.toNat
  else if 'a' ≤ c ∧ c ≤ 'z' then c.toNat - 'a'.toNat + 10
  else if 'A' ≤ c ∧ c ≤ 'Z' then c.toNat - 'A'.toNat + 10
  else 36

/-- The number that digits stand for, if they are digits. -/
def digits (base : Nat) (cs : List Char) : Option Nat :=
  cs.foldlM (fun n c => if digit c < base then some (n * base + digit c) else none) 0

def digits1 (base : Nat) (cs : List Char) : Option Nat := if cs = [] then none else digits base cs

/-- What comes before the first of certain characters, and behind it. -/
def splitAt (p : Char → Bool) (cs : List Char) : List Char × Option (List Char) :=
  match cs.span fun c => !p c with
  | (l, []) => (l, none)
  | (l, _ :: r) => (l, some r)

def exponent : Option (List Char) → Option Int
  | none => some 0
  | some ('+' :: cs) => (digits1 10 cs).map Int.ofNat
  | some ('-' :: cs) => (digits1 10 cs).map fun n => -Int.ofNat n
  | some cs => (digits1 10 cs).map Int.ofNat

/-- A decimal literal without a sign. -/
def decimal (cs : List Char) : JsNumber :=
  if cs = "Infinity".toList then infinity false
  else
    let (mantissa, exp) := splitAt (fun c => c = 'e' || c = 'E') cs
    let (whole, fraction) := splitAt (· = '.') mantissa
    let fraction := fraction.getD []
    match digits1 10 (whole ++ fraction), exponent exp with
    | some n, some e => ofRat (n * (10 : ℚ) ^ (e - fraction.length))
    | _, _ => nan

def ofDigits (base : Nat) (cs : List Char) : JsNumber :=
  match digits1 base cs with
  | some n => real n
  | none => nan

/-- The number of a string. -/
def ofString (s : String) : JsNumber :=
  match strip s.toList with
  | [] => zero
  | '0' :: x :: cs =>
    if x = 'x' ∨ x = 'X' then ofDigits 16 cs
    else if x = 'o' ∨ x = 'O' then ofDigits 8 cs
    else if x = 'b' ∨ x = 'B' then ofDigits 2 cs
    else decimal ('0' :: x :: cs)
  | '+' :: cs => decimal cs
  | '-' :: cs => negate (decimal cs)
  | cs => decimal cs

end JsNumber

/-- Strings that are equal to the number 0, and one that is not. -/
example : ["0", " ", "0x0", "-0.00", "0e5", ".0"].all (JsNumber.ofString · = .zero) ∧
    JsNumber.ofString "WRITE" ≠ .zero := by decide +kernel

end TinyState.Js
