/-!
# Decimals

A decimal is a sign, a natural number and a power of ten.  This file reads decimals from text and
rounds them to binary floating point; `SignalLang.Decimal.Shortest` goes the other way.

* `Decimal.ofText?` : the grammar of written decimals.
* `Decimal.roundEven` : division rounded to nearest, ties to the even neighbour.
* `Decimal.toFloat` : the nearest number of double precision, ties to the even significand.
-/

namespace SignalLang

/-- The number `± digits * 10 ^ exponent`. -/
structure Decimal where
  negative : Bool
  digits : Nat
  exponent : Int
deriving DecidableEq, Repr, Inhabited

namespace Decimal

-- powers are those of `Nat`, whatever else is in scope
attribute [local instance (2000)] instPowNat

/-! ### Reading -/

/-- The number that a row of digits denotes. -/
def ofDigits (cs : List Char) : Nat := cs.foldl (fun n c => n * 10 + (c.toNat - '0'.toNat)) 0

/-- A nonempty row of digits and nothing else. -/
def digits? (cs : List Char) : Option Nat :=
  if !cs.isEmpty && cs.all Char.isDigit then some (ofDigits cs) else none

/-- The power of ten after the digits: nothing, or the letter `e`, a sign or none, and digits. -/
def exponent? : List Char → Option Int
  | [] => some 0
  | c :: cs =>
    if c = 'e' ∨ c = 'E' then
      match cs with
      | '-' :: ds => (digits? ds).map fun n => -(n : Int)
      | '+' :: ds => (digits? ds).map fun n => (n : Int)
      | ds => (digits? ds).map fun n => (n : Int)
    else none

/-- Digits with at most one point among them, at least one digit, then a power of ten. -/
def unsigned? (negative : Bool) (cs : List Char) : Option Decimal :=
  let whole := cs.takeWhile Char.isDigit
  let afterWhole := cs.dropWhile Char.isDigit
  let (fraction, rest) :=
    match afterWhole with
    | '.' :: ds => (ds.takeWhile Char.isDigit, ds.dropWhile Char.isDigit)
    | ds => ([], ds)
  if whole.isEmpty && fraction.isEmpty then none
  else (exponent? rest).map fun e =>
    ⟨negative, ofDigits (whole ++ fraction), e - (fraction.length : Int)⟩

/-- A sign or none, then the digits. -/
def ofText? : List Char → Option Decimal
  | '-' :: cs => unsigned? true cs
  | '+' :: cs => unsigned? false cs
  | cs => unsigned? false cs

/-! ### Rounding to binary -/

/-- The quotient rounded to nearest; a tie goes to the even neighbour. -/
def roundEven (num den : Nat) : Nat :=
  let k := num / den
  let r := num % den
  if 2 * r < den ∨ (2 * r = den ∧ k % 2 = 0) then k else k + 1

/-- `m * 2 ^ q` for a natural number `m`, as a quotient. -/
def scaled (m : Nat) (q : Int) : Nat × Nat :=
  if 0 ≤ q then (m * 2 ^ q.toNat, 1) else (m, 2 ^ (-q).toNat)

/-- The least exponent of a significand in double precision. -/
def leastExponent : Int := -1074

/-- The pattern of the infinity of double precision, which is also the first pattern after those
of the finite magnitudes. -/
def infinityBits : Nat := 2047 * 2 ^ (52 : Nat)

/-- The pattern of the magnitude of double precision nearest to `num / den`.  The quotient is
brought to 53 bits where the range of exponents allows it and rounded there; the pattern of the
rounded significand carries over into the next exponent by itself. -/
def nearestBits (num den : Nat) : Nat :=
  if num = 0 then 0
  else
    let e : Int := (num.log2 : Int) - (den.log2 : Int)
    let (n₁, d₁) := scaled num (-e)
    let lead := if n₁ < den * d₁ then e - 1 else e
    let q := max (lead - 52) leastExponent
    let (n, d) := scaled num (-q)
    let m := roundEven n (den * d)
    let bits := if m < 2 ^ (52 : Nat) then m else (q + 1074).toNat * 2 ^ (52 : Nat) + m
    min bits infinityBits

/-- A power of ten from which on every number exceeds the finite range. -/
def overflowMagnitude : Int := 310

/-- A power of ten below which every number rounds to zero. -/
def underflowMagnitude : Int := -330

/-- The pattern of the magnitude of double precision nearest to a decimal. -/
def magnitudeBits (d : Decimal) : Nat :=
  if d.digits = 0 then 0
  else
    let magnitude := ((Nat.toDigits 10 d.digits).length : Int) + d.exponent
    if magnitude > overflowMagnitude then infinityBits
    else if magnitude < underflowMagnitude then 0
    else if 0 ≤ d.exponent then nearestBits (d.digits * 10 ^ d.exponent.toNat) 1
    else nearestBits d.digits (10 ^ (-d.exponent).toNat)

/-- The number of double precision nearest to a decimal; a tie goes to the even significand. -/
def toFloat (d : Decimal) : Float :=
  let x := Float.ofBits (UInt64.ofNat d.magnitudeBits)
  if d.negative then -x else x

end Decimal

end SignalLang
