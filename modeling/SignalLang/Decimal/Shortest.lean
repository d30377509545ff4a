import SignalLang.Decimal.Basic

/-!
# Shortest decimals

The shortest decimal of a number of double precision is the one with the fewest digits among those
that read back to the number.  For each count of digits there is a grid of decimals, and only the
two neighbours of the number on that grid need a test: if any point of the grid reads back, one of
them does.

* `Binary.readsBack` : the decimals that round to a given binary number.
* `Binary.shortest` : the neighbour on the first grid that has one which reads back; of two such
  neighbours the nearer one, and the upper one if they are equally near.
-/

namespace SignalLang

/-- The magnitude `significand * 2 ^ exponent` of a finite number of double precision.  `narrow`
says that the next smaller magnitude is only half as far away as the next larger one. -/
structure Binary where
  significand : Nat
  exponent : Int
  narrow : Bool
deriving DecidableEq, Repr

namespace Binary

-- powers are those of `Nat`, whatever else is in scope
attribute [local instance (2000)] instPowNat

/-- Takes the pattern of a finite magnitude apart. -/
def ofBits (bits : Nat) : Binary :=
  let field : Nat := bits / 2 ^ (52 : Nat)
  let fraction : Nat := bits % 2 ^ (52 : Nat)
  if field = 0 then ⟨fraction, Decimal.leastExponent, false⟩
  else ⟨2 ^ (52 : Nat) + fraction, (field : Int) - 1075, fraction = 0 ∧ 1 < field⟩

/-- The magnitude as a quotient of natural numbers. -/
def quotient (b : Binary) : Nat × Nat := Decimal.scaled b.significand b.exponent

/-- A decimal `digits * 10 ^ exponent` as a quotient of natural numbers. -/
def decimalQuotient (digits : Nat) (exponent : Int) : Nat × Nat :=
  if 0 ≤ exponent then (digits * 10 ^ exponent.toNat, 1) else (digits, 10 ^ (-exponent).toNat)

/-- Whether a decimal rounds to the magnitude: it lies between the midpoints to the two
neighbouring magnitudes, which belong to an even significand. -/
def readsBack (b : Binary) (digits : Nat) (exponent : Int) : Bool :=
  let (n, d) := decimalQuotient digits exponent
  let (lowNum, lowDen) := Decimal.scaled (4 * b.significand - if b.narrow then 1 else 2)
    (b.exponent - 2)
  let (highNum, highDen) := Decimal.scaled (4 * b.significand + 2) (b.exponent - 2)
  if b.significand % 2 = 0 then lowNum * d ≤ n * lowDen ∧ n * highDen ≤ highNum * d
  else lowNum * d < n * lowDen ∧ n * highDen < highNum * d

/-- Whether `10 ^ k` is at most the magnitude. -/
def powerBelow (b : Binary) (k : Int) : Bool :=
  let (n, d) := b.quotient
  let (pn, pd) := decimalQuotient 1 k
  pn * d ≤ n * pd

/-- The exponent of the leading decimal digit of a nonzero magnitude.  The binary exponent gives it
up to one. -/
def leading (b : Binary) : Int :=
  let guess := ((b.significand.log2 : Int) + b.exponent) * 1233 / 4096
  if b.powerBelow (guess + 1) then guess + 1
  else if b.powerBelow guess then guess
  else guess - 1

/-- The neighbour on the grid of the multiples of `10 ^ exponent` that reads back, if there is
one: the nearer of two, the upper one on a tie. -/
def onGrid? (b : Binary) (exponent : Int) : Option (Nat × Int) :=
  let (n, d) := b.quotient
  let (gn, gd) := decimalQuotient 1 exponent
  let below := (n * gd) / (d * gn)
  let rest := (n * gd) % (d * gn)
  let down := b.readsBack below exponent
  let up := b.readsBack (below + 1) exponent
  if down && (!up || 2 * rest < d * gn) then some (below, exponent)
  else if up then some (below + 1, exponent)
  else none

/-- Seventeen digits tell any two numbers of double precision apart. -/
def maxDigits : Nat := 17

/-- The decimal with the fewest digits that reads back; zero for the magnitude zero. -/
def shortest (b : Binary) : Nat × Int :=
  if b.significand = 0 then (0, 0)
  else
    ((List.range maxDigits).findSome? fun (i : Nat) =>
        b.onGrid? (b.leading - (i : Int))).getD
      (if 0 ≤ b.exponent then (b.quotient.1, 0)
       else (b.significand * 5 ^ (-b.exponent).toNat, b.exponent))

end Binary

end SignalLang
