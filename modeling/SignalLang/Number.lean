import SignalLang.Decimal.Shortest

/-!
# Numbers

The numbers of the language have double precision.  They are written with the fewest digits that
identify them and never with an exponent; from outside they are read in the usual decimal form.
-/

namespace SignalLang

namespace Number

-- powers are those of `Nat`, whatever else is in scope
attribute [local instance (2000)] instPowNat

/-- The text of a decimal without an exponent: zeros fill up to the point, and no point is written
after the last digit of a whole number. -/
def positional (digits : Nat) (exponent : Int) : String :=
  let ds := Nat.toDigits 10 digits
  if digits = 0 then "0"
  else if 0 ≤ exponent then String.ofList (ds ++ List.replicate exponent.toNat '0')
  else
    let places := (-exponent).toNat
    if places < ds.length then
      String.ofList (ds.take (ds.length - places) ++ '.' :: ds.drop (ds.length - places))
    else String.ofList ('0' :: '.' :: List.replicate (places - ds.length) '0' ++ ds)

/-- Moves trailing zeros of the digits into the power of ten.  The first argument bounds the
number of zeros that are moved. -/
def stripZeros : Nat → Nat → Int → Nat × Int
  | 0, digits, exponent => (digits, exponent)
  | n + 1, digits, exponent =>
    if digits ≠ 0 ∧ digits % 10 = 0 then stripZeros n (digits / 10) (exponent + 1)
    else (digits, exponent)

/-- The text of a number: the fewest digits that read back to it, in positional notation, with a
sign also for the negative zero. -/
def text (x : Float) : String :=
  let bits := x.toBits.toNat
  let sign := if bits < 2 ^ (63 : Nat) then "" else "-"
  let magnitude := bits % 2 ^ (63 : Nat)
  if Decimal.infinityBits < magnitude then "NaN"
  else if magnitude = Decimal.infinityBits then sign ++ "inf"
  else
    let (digits, exponent) := (Binary.ofBits magnitude).shortest
    let (digits, exponent) := stripZeros Binary.maxDigits digits exponent
    sign ++ positional digits exponent

/-- Takes off one leading sign. -/
def unsignedPart : List Char → List Char
  | '-' :: cs => cs
  | '+' :: cs => cs
  | cs => cs

/-- Whether a text starts with a minus sign. -/
def startsNegative : List Char → Bool
  | '-' :: _ => true
  | _ => false

/-- The infinity of one sign. -/
def infinity (negative : Bool) : Float := if negative then -1.0 / 0.0 else 1.0 / 0.0

/-- The number that is no number. -/
def notANumber : Float := 0.0 / 0.0

/-- Reads a number: a decimal, or the name of an infinity or of the undefined number in letters of
either case, after a sign or none. -/
def parse? (s : String) : Option Float :=
  let cs := s.toList
  match (unsignedPart cs).map Char.toLower with
  | ['i', 'n', 'f'] => some (infinity (startsNegative cs))
  | ['i', 'n', 'f', 'i', 'n', 'i', 't', 'y'] => some (infinity (startsNegative cs))
  | ['n', 'a', 'n'] => some notANumber
  | _ => (Decimal.ofText? cs).map Decimal.toFloat

/-- The number that a number token stands for.  Underscores are dropped; what is left starts with
a digit after any minus signs and denotes a finite number. -/
def ofToken? (token : String) : Option Float :=
  let cs := token.toList.filter (· ≠ '_')
  match cs.dropWhile (· = '-') with
  | c :: _ =>
    if c.isDigit then (parse? (String.ofList cs)).filter Float.isFinite else none
  | [] => none

end Number

end SignalLang
