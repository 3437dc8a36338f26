set_option autoImplicit false

/-!
# The text of floats

Among the decimal numbers that read back as a given float, the one with the fewest digits is
written; of several with equally few digits the nearest to the float, and of two equally near ones
the one with the even last digit.

Every finite float is a whole number of units of 10 ^ (-1076), and so are the ends of the interval
of reals that round to it, so the search is exact arithmetic on natural numbers.  On the grid of
each digit count only the two neighbours of the value can be nearest, hence only they are tried.

The digits become text positionally within a range of magnitudes, and as one digit, a fraction and a
signed power of ten outside it.  Positional text always shows a point.
-/

namespace TemplateTrace

/-- A decimal number without sign: `digits * 10 ^ exponent`. -/
structure Decimal where
  digits : Nat
  exponent : Int
  deriving DecidableEq, Repr, Inhabited

namespace Decimal

/-! ## The interval that rounds to a float -/

/-- A positive finite float in units of 10 ^ (-1076), and how far a real may lie from it on either
side and still round to it; the ends themselves round to it when `closed` holds. -/
structure Target where
  value : Nat
  below : Nat
  above : Nat
  closed : Bool
  deriving DecidableEq, Repr, Inhabited

/-- The power of ten that one unit stands for is `10 ^ (-unitPlace)`. -/
def unitPlace : Nat := 1076

/-- The leading bit of the significand of a float, which is 2 ^ 52. -/
def leadingBit : Nat := 4503599627370496

/-- The interval of `mantissa * 2 ^ (power - 1074)`.  The float below a power of two is only half
as far away as the one above, the least exponent apart. -/
def Target.ofParts (mantissa power : Nat) : Target :=
  let quarter := Nat.pow 2 power * Nat.pow 5 unitPlace
  { value := 4 * mantissa * quarter
    below := if mantissa = leadingBit ∧ power ≠ 0 then quarter else 2 * quarter
    above := 2 * quarter
    closed := mantissa % 2 == 0 }

/-- Whether a number of units, given by its distance on one side, rounds to the float. -/
def Target.reaches (t : Target) (reach distance : Nat) : Bool :=
  distance < reach || (t.closed && distance == reach)

/-- The nearest multiple of `10 ^ place` that rounds to the float, if one does. -/
def Target.onGrid (t : Target) (place : Nat) : Option Nat :=
  let low := t.value / Nat.pow 10 place
  let fromLow := t.value % Nat.pow 10 place
  let fromHigh := Nat.pow 10 place - fromLow
  match t.reaches t.below fromLow, t.reaches t.above fromHigh with
  | true, true =>
      if fromLow < fromHigh then some low
      else if fromHigh < fromLow then some (low + 1)
      else if low % 2 = 0 then some low else some (low + 1)
  | true, false => some low
  | false, true => some (low + 1)
  | false, false => none

/-! ## The search -/

/-- The place of the leading digit: the greatest `k` with `10 ^ k ≤ n`, for `n` of at most five
thousand binary digits.  The decimal logarithm of two is just above 0.3010299. -/
def leadingPlace (n : Nat) : Nat :=
  let k := n.log2 * 3010299 / 10000000
  if Nat.pow 10 (k + 1) ≤ n then k + 1 else k

/-- Drops the zeros at the end of the digits, up to a number of them. -/
def stripZeros : Nat → Decimal → Decimal
  | 0, d => d
  | n + 1, d =>
      if d.digits ≠ 0 ∧ d.digits % 10 = 0 then stripZeros n ⟨d.digits / 10, d.exponent + 1⟩ else d

/-- The shortest decimal in the interval: digit counts from one to seventeen in turn, and
seventeen digits always suffice. -/
def Target.shortest (t : Target) : Decimal :=
  let leading := leadingPlace t.value
  let found := (List.range 17).findSome? fun n =>
    let place := leading - n
    (t.onGrid place).map fun digits => (⟨digits, (place : Int) - unitPlace⟩ : Decimal)
  stripZeros 17 (found.getD ⟨t.value, -unitPlace⟩)

/-! ## Floats -/

/-- The sign bit. -/
def isNegative (x : Float) : Bool :=
  x.toBits >>> 63 != 0

/-- The shortest decimal of the magnitude of a float; `none` when it is not finite. -/
def ofFloat? (x : Float) : Option Decimal :=
  let bits := x.toBits.toNat
  let power := bits / leadingBit % 2048
  let fraction := bits % leadingBit
  if power = 2047 then none
  else if power = 0 then
    if fraction = 0 then some ⟨0, 0⟩ else some (Target.ofParts fraction 0).shortest
  else some (Target.ofParts (leadingBit + fraction) (power - 1)).shortest

end Decimal

/-! ## Layout -/

/-- The magnitudes that are written positionally, as exponents of the leading digit. -/
structure Layout where
  leastPositional : Int
  greatestPositional : Int
  deriving DecidableEq, Repr, Inhabited

namespace Layout

/-- Trace numbers are positional from 0.00001 up to just below 1e16. -/
def trace : Layout := ⟨-5, 15⟩

/-- Digits and a fraction part that is never empty. -/
def withFraction (whole fraction : List Char) : List Char :=
  whole ++ '.' :: (if fraction.isEmpty then ['0'] else fraction)

/-- The text of a magnitude. -/
def magnitude (l : Layout) (d : Decimal) : List Char :=
  let ds := Nat.toDigits 10 d.digits
  let leading : Int := d.exponent + ds.length - 1
  if d.digits = 0 then withFraction ['0'] []
  else if l.leastPositional ≤ leading ∧ leading < 0 then
    withFraction ['0'] (List.replicate (-leading - 1).toNat '0' ++ ds)
  else if 0 ≤ leading ∧ leading ≤ l.greatestPositional then
    let places := leading.toNat + 1
    withFraction (ds.take places ++ List.replicate (places - ds.length) '0') (ds.drop places)
  else
    let power := (if leading < 0 then '-' else '+') :: Nat.toDigits 10 leading.natAbs
    let fraction := ds.drop 1
    ds.take 1 ++ (if fraction.isEmpty then [] else '.' :: fraction) ++ 'e' :: power

/-- The text of a float; `none` when it is not finite. -/
def float? (l : Layout) (x : Float) : Option String :=
  (Decimal.ofFloat? x).map fun d =>
    String.ofList ((if Decimal.isNegative x then ['-'] else []) ++ l.magnitude d)

end Layout

end TemplateTrace
