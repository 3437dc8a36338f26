set_option autoImplicit false

/-!
# Reading decimal numbers

A written number is kept as an integer where it is one that fits; otherwise it becomes a float by
one multiplication or division: the leading digits that fit into 64 bits are read as a whole number
and scaled by a power of ten.  The result is within a few units in the last place, and a magnitude
too large for a float is refused.
-/

namespace TemplateTrace.Decimal

/-- The parts of a written number, digits as values; `fraction` and `power` are absent when the
text has no point and no exponent mark. -/
structure Numeral where
  negative : Bool
  whole : List Nat
  fraction : Option (List Nat)
  power : Option Int
  deriving DecidableEq, Repr, Inhabited

/-- A number that was read: an integer of at most 64 bits, or a float. -/
inductive Number where
  | integer (n : Int)
  | float (x : Float)
  deriving DecidableEq, Repr, Inhabited

/-- The value of a digit list, most significant first. -/
def ofDigits (ds : List Nat) : Nat :=
  ds.foldl (fun n d => 10 * n + d) 0

/-- Appends digits to a number while it stays below 2 ^ 64; gives back the digits left over. -/
def gather : Nat → List Nat → Nat × List Nat
  | n, [] => (n, [])
  | n, d :: ds => if 10 * n + d < UInt64.size then gather (10 * n + d) ds else (n, d :: ds)

/-- The power of ten nearest to `10 ^ n`. -/
def powerOfTen (n : Nat) : Float :=
  Float.ofScientific 1 false n

/-- The greatest power of ten that is a float. -/
def greatestPower : Nat := 308

/-- Divides by a power of ten, by the greatest float power at a time. -/
def scaleDown (x : Float) (n : Nat) : Float :=
  if n ≤ greatestPower then x / powerOfTen n
  else if x == 0 then x
  else scaleDown (x / powerOfTen greatestPower) (n - greatestPower)
termination_by n
decreasing_by
  simp only [greatestPower] at *
  omega

/-- A whole number scaled by a power of ten; `none` when the result is beyond all floats. -/
def scale (significand : Nat) (exponent : Int) : Option Float :=
  let x := (UInt64.ofNat significand).toFloat
  if exponent < 0 then some (scaleDown x (-exponent).toNat)
  else if exponent.toNat ≤ greatestPower then
    let y := x * powerOfTen exponent.toNat
    if y.isInf then none else some y
  else if x == 0 then some x
  else none

/-- The magnitude of the lowest integer of 64 bits, which is -2 ^ 63. -/
def lowestMagnitude : Nat := 9223372036854775808

/-- The number that a whole numeral stands for: negative ones down to -2 ^ 63 are integers, the
negative zero and anything lower is a float. -/
def ofWhole (negative : Bool) (n : Nat) : Number :=
  if !negative then .integer n
  else if 0 < n ∧ n ≤ lowestMagnitude then .integer (-n)
  else .float (-(UInt64.ofNat n).toFloat)

/-- The number that a numeral stands for; `none` when it is beyond all floats. -/
def Numeral.value? (t : Numeral) : Option Number :=
  let (significand, spill) := gather 0 t.whole
  match t.fraction, t.power, spill with
  | none, none, [] => some (ofWhole t.negative significand)
  | _, _, _ =>
      let fraction := t.fraction.getD []
      let (significand, unread) := gather significand fraction
      let exponent : Int := spill.length - (fraction.length - unread.length : Nat) + t.power.getD 0
      (scale significand exponent).map fun x => .float (if t.negative then -x else x)

/-- The float nearest to an integer of at most 64 bits. -/
def floatOfInt (n : Int) : Float :=
  let x := (UInt64.ofNat n.natAbs).toFloat
  if n < 0 then -x else x

end TemplateTrace.Decimal
