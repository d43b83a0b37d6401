import Vitae.Number.Double
/-!
# The shortest decimal text of a double

A double stands for all reals that round to it. Among the decimals in that interval
`Double.shortest` takes one with the fewest digits, and of these the nearest to the double itself,
an exact tie going to the even digit. All comparisons are between natural numbers: a double's
neighbourhood is measured in quarters of its unit, and powers of two and ten are multiplied out on
the side where they stand.
-/

namespace Vitae

/-- The decimal `coefficient * 10 ^ scale`. -/
structure Decimal where
  /-- The digits, as a number. -/
  coefficient : Nat
  /-- The power of ten of the last digit. -/
  scale : Int
  deriving Repr, DecidableEq

namespace Double

/-- The exponent of the power of ten at or below the magnitude of a double that is not zero. -/
def decimalExponent (x : Double) : Int :=
  let whole := x.significand * power 2 x.exponent / power 2 (-x.exponent)
  if whole ≠ 0 then decimalLength whole - 1
  else
    let inverse := (power 2 (-x.exponent) + x.significand - 1) / x.significand
    Int.neg (decimalLength (inverse - 1))

/-- Quarter units of `x` written over the common denominator with multiples of `10 ^ scale`. -/
def quarters (x : Double) (scale : Int) (n : Nat) : Nat :=
  n * power 2 (x.exponent - 2) * power 10 (-scale)

/-- A multiple of `10 ^ scale` written over the common denominator with quarter units of `x`. -/
def multiple (x : Double) (scale : Int) (n : Nat) : Nat :=
  n * power 10 scale * power 2 (2 - x.exponent)

/-- How far below `x`, in quarter units, the reals reach that round to it: half a unit, or a
quarter where the doubles below lie twice as dense. -/
def reachBelow (x : Double) : Nat :=
  if x.significand = Nat.pow 2 52 ∧ -1074 < x.exponent then 1 else 2

/-- Whether `coefficient * 10 ^ scale` rounds to the magnitude of `x`. The ends of the interval
belong to it exactly when the significand is even. -/
def roundsBack (x : Double) (scale : Int) (coefficient : Nat) : Bool :=
  let low := x.quarters scale (4 * x.significand - x.reachBelow)
  let high := x.quarters scale (4 * x.significand + 2)
  let here := x.multiple scale coefficient
  if x.significand % 2 = 0 then low ≤ here && here ≤ high else low < here && here < high

/-- The decimal nearest to `x` on the grid of multiples of `10 ^ scale`, among those that round to
it; a tie goes to the even multiple. -/
def onGrid? (x : Double) (scale : Int) : Option Decimal :=
  let value := x.quarters scale (4 * x.significand)
  let step := x.multiple scale 1
  let below := value / step
  let beyond := 2 * (value % step)
  let lowerFirst := beyond < step || (beyond == step && below % 2 == 0)
  let candidates := if lowerFirst then [below, below + 1] else [below + 1, below]
  (candidates.find? (x.roundsBack scale)).map (⟨·, scale⟩)

/-- The shortest decimal that rounds to the magnitude of `x`, which is not zero. Seventeen digits
always suffice. -/
def shortest (x : Double) : Decimal :=
  let top := x.decimalExponent
  ((List.range 17).findSome? fun (n : Nat) => x.onGrid? (top - n)).getD ⟨0, 0⟩

end Double

/-! ### Layout -/

/-- The digits of a decimal without its closing zeros. -/
def Decimal.digits (d : Decimal) : List Char :=
  ((Nat.toDigits 10 d.coefficient).reverse.dropWhile (· == '0')).reverse

/-- The power of ten of the first digit. -/
def Decimal.leading (d : Decimal) : Int :=
  d.scale + ((Nat.toDigits 10 d.coefficient).length - 1 : Nat)

/-- The least and the greatest leading power of ten that are written without an exponent. -/
def Decimal.plainRange : Int × Int := (-5, 15)

/-- Digits around a point: at least one before it and one after it. -/
def Decimal.plain (d : Decimal) : List Char :=
  if d.leading < 0 then
    '0' :: '.' :: (List.replicate (-d.leading - 1).toNat '0' ++ d.digits)
  else
    let places := d.leading.toNat + 1
    let whole := d.digits.take places ++ List.replicate (places - d.digits.length) '0'
    let fraction := d.digits.drop places
    whole ++ '.' :: (if fraction.isEmpty then ['0'] else fraction)

/-- One digit before the point, no point without a fraction, and a signed exponent. -/
def Decimal.scientific (d : Decimal) : List Char :=
  let fraction := d.digits.drop 1
  let mark := if d.leading < 0 then '-' else '+'
  d.digits.take 1 ++ (if fraction.isEmpty then [] else '.' :: fraction) ++
    'e' :: mark :: Nat.toDigits 10 d.leading.natAbs

/-- The text of a decimal, without an exponent inside `plainRange`. -/
def Decimal.text (d : Decimal) : List Char :=
  if Decimal.plainRange.1 ≤ d.leading ∧ d.leading ≤ Decimal.plainRange.2 then d.plain
  else d.scientific

/-- The text of a double: its shortest decimal, always with a point or an exponent. -/
def Double.text (x : Double) : String :=
  let magnitude := if x.isZero then ['0', '.', '0'] else x.shortest.text
  String.ofList (if x.negative then '-' :: magnitude else magnitude)

/-! ### The layout at its edges -/

example : (Double.ofDecimal? false 1 (-5)).map Double.text = some "0.00001" := by decide +kernel

example : (Double.ofDecimal? false 15 (-7)).map Double.text = some "1.5e-6" := by decide +kernel

example : (Double.ofDecimal? false 9007199254740993 0).map Double.text =
    some "9007199254740992.0" := by decide +kernel

example : (Double.ofDecimal? true 1 16).map Double.text = some "-1e+16" := by decide +kernel

example : (Double.ofDecimal? false 3 (-324)).map Double.text = some "5e-324" := by decide +kernel

/-! Digits beyond `2 ^ 53` are rounded before the power of ten is taken in. -/

example : (Double.ofDecimal? false 9999999999999999 (-21)).map Double.text = some "0.00001" := by
  decide +kernel

end Vitae
