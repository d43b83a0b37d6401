/-!
# Finite binary64 numbers

A `Double` is a sign, a significand and the exponent of its unit: its magnitude is
`significand * 2 ^ exponent`. The proof fields make the representation unique for each sign, so
equal doubles are equal values of the type. `ofFraction?` rounds a fraction to the nearest double, a
tie to the even significand, and gives nothing when the result would pass the largest finite double;
products and quotients are rounded by it. `ofDecimal?` is the double as which a decimal is read.
-/

namespace Vitae

/-- A power with an integer exponent, where that is a whole number; `1` for a negative exponent.
So `n * power b e / power b (-e)` is `n` times the power, whatever the sign of `e`. -/
def power (base : Nat) (exponent : Int) : Nat := Nat.pow base exponent.toNat

/-- A finite binary64 number. -/
structure Double where
  /-- Whether the sign is minus; zero has both signs. -/
  negative : Bool
  /-- The magnitude in units of `2 ^ exponent`. -/
  significand : Nat
  exponent : Int
  /-- The significand has at most 53 bits. -/
  significand_lt : significand < Nat.pow 2 53
  /-- The unit is no finer than that of the subnormal numbers. -/
  exponent_ge : -1074 ≤ exponent
  /-- The unit is no coarser than that of the largest finite number. -/
  exponent_le : exponent ≤ 971
  /-- The significand is full, except where the unit is already the finest. -/
  canonical : exponent = -1074 ∨ Nat.pow 2 52 ≤ significand
  deriving Repr, DecidableEq

namespace Double

/-- The double with these parts, if there is one. -/
def ofParts? (negative : Bool) (significand : Nat) (exponent : Int) : Option Double :=
  if h : significand < Nat.pow 2 53 ∧ -1074 ≤ exponent ∧ exponent ≤ 971 ∧
      (exponent = -1074 ∨ Nat.pow 2 52 ≤ significand) then
    some ⟨negative, significand, exponent, h.1, h.2.1, h.2.2.1, h.2.2.2⟩
  else none

/-- Zero with a sign. -/
def zero (negative : Bool) : Double :=
  ⟨negative, 0, -1074, by decide, by decide, by decide, .inl rfl⟩

/-- Whether the value is zero, of either sign. -/
def isZero (x : Double) : Bool := x.significand == 0

/-- The value as an integer, if it is one; both zeros are `0`. -/
def toInt? (x : Double) : Option Int :=
  let signed (n : Nat) : Int := if x.negative then -n else n
  if 0 ≤ x.exponent then some (signed (x.significand * power 2 x.exponent))
  else
    let unit := power 2 (-x.exponent)
    if x.significand % unit = 0 then some (signed (x.significand / unit)) else none

/-! ### Rounding a fraction -/

/-- The integer nearest to `num / den`; of two equally near ones the even one. -/
def roundHalfEven (num den : Nat) : Nat :=
  let whole := num / den
  let twice := 2 * (num % den)
  if twice < den then whole
  else if den < twice then whole + 1
  else whole + whole % 2

/-- The exponent of the power of two at or below the positive fraction `num / den`. -/
def binaryExponent (num den : Nat) : Int :=
  let estimate : Int := (num.log2 : Int) - den.log2
  if den * power 2 estimate ≤ num * power 2 (-estimate) then estimate else estimate - 1

/-- The double nearest to the fraction `num / den`, if that is finite. -/
def ofFraction? (negative : Bool) (num den : Nat) : Option Double :=
  if num = 0 then some (zero negative)
  else
    let unit := max (-1074) (binaryExponent num den - 52)
    let rounded := roundHalfEven (num * power 2 (-unit)) (den * power 2 unit)
    if rounded = Nat.pow 2 53 then ofParts? negative (Nat.pow 2 52) (unit + 1)
    else ofParts? negative rounded unit

/-! ### Products and quotients -/

/-- The double nearest to a product, if that is finite. -/
def mul? (x y : Double) : Option Double :=
  let exponent := x.exponent + y.exponent
  ofFraction? (x.negative != y.negative) (x.significand * y.significand * power 2 exponent)
    (power 2 (-exponent))

/-- The double nearest to a quotient, if that is finite; there is none by zero. -/
def div? (x y : Double) : Option Double :=
  let exponent := x.exponent - y.exponent
  if y.isZero then none
  else
    ofFraction? (x.negative != y.negative) (x.significand * power 2 exponent)
      (y.significand * power 2 (-exponent))

/-! ### Reading a decimal

The digits of a decimal are rounded to a double, and this is multiplied or divided by the double
nearest to the power of ten. As long as the digits stay below `2 ^ 53` and the power below
`10 ^ 23`, both are exact, and the one rounding left gives the double nearest to the decimal.
Elsewhere the result may be another double close by. -/

/-- The greatest power of ten that is finite. -/
def maxTens : Nat := 308

/-- The double nearest to a power of ten, if that is finite. -/
def tens? (k : Nat) : Option Double := ofFraction? false (Nat.pow 10 k) 1

/-- The product with `10 ^ k`, if that is finite. -/
def timesTens? (x : Double) (k : Nat) : Option Double :=
  if k ≤ maxTens then (tens? k).bind x.mul?
  else if x.isZero then some x
  else none

/-- The quotient by `10 ^ k`, in steps of the greatest power that is finite. -/
def overTens? (x : Double) (k : Nat) : Option Double :=
  if k ≤ maxTens then (tens? k).bind x.div?
  else if x.isZero then some x
  else ((tens? maxTens).bind x.div?).bind fun y => y.overTens? (k - maxTens)
termination_by k
decreasing_by
  simp only [maxTens] at *
  omega

/-- The double as which `digits * 10 ^ scale` is read, if that is finite. -/
def ofDecimal? (negative : Bool) (digits : Nat) (scale : Int) : Option Double :=
  (ofFraction? negative digits 1).bind fun x =>
    match scale with
    | .ofNat n => x.timesTens? n
    | .negSucc n => x.overTens? (n + 1)

/-- The number of decimal digits of a positive number. -/
def decimalLength (n : Nat) : Nat := (Nat.toDigits 10 n).length

end Double

end Vitae
