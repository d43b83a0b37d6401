import Vitae.Number.Shortest
import Vitae.Text.Numeral
/-!
# Numbers of a document

A number of a document is an integer or a double, and the two stay apart: `2` and `2.0` are
different numbers with one text for the reader, since an integral double that is small enough to
be exact is shown as the integer it is.
-/

namespace Vitae

/-- A number of a document. -/
inductive Number where
  /-- Written without point and exponent. -/
  | int (value : Int)
  /-- Written with point or exponent, or too large to be kept as an integer. -/
  | float (value : Double)
  deriving Repr, DecidableEq

namespace Number

/-- Up to this magnitude every integer is a double. -/
def exactBound : Nat := Nat.pow 2 53

/-- The digits of an integer, after a minus sign if it is negative. -/
def intText (i : Int) : String :=
  if i < 0 then "-" ++ Text.numeral i.natAbs else Text.numeral i.natAbs

/-- Whether the value is zero. -/
def isZero : Number → Bool
  | .int i => i == 0
  | .float x => x.isZero

/-- The number as a reader of the page sees it: an integral double up to `exactBound` without point
and sign of zero, any other double by its shortest decimal. -/
def text : Number → String
  | .int i => intText i
  | .float x =>
    match x.toInt? with
    | some i => if i.natAbs ≤ exactBound then intText i else x.text
    | none => x.text

/-- An integral double up to `exactBound` is shown as the integer it equals. -/
theorem text_float_of_toInt? {x : Double} {i : Int} (h : x.toInt? = some i)
    (hi : i.natAbs ≤ exactBound) : (Number.float x).text = (Number.int i).text := by
  simp [text, h, hi]

end Number

end Vitae
