import Mathlib.Algebra.Ring.Int.Defs
import Mathlib.Data.Int.Order.Basic
import Mathlib.Order.WithBot

/-!
# Numbers of columns

A numeric column holds integers or floating-point numbers.  An integer is converted before it is
compared with a floating-point number.
-/

namespace JouleDB.ColumnarExec

/-- Floating-point numbers. -/
class FloatNumber (F : Type) where
  ofInt : Int → F
  partialCmp : F → F → Option Ordering
  isNan : F → Bool
  fmin : F → F → F
  fmax : F → F → F
  infinity : F
  negInfinity : F
  zero : F

variable {F : Type} [FloatNumber F]

/-- The least and the largest 64-bit integer. -/
def i64Min : Int := -2 ^ 63

def i64Max : Int := 2 ^ 63 - 1

inductive Num (F : Type) where
  | i (value : Int)
  | f (value : F)
  deriving DecidableEq

/-- Integers as numbers without fractions. -/
instance : FloatNumber Int where
  ofInt := id
  partialCmp first second := some (compare first second)
  isNan _ := false
  fmin := min
  fmax := max
  infinity := i64Max
  negInfinity := i64Min
  zero := 0

end JouleDB.ColumnarExec
