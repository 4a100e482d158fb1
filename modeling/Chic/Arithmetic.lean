import Chic.Decimal

namespace Chic

/-- What a program makes of exact results. -/
structure Arithmetic where
  /-- A result of decimal arithmetic. -/
  decimal : ℚ → ℚ
  /-- A decimal without its fraction, `none` where it has too many digits for that. -/
  whole : ℚ → Option ℤ
  /-- A result of float arithmetic, `none` where it is infinite. -/
  double : ℚ → Option ℚ
  /-- A number as a float while no exponent is too large for one. -/
  float : ℚ → ℚ
  /-- The decimal that a float is written as. -/
  written : ℚ → ℚ

namespace Arithmetic
open Binary64 Decimal

/-- Nothing is rounded but where the program asks for it. -/
def exact : Arithmetic where
  decimal := id
  whole x := some (roundHalfUp x)
  double := some
  float := id
  written := id

/-- A double with `n` significant digits: the nearest ones, or the ones on its other side, if they
are read back as it. -/
def withDigits (n : ℕ) (x : ℚ) : Option ℚ :=
  let last : ℚ := 10 ^ (Int.log 10 |x| + 1 - n)
  [roundTo n x, ⌊x / last⌋ * last, ⌈x / last⌉ * last].find? (nearest · = x)

/-- The shortest decimal that is read back as a double, which never needs more than 17 digits. -/
def shortest (x : ℚ) : ℚ := ((List.range' 1 17).findSome? (withDigits · x)).getD x

/-- The decimals of the default context, with 28 digits, and the doubles. -/
def python : Arithmetic where
  decimal := roundTo 28
  whole x := if |roundHalfUp x| < 10 ^ 28 then some (roundHalfUp x) else none
  double := ofRat
  float := nearest
  written := shortest

theorem double_python : python.double = ofRat := rfl

example : shortest (nearest (1 / 10)) = 1 / 10 := by decide +kernel

example : shortest (nearest (nearest (1 / 10) + nearest (2 / 10))) = 30000000000000004 / 10 ^ 17 := by
  decide +kernel

-- the nearest 16 digits are those of another double
example : shortest (2 ^ (-44 : ℤ)) = 5684341886080802 / 10 ^ 29 := by decide +kernel

end Arithmetic

end Chic
