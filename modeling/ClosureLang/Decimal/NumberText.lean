import ClosureLang.Decimal.Shortest

/-!
# How a number is shown

The shortest decimal that reads back, never with an exponent and without a fraction where there
is none. A zero has no sign, and what is not finite has a word of its own.
-/

namespace ClosureLang.Decimal

/-- The text of a number, as `print` shows it. -/
def numberText (x : Float) : String :=
  let bits := x.toBits.toNat
  let sign := if bits < Magnitude.signBit then "" else "-"
  if x.isNaN then "NaN"
  else if x.isInf then sign ++ "Infinity"
  else if x == 0 then "0"
  else sign ++ (shortest (.ofBits (bits % Magnitude.signBit))).positional

end ClosureLang.Decimal
