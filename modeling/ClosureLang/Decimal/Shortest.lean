/-!
# The shortest decimal of a double

A finite double stands for an interval of reals: all those that round to it. Its shortest
decimal is the number with the fewest significant digits in that interval, and of those with
equally few the one nearest to the double.

The search is exact. `Magnitude` holds the double and the ends of its interval as fractions over
one denominator. On the grid of decimals with `n` digits only the two neighbours of the double
need a look: if any grid point lies in the interval then one of these does. Seventeen digits
always suffice, so the grids are tried from one digit up to seventeen.
-/

namespace ClosureLang

/-- A decimal: `digits * 10 ^ exponent`. -/
structure Decimal where
  digits : Nat
  exponent : Int
  deriving DecidableEq, Repr, Inhabited

namespace Decimal

/-- A positive finite double with the interval of reals that round to it, all over one
denominator. -/
structure Magnitude where
  value : Nat
  /-- Numerators of the ends of the interval. -/
  low : Nat
  high : Nat
  den : Nat
  /-- Whether the ends belong to the interval: they do when the significand is even. -/
  closed : Bool

namespace Magnitude

/-- The weight of the leading bit of a significand, which a normal double does not store. -/
def leadingBit : Nat := Nat.pow 2 52

/-- The weight of the bit that holds the sign. -/
def signBit : Nat := Nat.pow 2 63

/-- Reads the low 63 bits of a finite double that is not zero. The interval reaches half way to
each neighbour, and the neighbour below a power of two is only half as far away. -/
def ofBits (bits : Nat) : Magnitude :=
  let biased := bits / leadingBit % 2048
  let fraction := bits % leadingBit
  let significand := if biased = 0 then fraction else fraction + leadingBit
  let below := if fraction = 0 ∧ 1 < biased then 1 else 2
  -- the unit is a quarter of the last place: 2 ^ (power - 1077)
  let power := max biased 1
  let scale := Nat.pow 2 (power - 1077)
  { value := 4 * significand * scale
    low := (4 * significand - below) * scale
    high := (4 * significand + 2) * scale
    den := Nat.pow 2 (1077 - power)
    closed := significand % 2 = 0 }

/-- How many decimal digits a natural number has; zero has none. -/
def width (n : Nat) : Nat := if n = 0 then 0 else (Nat.toDigits 10 n).length

/-- The least `k` with the double below `10 ^ k`. -/
def order (m : Magnitude) : Int :=
  if m.den ≤ m.value then width (m.value / m.den)
  else 1 - (width ((m.den + m.value - 1) / m.value - 1) : Int)

/-- Whether the fraction `num / den` rounds to the double. -/
def admits (m : Magnitude) (num den : Nat) : Bool :=
  let x := num * m.den
  if m.closed then m.low * den ≤ x ∧ x ≤ m.high * den
  else m.low * den < x ∧ x < m.high * den

end Magnitude

/-- The better of the two grid points around the double on the grid of multiples of
`10 ^ exponent`, if either rounds to it. The nearer one is better, and of two that are equally
near the greater. -/
def onGrid? (m : Magnitude) (exponent : Int) : Option Decimal :=
  let stepNum := Nat.pow 10 exponent.toNat
  let stepDen := Nat.pow 10 (-exponent).toNat
  let below := m.value * stepDen / (m.den * stepNum)
  let above := below + 1
  let lowFits := m.admits (below * stepNum) stepDen
  let highFits := m.admits (above * stepNum) stepDen
  let nearerAbove := (below + above) * stepNum * m.den ≤ 2 * m.value * stepDen
  if highFits && (!lowFits || nearerAbove) then some ⟨above, exponent⟩
  else if lowFits then some ⟨below, exponent⟩
  else none

/-- Moves a last zero from the digits into the exponent. -/
def dropZero (d : Decimal) : Decimal :=
  if d.digits % 10 = 0 then ⟨d.digits / 10, d.exponent + 1⟩ else d

/-- The decimal with the fewest digits that rounds to the double, and of those the nearest. -/
def shortest (m : Magnitude) : Decimal :=
  let grids := (List.range 17).map fun (n : Nat) => m.order - (n + 1 : Int)
  match grids.findSome? (onGrid? m) with
  | some d => d.dropZero
  | none => ⟨0, 0⟩

/-- Writes a decimal without an exponent: zeros fill the places between the digits and the
point. -/
def positional (d : Decimal) : String :=
  let digits := Nat.toDigits 10 d.digits
  let zeros (n : Nat) : List Char := List.replicate n '0'
  if 0 ≤ d.exponent then String.ofList (digits ++ zeros d.exponent.toNat)
  else
    let places := (-d.exponent).toNat
    if places < digits.length then
      let whole := digits.length - places
      String.ofList (digits.take whole ++ '.' :: digits.drop whole)
    else String.ofList ('0' :: '.' :: zeros (places - digits.length) ++ digits)

end Decimal
end ClosureLang
