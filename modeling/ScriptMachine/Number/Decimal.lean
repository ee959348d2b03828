import ScriptMachine.Number.Double
import ScriptMachine.Text.Column

/-! Decimal text of binary floating-point numbers, always positional. -/

namespace ScriptMachine

namespace Double

/-! ### Whole numbers -/

/-- Whether a finite number has no fractional part. -/
def isWhole (x : Double) : Bool :=
  decide (0 ≤ x.exponent) || x.mantissa % 1 <<< (-x.exponent).toNat == 0

/-- The whole part of the absolute value of a finite number. -/
def wholePart (x : Double) : Nat :=
  (x.mantissa <<< x.exponent.toNat) >>> (-x.exponent).toNat

/-! ### Fewest places -/

/-- The reals that round to a number: they lie between `low / scale` and `high / scale`, around
`centre / scale`, and the ends belong to them when `closed` holds. -/
structure Neighbourhood where
  low : Nat
  centre : Nat
  high : Nat
  scale : Nat
  closed : Bool

/-- The neighbourhood of the absolute value of a finite number. Below a power of two the numbers
lie twice as dense as above it. -/
def neighbourhood (x : Double) : Neighbourhood :=
  let m := x.mantissa
  let up := x.exponent.toNat
  let below := if x.fraction = 0 ∧ 1 < x.exponentField then 1 else 2
  { low := (4 * m - below) <<< up
    centre := (4 * m) <<< up
    high := (4 * m + 2) <<< up
    scale := 4 <<< (-x.exponent).toNat
    closed := m % 2 == 0 }

/-- Whether the decimal `d / 10 ^ places` is read back as the number. -/
def Neighbourhood.holds (n : Neighbourhood) (places d : Nat) : Bool :=
  let low := n.low * Nat.pow 10 places
  let high := n.high * Nat.pow 10 places
  let value := d * n.scale
  if n.closed then decide (low ≤ value) && decide (value ≤ high)
  else decide (low < value) && decide (value < high)

/-- The decimal with the given number of places that is read back as the number, if there is one.
Of two such decimals it is the nearer one, and the upper one when both are equally near. -/
def Neighbourhood.decimal? (n : Neighbourhood) (places : Nat) : Option Nat :=
  let exact := n.centre * Nat.pow 10 places
  let lower := exact / n.scale
  match n.holds places lower, n.holds places (lower + 1) with
  | true, true =>
    if (lower + 1) * n.scale - exact ≤ exact - lower * n.scale then some (lower + 1)
    else some lower
  | true, false => some lower
  | false, true => some (lower + 1)
  | false, false => none

/-- Searches for the fewest places, from `places` on, with which the number is read back. -/
def Neighbourhood.fewestPlaces (n : Neighbourhood) : Nat → Nat → Nat × Nat
  | 0, places => (places, n.centre * Nat.pow 10 places / n.scale)
  | more + 1, places =>
    match n.decimal? places with
    | some d => (places, d)
    | none => n.fewestPlaces more (places + 1)

/-- Writes `d / 10 ^ places` with a point. -/
def pointed (places d : Nat) : String :=
  toString (d / Nat.pow 10 places) ++ "." ++ Text.zeroPadded places (d % Nat.pow 10 places)

/-! ### Text -/

/-- A whole number is written with all its digits and one place, any other finite number with the
fewest places that read back. A number with an exponent of `-1074` needs at most as many places. -/
def text (x : Double) : String :=
  if x.isNaN then "NaN"
  else
    let sign := if x.negative then "-" else ""
    if !x.isFinite then sign ++ "inf"
    else if x.isWhole then sign ++ toString x.wholePart ++ ".0"
    else
      let (places, d) := x.neighbourhood.fewestPlaces 1074 1
      sign ++ pointed places d

end Double

end ScriptMachine
