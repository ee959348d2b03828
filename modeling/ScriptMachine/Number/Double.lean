/-! Binary floating-point numbers of 64 bits, kept as bit patterns. -/

namespace ScriptMachine

/-- A binary64 number. Two numbers are the same datum exactly when their bits agree, so `0.0` and
`-0.0` differ and NaN patterns stay apart; numerical equality is `Double.eq`. -/
structure Double where
  bits : UInt64
  deriving DecidableEq, Hashable, Inhabited

namespace Double

def ofFloat (x : Float) : Double :=
  ⟨x.toBits⟩

def toFloat (x : Double) : Float :=
  Float.ofBits x.bits

/-! ### Parts of the bit pattern -/

def negative (x : Double) : Bool :=
  decide (1 <<< 63 ≤ x.bits.toNat)

/-- The bit pattern without its sign; finite numbers and infinities are ordered by it. -/
def magnitude (x : Double) : Nat :=
  x.bits.toNat % 1 <<< 63

def exponentField (x : Double) : Nat :=
  x.magnitude / 1 <<< 52

def fraction (x : Double) : Nat :=
  x.magnitude % 1 <<< 52

def isFinite (x : Double) : Bool :=
  x.exponentField != 0x7ff

def isNaN (x : Double) : Bool :=
  !x.isFinite && x.fraction != 0

def isZero (x : Double) : Bool :=
  x.magnitude == 0

/-- A finite number is `± mantissa * 2 ^ exponent`. -/
def mantissa (x : Double) : Nat :=
  if x.exponentField = 0 then x.fraction else x.fraction + 1 <<< 52

def exponent (x : Double) : Int :=
  (max x.exponentField 1 : Nat) - 1075

/-! ### Comparison -/

/-- Places the finite numbers and the infinities on a line; both zeros lie at the origin. -/
def rank (x : Double) : Int :=
  if x.negative then -(x.magnitude : Int) else x.magnitude

/-- No comparison with NaN holds. -/
def ordered (x y : Double) : Bool :=
  !x.isNaN && !y.isNaN

def eq (x y : Double) : Bool :=
  ordered x y && decide (x.rank = y.rank)

def lt (x y : Double) : Bool :=
  ordered x y && decide (x.rank < y.rank)

def le (x y : Double) : Bool :=
  ordered x y && decide (x.rank ≤ y.rank)

/-! ### Arithmetic -/

def add (x y : Double) : Double :=
  ofFloat (x.toFloat + y.toFloat)

def sub (x y : Double) : Double :=
  ofFloat (x.toFloat - y.toFloat)

def mul (x y : Double) : Double :=
  ofFloat (x.toFloat * y.toFloat)

def div (x y : Double) : Double :=
  ofFloat (x.toFloat / y.toFloat)

/-- Negation turns the sign bit and nothing else. -/
def neg (x : Double) : Double :=
  ⟨x.bits ^^^ 0x8000000000000000⟩

def nan : Double :=
  ⟨0x7ff8000000000000⟩

/-- The number `± m * 2 ^ e` for `m < 2 ^ 53` and `-1074 ≤ e`, where it is in range. -/
def ofScaled (negative : Bool) (m : Nat) (e : Int) : Double :=
  let shift := min (52 - m.log2) (e + 1074).toNat
  let mantissa := m <<< shift
  let field := if mantissa < 1 <<< 52 then 0 else (e - shift + 1075).toNat
  let sign := if negative then 1 <<< 63 else 0
  ⟨UInt64.ofNat (sign + field <<< 52 + mantissa % 1 <<< 52)⟩

/-- The remainder of division rounded toward zero. It is exact and has the dividend's sign. -/
def rem (x y : Double) : Double :=
  if x.isNaN || y.isNaN || !x.isFinite || y.isZero then nan
  else if !y.isFinite || x.isZero then x
  else
    let e := min x.exponent y.exponent
    let a := x.mantissa <<< (x.exponent - e).toNat
    let b := y.mantissa <<< (y.exponent - e).toNat
    ofScaled x.negative (a % b) e

end Double

end ScriptMachine
