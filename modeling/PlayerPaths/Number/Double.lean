import PlayerPaths.Number.Word

/-!
# Double precision numbers

A finite double is `± significand · 2 ^ exponent`; `Double.parts?` gives that form, and everything
else here is exact integer arithmetic on it. Doubles are told apart by their bits, and
`Double.order` is the total order in which negative numbers precede positive ones, `-0` precedes
`0`, and NaN comes last.
-/

namespace PlayerPaths.Double

/-- A finite double, `(-1) ^ negative · significand · 2 ^ exponent`. -/
structure Parts where
  negative : Bool
  significand : Nat
  exponent : Int
  deriving DecidableEq, Repr

def word (x : Float) : Nat := x.toBits.toNat

/-- The exact value of a finite double. -/
def parts? (x : Float) : Option Parts :=
  let bits := word x
  let negative : Bool := pow2 63 ≤ bits
  let biased : Nat := bits / pow2 52 % pow2 11
  let fraction : Nat := bits % pow2 52
  if biased = 2047 then none
  else if biased = 0 then some ⟨negative, fraction, -1074⟩
  else some ⟨negative, pow2 52 + fraction, (biased : Int) - 1075⟩

/-- Neither infinite nor NaN. -/
def isFinite (x : Float) : Bool := (parts? x).isSome

/-- Position in the total order: the bits, with negative numbers counted down from zero. -/
def rank (x : Float) : Int :=
  let bits := word x
  if bits < pow2 63 then bits else pow2 63 - 1 - (bits : Int)

def order (x y : Float) : Ordering := compare (rank x) (rank y)

/-- The two zeros are one number: `-0` becomes `0`. -/
def normal (x : Float) : Float := if x == 0.0 then 0.0 else x

namespace Parts

/-- The greatest integer not above `significand · 2 ^ exponent`, without the sign. -/
def wholeMagnitude (p : Parts) : Nat :=
  if 0 ≤ p.exponent then p.significand * pow2 p.exponent.toNat
  else p.significand / pow2 (-p.exponent).toNat

/-- No binary digit stands behind the point. -/
def isWhole (p : Parts) : Bool :=
  0 ≤ p.exponent || p.significand % pow2 (-p.exponent).toNat == 0

def truncate (p : Parts) : Int :=
  if p.negative then -(p.wholeMagnitude : Int) else p.wholeMagnitude

def floor (p : Parts) : Int :=
  if p.negative && !p.isWhole then p.truncate - 1 else p.truncate

end Parts

def isWhole (x : Float) : Bool :=
  match parts? x with
  | some p => p.isWhole
  | none => false

/-- Rounded down; infinities and NaN have no floor. -/
def floor? (x : Float) : Option Int := (parts? x).map Parts.floor

/-- Rounded toward zero into the range of 64-bit integers: beyond it the nearest end, and zero for
NaN. -/
def toInt64 (x : Float) : Int :=
  match parts? x with
  | some p => Word.clamp p.truncate
  | none => if x.isNaN then 0 else if x < 0.0 then Word.minInt else Word.maxInt

/-- The nearest double to an integer, ties to even. -/
def ofInt (i : Int) : Float := Float.ofInt i

/-- The power `2 ^ n`. The exponent is a 32-bit integer, and powers outside the range of doubles
are infinite or zero. -/
def twoPow (n : Nat) : Float :=
  let e : Int := Int.bmod n (pow2 32)
  let power (k : Nat) : Float := if k < 1024 then Float.ofNat (pow2 k) else 1.0 / 0.0
  if 0 ≤ e then power e.toNat else 1.0 / power (-e).toNat

end PlayerPaths.Double
