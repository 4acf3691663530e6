import PlayerPaths.Number.Double

/-!
# Decimal text of doubles

`Decimal.shortest` finds the fewest decimal digits that read back as a given double, and of those
the nearest; `Decimal.text` writes them positionally, never with an exponent. `Decimal.exact`
writes an integral double with all of its digits and one place. `Decimal.read?` is the reader.
-/

namespace PlayerPaths.Decimal

/-- `digits · 10 ^ exponent`. -/
structure Scaled where
  digits : Nat
  exponent : Int
  deriving DecidableEq, Repr

/-- The positive rational `numerator / denominator`. -/
structure Ratio where
  numerator : Nat
  denominator : Nat

/-- `n · 2 ^ e`. -/
def Ratio.binary (n : Nat) (e : Int) : Ratio :=
  if 0 ≤ e then ⟨n * pow2 e.toNat, 1⟩ else ⟨n, pow2 (-e).toNat⟩

/-- `n · 10 ^ e`. -/
def Ratio.decimal (n : Nat) (e : Int) : Ratio :=
  if 0 ≤ e then ⟨n * pow10 e.toNat, 1⟩ else ⟨n, pow10 (-e).toNat⟩

def Ratio.lt (a b : Ratio) : Bool := a.numerator * b.denominator < b.numerator * a.denominator

def Ratio.order (a b : Ratio) : Ordering :=
  compare (a.numerator * b.denominator) (b.numerator * a.denominator)

def Ratio.le (a b : Ratio) : Bool := a.numerator * b.denominator ≤ b.numerator * a.denominator

/-- The greatest `n` with `n · 10 ^ e ≤ r`. -/
def Ratio.quotient (r : Ratio) (e : Int) : Nat :=
  if 0 ≤ e then r.numerator / (r.denominator * pow10 e.toNat)
  else r.numerator * pow10 (-e).toNat / r.denominator

/-- The reals that round to a double: between the midpoints to its two neighbours, the ends
included when the significand is even. -/
structure Interval where
  low : Ratio
  high : Ratio
  closed : Bool

def Interval.contains (i : Interval) (r : Ratio) : Bool :=
  if i.closed then i.low.le r && r.le i.high else i.low.lt r && r.lt i.high

/-- The rounding interval of `significand · 2 ^ exponent`. Below a power of two the gap is half as
wide, except next to the subnormal numbers. -/
def roundingInterval (p : Double.Parts) : Interval :=
  let low :=
    if p.significand = pow2 52 ∧ -1074 < p.exponent then
      Ratio.binary (4 * p.significand - 1) (p.exponent - 2)
    else Ratio.binary (2 * p.significand - 1) (p.exponent - 1)
  ⟨low, Ratio.binary (2 * p.significand + 1) (p.exponent - 1), p.significand % 2 = 0⟩

def digitCount (n : Nat) : Nat := (toString n).length

/-- The exponent `e` with `10 ^ e ≤ r < 10 ^ (e + 1)`. -/
def magnitude (r : Ratio) : Int :=
  let guess : Int := (digitCount r.numerator : Int) - digitCount r.denominator
  if (Ratio.decimal 1 guess).le r then guess else guess - 1

/-- Which of two equally near neighbours counts as the nearest. -/
inductive Tie where
  | up
  /-- The one whose last digit is even. -/
  | even
  deriving DecidableEq, Repr

/-- The neighbour of `r` that counts as nearest, given how `r` compares with the middle between
`below` and its successor. -/
def Tie.choose (tie : Tie) (below : Nat) : Ordering → Nat
  | .lt => below
  | .gt => below + 1
  | .eq => if tie = .even ∧ below % 2 = 0 then below else below + 1

/-- The better of the two neighbours of `r` on the grid of multiples of `10 ^ e`, among those that
the interval contains. -/
def nearestOnGrid (tie : Tie) (i : Interval) (r : Ratio) (e : Int) : Option Nat :=
  let below := r.quotient e
  let above := below + 1
  match i.contains (Ratio.decimal below e), i.contains (Ratio.decimal above e) with
  | false, false => none
  | true, false => some below
  | false, true => some above
  | true, true =>
    -- Compare `2 r` with `below + above`.
    let middle := Ratio.decimal (below + above) e
    some (tie.choose below ((Ratio.mk (2 * r.numerator) r.denominator).order middle))

/-- Seventeen digits always read back. -/
def maxDigits : Nat := 17

/-- Refine the grid digit by digit until a neighbour reads back. -/
def shortestFrom (tie : Tie) (i : Interval) (r : Ratio) (top : Int) : Nat → Nat → Scaled
  | 0, used => ⟨r.quotient (top - used), top - used⟩
  | fuel + 1, used =>
    match nearestOnGrid tie i r (top - used) with
    | some n => ⟨n, top - used⟩
    | none => shortestFrom tie i r top fuel (used + 1)

/-- The fewest digits that read back as a positive double. -/
def shortest (tie : Tie) (p : Double.Parts) : Scaled :=
  let r := Ratio.binary p.significand p.exponent
  shortestFrom tie (roundingInterval p) r (magnitude r) maxDigits 0

/-- Positional notation, with zeros up to the point and no trailing point. -/
def Scaled.positional (s : Scaled) : String :=
  let digits := toString s.digits
  if 0 ≤ s.exponent then digits ++ String.ofList (List.replicate s.exponent.toNat '0')
  else
    let places := (-s.exponent).toNat
    let padded := List.replicate (places + 1 - digits.length) '0' ++ digits.toList
    let whole := padded.take (padded.length - places)
    let fraction := padded.drop (padded.length - places)
    -- A digit string may end in zeros when the grid is finer than the value.
    let fraction := (fraction.reverse.dropWhile (· == '0')).reverse
    if fraction.isEmpty then String.ofList whole
    else String.ofList whole ++ "." ++ String.ofList fraction

/-- Scientific notation: a point behind the first digit, no zeros at the end, and the exponent. -/
def Scaled.scientific (s : Scaled) : String :=
  match (toString s.digits).toList with
  | [] => ""
  | first :: rest =>
    let fraction := (rest.reverse.dropWhile (· == '0')).reverse
    let point := if fraction.isEmpty then "" else "."
    String.ofList [first] ++ point ++ String.ofList fraction ++ "e"
      ++ toString (s.exponent + rest.length)

/-- The number of digits in front of the point; it is negative for zeros behind the point. -/
def Scaled.wholeDigits (s : Scaled) : Int := digitCount s.digits + s.exponent

def signed (negative : Bool) (text : String) : String :=
  if negative then "-" ++ text else text

/-- The shortest text that reads back; of two equally near ones it is the upper one. -/
def text (x : Float) : String :=
  match Double.parts? x with
  | some p =>
    if p.significand = 0 then signed p.negative "0"
    else signed p.negative (shortest .up p).positional
  | none => if x.isNaN then "NaN" else if x < 0.0 then "-inf" else "inf"

/-- Constants are written so that a reader sees a real number: integral values with every digit
and one place, all others as the shortest text. -/
def exact (x : Float) : String :=
  match Double.parts? x with
  | some p =>
    if p.isWhole then signed p.negative (toString p.wholeMagnitude ++ ".0")
    else text x
  | none => text x

/-! ## Reading -/

def digitsValue (cs : List Char) : Nat :=
  cs.foldl (fun n c => 10 * n + (c.toNat - '0'.toNat)) 0

/-- An optional sign, and at least one digit, as an exponent. -/
def readExponent? : List Char → Option Int
  | '-' :: cs => (unsigned? cs).map (- ·)
  | '+' :: cs => unsigned? cs
  | cs => unsigned? cs
where
  unsigned? (cs : List Char) : Option Int :=
    if cs.isEmpty || !cs.all Char.isDigit then none else some (digitsValue cs)

/-- The double nearest to `digits · 10 ^ exponent`. -/
def nearest (digits : Nat) (exponent : Int) : Float :=
  if digits = 0 then 0.0
  -- Outside these bounds the nearest double is infinite, or zero.
  else if (digitCount digits : Int) + exponent > 400 then Float.ofBits 0x7FF0000000000000
  else if (digitCount digits : Int) + exponent < -400 then 0.0
  else if 0 ≤ exponent then Float.ofScientific digits false exponent.toNat
  else Float.ofScientific digits true (-exponent).toNat

/-- Digits with an optional point among them, and an optional exponent. -/
def read? (s : String) : Option Float :=
  let cs := s.toList
  let whole := cs.takeWhile Char.isDigit
  let rest := cs.dropWhile Char.isDigit
  let (fraction, rest) := match rest with
    | '.' :: cs => (cs.takeWhile Char.isDigit, cs.dropWhile Char.isDigit)
    | cs => ([], cs)
  if whole.isEmpty && fraction.isEmpty then none
  else
    let finish (e : Int) := nearest (digitsValue (whole ++ fraction)) (e - fraction.length)
    match rest with
    | [] => some (finish 0)
    | c :: cs => if c == 'e' || c == 'E' then (readExponent? cs).map finish else none

end PlayerPaths.Decimal
