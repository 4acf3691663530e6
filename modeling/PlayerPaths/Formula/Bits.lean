import PlayerPaths.Formula.Basic

/-!
# Values of bit vector operations

Bit vectors are words of at most 64 bits. The operations follow the theory of fixed-size bit
vectors: division by zero gives all ones, the remainder by zero gives the dividend, and a shift by
the width or more shifts everything out. Widths above 64 are not supported, and a shift by 64 or
more below such a width is a fault.
-/

namespace PlayerPaths

/-- Why a formula has no value. -/
inductive EvalError where
  /-- A variable without value, an operand of the wrong kind, a division by zero or an integer
  that leaves the range of 64 bits. -/
  | undefined
  | fault (reason : Fault)
  deriving DecidableEq, Repr

abbrev Evaluation := Except EvalError

/-- The value if there is one. Faults pass through. -/
def Evaluation.value? {α : Type} : Evaluation α → Result (Option α)
  | .ok a => .ok (some a)
  | .error .undefined => .ok none
  | .error (.fault reason) => .error (.fault reason)

namespace Bits

/-- All ones. -/
def ones : Nat := Word.limit - 1

/-- The low bits of a word, read as two's complement. -/
def signed (value width : Nat) : Int :=
  if width = 0 ∨ 64 ≤ width then Word.toInt value
  else
    let low := value % pow2 width
    if low < pow2 (width - 1) then low else (low : Int) - pow2 width

/-- A shift amount below 64. -/
def shiftAmount (n : Nat) : Evaluation Nat :=
  if n < 64 then .ok n else .error (.fault .overflow)

end Bits

/-- The word that an operation gives, of which the low bits count. -/
def BitOp.apply (op : BitOp) (x y width : Nat) : Evaluation Nat :=
  let sx := Bits.signed x width
  let sy := Bits.signed y width
  match op with
  | add => return x + y
  | sub => return x + (Word.limit - y)
  | mul => return x * y
  | udiv => return if y = 0 then Bits.ones else x / y
  | urem => return if y = 0 then x else x % y
  | sdiv =>
    return if sy = 0 then (if sx < 0 then 1 else Bits.ones) else Word.ofInt (sx.tdiv sy)
  | srem => return if sy = 0 then x else Word.ofInt (sx.tmod sy)
  | and => return x &&& y
  | or => return x ||| y
  | xor => return x ^^^ y
  | shl => if width ≤ y then return 0 else return x <<< (← Bits.shiftAmount y)
  | lshr => if width ≤ y then return 0 else return x >>> (← Bits.shiftAmount y)
  | ashr =>
    if width ≤ y then return if sx < 0 then Bits.ones else 0
    else return Word.ofInt (sx >>> (← Bits.shiftAmount y))

def BitComparison.holds (c : BitComparison) (x y width : Nat) : Bool :=
  let sx := Bits.signed x width
  let sy := Bits.signed y width
  match c with
  | ult => x < y
  | ule => x ≤ y
  | ugt => x > y
  | uge => x ≥ y
  | slt => sx < sy
  | sle => sx ≤ sy
  | sgt => sx > sy
  | sge => sx ≥ sy

def BitComparison.negate : BitComparison → BitComparison
  | ult => uge
  | ule => ugt
  | ugt => ule
  | uge => ult
  | slt => sge
  | sle => sgt
  | sgt => sle
  | sge => slt

/-- Comparison of doubles. Nothing is below, above or equal to NaN. -/
def ArithComparison.holds (c : ArithComparison) (x y : Float) : Bool :=
  match c with
  | lt => x < y
  | le => x ≤ y
  | gt => x > y
  | ge => x ≥ y

def ArithComparison.negate : ArithComparison → ArithComparison
  | lt => ge
  | le => gt
  | gt => le
  | ge => lt

end PlayerPaths
