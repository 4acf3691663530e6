import PlayerPaths.Execution.Sorts
import PlayerPaths.Formula.Build

/-!
# Conversions

Conversions between the sorts of IL values. Whether an integral value is signed is a matter of its
IL type, so a conversion takes the type of its operand along.
-/

namespace PlayerPaths

open IL

/-- A value as a truth value: not zero, or not null. -/
def toBool (value : Formula) : Result Formula := do
  match ← value.sort with
  | .bool => return value
  | .bitVec width => Build.ne value (.bits 0 width)
  | .int => Build.ne value (.int 0)
  | s => throw (.unsupported (s.text ++ " used as a condition"))

def resize (value : Formula) (width : Nat) (signed : Bool) : Result Formula := do
  match ← value.sort with
  | .bitVec old =>
    if old = width then return value
    else if old < width then
      if signed then Build.signExtend (width - old) value
      else Build.zeroExtend (width - old) value
    else if width = 0 then throw (.fault .overflow)
    else Build.extract (width - 1) 0 value
  | s => throw (.sort ("cannot resize " ++ s.text))

def bitsToReal (value : Formula) (signed : Bool) : Result Formula := do
  match ← value.sort with
  | .bitVec width =>
    let unsigned ← Build.toReal (← Build.bitsToInt value)
    if !signed then return unsigned
    let negative ← Build.compareBits .slt value (.bits 0 width)
    let wrapped ← Build.arith .sub unsigned (.real (Double.twoPow width))
    Build.ite negative wrapped unsigned
  | s => throw (.sort (s.text ++ " is not a bitvector"))

/-- A real number rounded toward zero, as a bit vector. -/
def realToBits (value : Formula) (width : Nat) : Result Formula := do
  let nonNegative ← Build.compareArith .ge value (.real 0.0)
  let down ← Build.toInt value
  let up ← Build.neg (← Build.toInt (← Build.neg value))
  Build.intToBits width (← Build.ite nonNegative down up)

def boolToBits (value : Formula) (width : Nat) : Result Formula :=
  Build.ite value (.bits 1 width) (.bits 0 width)

/-- The explicit conversion of a value of one type to another type. -/
def convert (sorts : Sorts) (value : Formula) (t u : Ty) : Result Formula := do
  let target ← sorts.sort u
  let source ← value.sort
  if source = target then return value
  match source, target with
  | .bool, .bitVec width => boolToBits value width
  | .bool, .real => Build.ite value (.real 1.0) (.real 0.0)
  | .bitVec _, .bitVec width => resize value width t.isSigned
  | .bitVec _, .real => bitsToReal value t.isSigned
  | .real, .bitVec width => realToBits value width
  | source, target =>
    throw (.unsupported ("conversion from " ++ t.text ++ " (" ++ source.text ++ ") to "
      ++ u.text ++ " (" ++ target.text ++ ")"))

/-- The implicit conversion of a store, an argument or a return. -/
def coerce (sorts : Sorts) (value : Formula) (t u : Ty) : Result Formula := do
  let target ← sorts.sort u
  let source ← value.sort
  if source = target then return value
  match source, target with
  | .bool, .bitVec width => boolToBits value width
  | .bitVec _, .bitVec width => resize value width t.isSigned
  | .bitVec _, .real => bitsToReal value t.isSigned
  | source, target =>
    throw (.unsupported (source.text ++ " value stored as " ++ u.text ++ " (" ++ target.text
      ++ ")"))

/-- Two operands in a common sort: truth values become bit vectors, the narrower bit vector is
widened, and a bit vector beside a real becomes a real. -/
def unify (a b : Formula) (signed : Bool) : Result (Formula × Formula) := do
  match ← a.sort, ← b.sort with
  | .bool, .bitVec width => return (← boolToBits a width, b)
  | .bitVec width, .bool => return (a, ← boolToBits b width)
  | .bitVec m, .bitVec n =>
    if m < n then return (← resize a n signed, b)
    else if n < m then return (a, ← resize b m signed)
    else return (a, b)
  | .bitVec _, .real => return (← bitsToReal a signed, b)
  | .real, .bitVec _ => return (a, ← bitsToReal b signed)
  | _, _ => return (a, b)

end PlayerPaths
