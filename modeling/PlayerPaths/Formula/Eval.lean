import PlayerPaths.Formula.Bits
import PlayerPaths.Formula.Order

/-!
# Evaluation

`Formula.eval` computes the value of a formula under an assignment of its variables. The value of
an application is a function of the values of its parts: `UnaryFunction.apply`,
`BinaryFunction.apply` and `NaryFunction.apply`. Reals are doubles, and integers are 64-bit
integers without overflow.

A `Model` is an assignment of finitely many variables. A `Solver` gives one when it finds that
formulas can hold together.
-/

namespace PlayerPaths

open Formula

def intValue (i : Int) : Evaluation Formula :=
  if Word.inRange i then return .int i else throw .undefined

def widthValue (n : Nat) : Evaluation Nat :=
  if n < Word.limit then return n else throw (.fault .overflow)

def truthOf : Formula → Evaluation Bool
  | .bool b => return b
  | _ => throw .undefined

/-- Reals from here on are not integers that can be taken the floor of. -/
def floorLimit : Nat := 9 * pow10 18

def UnaryFunction.apply (f : UnaryFunction) (a : Formula) : Evaluation Formula :=
  match f, a with
  | .not, .bool b => return .bool (!b)
  | .neg, .int i => intValue (-i)
  | .neg, .lit (.real x) => return .real (-x)
  | .extract high low, .lit (.bits value _) => do
    if high < low then throw (.fault .overflow)
    return .bits (value >>> (← Bits.shiftAmount low)) (← widthValue (high - low + 1))
  | .zeroExtend extra, .lit (.bits value width) => do
    return .bits value (← widthValue (width + extra))
  | .signExtend extra, .lit (.bits value width) => do
    return .bits (Word.ofInt (Bits.signed value width)) (← widthValue (width + extra))
  | .bitsToInt, .lit (.bits value _) => intValue value
  | .intToBits width, .int i => return .bits (Word.ofInt i) width
  | .toReal, .int i => return .real (Double.ofInt i)
  | .toInt, .lit (.real x) =>
    match Double.floor? x with
    | some i => if i.natAbs < floorLimit then return .int i else throw .undefined
    | none => throw .undefined
  | .get _ i, .nary (.make _) fields =>
    match fields[i]? with
    | some field => return field
    | none => throw .undefined
  | _, _ => throw .undefined

/-- The value of an operation on integers. Division is Euclidean. -/
def ArithOp.applyInt (op : ArithOp) (x y : Int) : Evaluation Formula :=
  match op with
  | add => intValue (x + y)
  | sub => intValue (x - y)
  | mul => intValue (x * y)
  | div =>
    if y = 0 then throw .undefined
    else if Word.inRange (x / y) then return .int (x / y)
    else throw (.fault .overflow)

def ArithOp.applyReal (op : ArithOp) (x y : Float) : Evaluation Formula :=
  match op with
  | add => return .real (x + y)
  | sub => return .real (x - y)
  | mul => return .real (x * y)
  | div => if y == 0.0 then throw .undefined else return .real (x / y)

def BinaryFunction.apply (f : BinaryFunction) (a b : Formula) : Evaluation Formula :=
  match f, a, b with
  | .eq, a, b => return .bool (a = b)
  | .bits op, .lit (.bits x width), .lit (.bits y _) => do
    return .bits (← op.apply x y width) width
  | .compareBits c, .lit (.bits x width), .lit (.bits y _) => return .bool (c.holds x y width)
  | .arith op, .int x, .int y => op.applyInt x y
  | .arith op, .lit (.real x), .lit (.real y) => op.applyReal x y
  | .compareArith c, a, b =>
    match a.number?, b.number? with
    | some x, some y => return .bool (c.holds x y)
    | _, _ => throw .undefined
  | .concat, .lit (.bits high m), .lit (.bits low n) => do
    let width ← widthValue (m + n)
    if 64 < width then throw .undefined
    let shifted := if 64 ≤ n then 0 else high <<< n % Word.limit
    return .bits (shifted ||| low) width
  | _, _, _ => throw .undefined

def NaryFunction.apply (f : NaryFunction) (values : List Formula) : Evaluation Formula :=
  match f with
  | .and => do return .bool ((← values.mapM truthOf).all id)
  | .or => do return .bool ((← values.mapM truthOf).any id)
  | .make r => return .nary (.make r) values

namespace Formula

abbrev Assignment := String → Option Formula

mutual

/-- The value of a formula under an assignment. -/
def eval (env : Assignment) : Formula → Evaluation Formula
  | .var name _ =>
    match env name with
    | some value => return value
    | none => throw .undefined
  | .lit v => return .lit v
  | .unary f a => do f.apply (← a.eval env)
  | .binary f a b => do
    let x ← a.eval env
    let y ← b.eval env
    f.apply x y
  | .ite c a b => do
    if ← truthOf (← c.eval env) then a.eval env else b.eval env
  | .nary f es => do f.apply (← evalAll env es)

def evalAll (env : Assignment) : List Formula → Evaluation (List Formula)
  | [] => return []
  | e :: es => do
    let x ← e.eval env
    return x :: (← evalAll env es)

end

end Formula

/-! ## Models and solvers -/

structure Model where
  values : Std.TreeMap String Formula := ∅

namespace Model

def empty : Model := {}

def insert (m : Model) (name : String) (value : Formula) : Model := ⟨m.values.insert name value⟩

def assignment (m : Model) : Formula.Assignment := fun name => m.values[name]?

def eval (m : Model) (e : Formula) : Evaluation Formula := e.eval m.assignment

end Model

/-- What a solver says about a conjunction. -/
inductive Answer where
  /-- The model makes every formula true. -/
  | sat (model : Model)
  | unsat
  | unknown

def Answer.isUnsat : Answer → Bool
  | unsat => true
  | _ => false

/-- A solver: from assertions to an answer. -/
abbrev Solver := List Formula → Result Answer

end PlayerPaths
