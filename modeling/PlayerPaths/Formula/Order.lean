import Std.Data.TreeMap
import PlayerPaths.Formula.Basic

/-!
# The order of formulas

Formulas are ordered by kind first: variables, literals, then applications in the order of their
functions. Within one kind the parameters count before the parts, and the parts count from left
to right.
-/

namespace PlayerPaths

def BitOp.rank : BitOp → Nat
  | add => 0
  | sub => 1
  | mul => 2
  | udiv => 3
  | sdiv => 4
  | urem => 5
  | srem => 6
  | and => 7
  | or => 8
  | xor => 9
  | shl => 10
  | lshr => 11
  | ashr => 12

def BitComparison.rank : BitComparison → Nat
  | ult => 0
  | ule => 1
  | ugt => 2
  | uge => 3
  | slt => 4
  | sle => 5
  | sgt => 6
  | sge => 7

def ArithOp.rank : ArithOp → Nat
  | add => 0
  | sub => 1
  | mul => 2
  | div => 3

def ArithComparison.rank : ArithComparison → Nat
  | lt => 0
  | le => 1
  | gt => 2
  | ge => 3

def Literal.rank : Literal → Nat
  | .bool _ => 1
  | .bits .. => 2
  | .int _ => 3
  | .real _ => 4
  | .str _ => 5

def UnaryFunction.rank : UnaryFunction → Nat
  | .not => 6
  | .neg => 15
  | .extract .. => 17
  | .zeroExtend _ => 18
  | .signExtend _ => 19
  | .bitsToInt => 20
  | .intToBits _ => 21
  | .toReal => 22
  | .toInt => 23
  | .get .. => 25

def BinaryFunction.rank : BinaryFunction → Nat
  | .eq => 9
  | .bits _ => 11
  | .compareBits _ => 12
  | .arith _ => 13
  | .compareArith _ => 14
  | .concat => 16

def NaryFunction.rank : NaryFunction → Nat
  | .and => 7
  | .or => 8
  | .make _ => 24

def Formula.rank : Formula → Nat
  | .var .. => 0
  | .lit v => v.rank
  | .unary f _ => f.rank
  | .binary f .. => f.rank
  | .ite .. => 10
  | .nary f _ => f.rank

def Literal.order : Literal → Literal → Ordering
  | .bool a, .bool b => compare a.toNat b.toNat
  | .bits a m, .bits b n => (compare a b).then (compare m n)
  | .int a, .int b => compare a b
  | .real a, .real b => Double.order a b
  | .str a, .str b => compare a b
  | a, b => compare a.rank b.rank

def UnaryFunction.order : UnaryFunction → UnaryFunction → Ordering
  | .extract a b, .extract c d => (compare a c).then (compare b d)
  | .zeroExtend m, .zeroExtend n | .signExtend m, .signExtend n => compare m n
  | .intToBits m, .intToBits n => compare m n
  | .get r i, .get s j => (r.order s).then (compare i j)
  | f, g => compare f.rank g.rank

def BinaryFunction.order : BinaryFunction → BinaryFunction → Ordering
  | .bits f, .bits g => compare f.rank g.rank
  | .compareBits f, .compareBits g => compare f.rank g.rank
  | .arith f, .arith g => compare f.rank g.rank
  | .compareArith f, .compareArith g => compare f.rank g.rank
  | f, g => compare f.rank g.rank

def NaryFunction.order : NaryFunction → NaryFunction → Ordering
  | .make r, .make s => r.order s
  | f, g => compare f.rank g.rank

namespace Formula

mutual

def order : Formula → Formula → Ordering
  | .var m s, .var n t => (compare m n).then (s.order t)
  | .lit a, .lit b => a.order b
  | .unary f a, .unary g b => (f.order g).then (a.order b)
  | .binary f a b, .binary g c d => ((f.order g).then (a.order c)).then (b.order d)
  | .ite a b c, .ite d e f => ((a.order d).then (b.order e)).then (c.order f)
  | .nary f as, .nary g bs => (f.order g).then (orderAll as bs)
  | a, b => compare a.rank b.rank

def orderAll : List Formula → List Formula → Ordering
  | [], [] => .eq
  | [], _ :: _ => .lt
  | _ :: _, [] => .gt
  | a :: as, b :: bs => (a.order b).then (orderAll as bs)

end

/-- The variables of a formula with their sorts, from left to right. -/
def occurrences (e : Formula) : List (String × SmtSort) :=
  e.parts.filterMap fun
    | .var name s => some (name, s)
    | _ => none

/-- The free variables of some formulas. A name with several sorts has the last one. -/
def variablesOf (es : List Formula) : Std.TreeMap String SmtSort :=
  .ofList (es.flatMap occurrences)

def freeVariables (e : Formula) : Std.TreeMap String SmtSort := variablesOf [e]

end Formula

end PlayerPaths
