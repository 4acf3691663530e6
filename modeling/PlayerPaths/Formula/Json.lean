import PlayerPaths.Formula.Basic
import PlayerPaths.Json.Decoder

/-!
# Formulas as JSON

Sorts and formulas are exchanged as JSON. Reading checks the shape and nothing else, so a formula
may be ill sorted.
-/

namespace PlayerPaths

open Json

mutual

def SmtSort.ofJsonWithin? : Nat → Json → Option SmtSort
  | 0, _ => none
  | fuel + 1, j =>
    match choice? j with
    | some ("BitVec", some width) => (nat? width).map .bitVec
    | some ("Datatype", some record) => (Record.ofJsonWithin? fuel record).map Record.sort
    | _ => word? [("Bool", .bool), ("Int", .int), ("Real", .real), ("String", .string)] j

def Record.ofJsonWithin? : Nat → Json → Option Record
  | 0, _ => none
  | fuel + 1, j => do
    let fields ← fields? ["name", "fields"] j
    return { name := ← fields.get "name" string?
             fields := ← fields.get "fields" (list? (pair? string? (SmtSort.ofJsonWithin? fuel))) }

end

def SmtSort.ofJson? : Json → Option SmtSort := nested SmtSort.ofJsonWithin?

def Record.ofJson? : Json → Option Record := nested Record.ofJsonWithin?

def BitOp.ofJson? : Json → Option BitOp :=
  word? [("Add", .add), ("Sub", .sub), ("Mul", .mul), ("UDiv", .udiv), ("SDiv", .sdiv),
    ("URem", .urem), ("SRem", .srem), ("And", .and), ("Or", .or), ("Xor", .xor), ("Shl", .shl),
    ("LShr", .lshr), ("AShr", .ashr)]

def BitComparison.ofJson? : Json → Option BitComparison :=
  word? [("Ult", .ult), ("Ule", .ule), ("Ugt", .ugt), ("Uge", .uge), ("Slt", .slt),
    ("Sle", .sle), ("Sgt", .sgt), ("Sge", .sge)]

def ArithOp.ofJson? : Json → Option ArithOp :=
  word? [("Add", .add), ("Sub", .sub), ("Mul", .mul), ("Div", .div)]

def ArithComparison.ofJson? : Json → Option ArithComparison :=
  word? [("Lt", .lt), ("Le", .le), ("Gt", .gt), ("Ge", .ge)]

/-- A literal, from the name of its kind and its content. -/
def Literal.ofChoice? : String → Json → Option Literal
  | "Bool", c => (bool? c).map .bool
  | "BitVec", .obj members => do
    return .bits (← nat? (← members.lookup "value")) (← nat? (← members.lookup "bits"))
  | "Int", c => (int64? c).map .int
  | "Real", c => (double? c).map .real
  | "Str", c => (string? c).map .str
  | _, _ => none

namespace Formula

def ofJsonWithin? : Nat → Json → Option Formula
  | 0, _ => none
  | fuel + 1, j => do
    let formula? := ofJsonWithin? fuel
    let unary (f : UnaryFunction) (a : Json) : Option Formula := return .unary f (← formula? a)
    let binary (f : BinaryFunction) (a b : Json) : Option Formula :=
      return .binary f (← formula? a) (← formula? b)
    let (tag, content) ← choice? j
    match tag, ← content with
    | "Var", .arr [name, s] => return .var (← string? name) (← SmtSort.ofJson? s)
    | "Not", a => unary .not a
    | "And", es => return .and (← list? formula? es)
    | "Or", es => return .or (← list? formula? es)
    | "Eq", .arr [a, b] => binary .eq a b
    | "Ite", .arr [c, a, b] => return .ite (← formula? c) (← formula? a) (← formula? b)
    | "Bv", .arr [op, a, b] => binary (.bits (← BitOp.ofJson? op)) a b
    | "BvCmp", .arr [c, a, b] => binary (.compareBits (← BitComparison.ofJson? c)) a b
    | "Arith", .arr [op, a, b] => binary (.arith (← ArithOp.ofJson? op)) a b
    | "ArithCmp", .arr [c, a, b] => binary (.compareArith (← ArithComparison.ofJson? c)) a b
    | "Neg", a => unary .neg a
    | "Concat", .arr [a, b] => binary .concat a b
    | "Extract", .obj members =>
      let high ← nat? (← members.lookup "high")
      unary (.extract high (← nat? (← members.lookup "low"))) (← members.lookup "expr")
    | "ZeroExtend", .arr [n, a] => unary (.zeroExtend (← nat? n)) a
    | "SignExtend", .arr [n, a] => unary (.signExtend (← nat? n)) a
    | "Bv2Nat", a => unary .bitsToInt a
    | "Nat2Bv", .arr [n, a] => unary (.intToBits (← nat? n)) a
    | "ToReal", a => unary .toReal a
    | "ToInt", a => unary .toInt a
    | "Construct", .arr [r, es] =>
      return .nary (.make (← Record.ofJson? r)) (← list? formula? es)
    | "Access", .arr [r, i, a] => unary (.get (← Record.ofJson? r) (← nat? i)) a
    | tag, content => (Literal.ofChoice? tag content).map .lit

def ofJson? : Json → Option Formula := nested ofJsonWithin?

end Formula

end PlayerPaths
