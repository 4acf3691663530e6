import PlayerPaths.Formula.Sort
import PlayerPaths.Number.Double
import PlayerPaths.Number.Word

/-!
# Formulas

Terms of the solver, as plain data: a formula may be ill sorted, and `Formula.sort` says which
sort it has if its parts are as they should be. Variables are told apart by their name, which says
where the value comes from.
-/

namespace PlayerPaths

inductive BitOp where
  | add | sub | mul | udiv | sdiv | urem | srem | and | or | xor | shl | lshr | ashr
  deriving DecidableEq, Repr

inductive BitComparison where
  | ult | ule | ugt | uge | slt | sle | sgt | sge
  deriving DecidableEq, Repr

inductive ArithOp where
  | add | sub | mul | div
  deriving DecidableEq, Repr

inductive ArithComparison where
  | lt | le | gt | ge
  deriving DecidableEq, Repr

/-- Constants. A bit vector is a 64-bit word with a width. -/
inductive Literal where
  | bool (b : Bool)
  | bits (value width : Nat)
  | int (i : Int)
  | real (x : Float)
  | str (s : String)
  deriving DecidableEq

inductive UnaryFunction where
  | not
  | neg
  /-- The bits from `low` to `high`, both included. -/
  | extract (high low : Nat)
  | zeroExtend (extra : Nat)
  | signExtend (extra : Nat)
  | bitsToInt
  | intToBits (width : Nat)
  | toReal
  | toInt
  /-- The field of a record at a position. -/
  | get (record : Record) (index : Nat)
  deriving DecidableEq

inductive BinaryFunction where
  | eq
  | bits (op : BitOp)
  | compareBits (comparison : BitComparison)
  | arith (op : ArithOp)
  | compareArith (comparison : ArithComparison)
  | concat
  deriving DecidableEq

inductive NaryFunction where
  | and
  | or
  /-- The record with the given fields. -/
  | make (record : Record)
  deriving DecidableEq

inductive Formula where
  | var (name : String) (sort : SmtSort)
  | lit (value : Literal)
  | unary (f : UnaryFunction) (operand : Formula)
  | binary (f : BinaryFunction) (lhs rhs : Formula)
  | ite (condition yes no : Formula)
  | nary (f : NaryFunction) (operands : List Formula)

namespace Formula

@[match_pattern] protected abbrev bool (b : Bool) : Formula := .lit (.bool b)

@[match_pattern] protected abbrev int (i : Int) : Formula := .lit (.int i)

@[match_pattern] protected abbrev str (s : String) : Formula := .lit (.str s)

@[match_pattern] protected abbrev not (a : Formula) : Formula := .unary .not a

@[match_pattern] protected abbrev and (es : List Formula) : Formula := .nary .and es

@[match_pattern] protected abbrev or (es : List Formula) : Formula := .nary .or es

@[match_pattern] protected abbrev eq (a b : Formula) : Formula := .binary .eq a b

/-- A bit vector: the low bits of a word. -/
def bits (value width : Nat) : Formula := .lit (.bits (value % pow2 (min width 64)) width)

/-- A real number. The two zeros are one number. -/
def real (x : Float) : Formula := .lit (.real (Double.normal x))

mutual

def same : Formula → Formula → Bool
  | .var m s, .var n t => m == n && s == t
  | .lit a, .lit b => a == b
  | .unary f a, .unary g b => f == g && a.same b
  | .binary f a b, .binary g c d => f == g && a.same c && b.same d
  | .ite a b c, .ite d e f => a.same d && b.same e && c.same f
  | .nary f as, .nary g bs => f == g && sameAll as bs
  | _, _ => false

def sameAll : List Formula → List Formula → Bool
  | [], [] => true
  | a :: as, b :: bs => a.same b && sameAll as bs
  | _, _ => false

end

mutual

theorem same_iff : ∀ a b : Formula, a.same b = true ↔ a = b
  | .var m s, b => by cases b <;> simp [same]
  | .lit v, b => by cases b <;> simp [same]
  | .unary f a, b => by
    cases b with
    | unary g b => simp [same, same_iff a b]
    | _ => simp [same]
  | .binary f a b, c => by
    cases c with
    | binary g c d => simp [same, same_iff a c, same_iff b d, and_assoc]
    | _ => simp [same]
  | .ite a b c, d => by
    cases d with
    | ite d e f => simp [same, same_iff a d, same_iff b e, same_iff c f, and_assoc]
    | _ => simp [same]
  | .nary f as, b => by
    cases b with
    | nary g bs => simp [same, sameAll_iff as bs]
    | _ => simp [same]

theorem sameAll_iff : ∀ as bs : List Formula, sameAll as bs = true ↔ as = bs
  | [], bs => by cases bs <;> simp [sameAll]
  | a :: as, [] => by simp [sameAll]
  | a :: as, b :: bs => by simp [sameAll, same_iff a b, sameAll_iff as bs]

end

instance : DecidableEq Formula := fun a b => decidable_of_iff _ (same_iff a b)

instance : Inhabited Formula := ⟨.bool false⟩

def children : Formula → List Formula
  | .var .. | .lit _ => []
  | .unary _ a => [a]
  | .binary _ a b => [a, b]
  | .ite a b c => [a, b, c]
  | .nary _ es => es

mutual

/-- A formula and all of its parts, each before its own parts. -/
def parts : Formula → List Formula
  | e@(.var ..) | e@(.lit _) => [e]
  | e@(.unary _ a) => e :: a.parts
  | e@(.binary _ a b) => e :: (a.parts ++ b.parts)
  | e@(.ite a b c) => e :: (a.parts ++ b.parts ++ c.parts)
  | e@(.nary _ es) => e :: partsAll es

def partsAll : List Formula → List Formula
  | [] => []
  | e :: es => e.parts ++ partsAll es

end

def any (p : Formula → Bool) (e : Formula) : Bool := e.parts.any p

mutual

/-- A value: a literal, or a record of values. -/
def isConstant : Formula → Bool
  | .lit _ => true
  | .nary (.make _) es => areConstant es
  | _ => false

def areConstant : List Formula → Bool
  | [] => true
  | e :: es => e.isConstant && areConstant es

end

/-- The truth value that a formula spells out. -/
def truth? : Formula → Option Bool
  | .bool b => some b
  | _ => none

/-- A numeric constant as a double. -/
def number? : Formula → Option Float
  | .int i => some (Double.ofInt i)
  | .lit (.real x) => some x
  | .lit (.bits value _) => some (Double.ofInt value)
  | _ => none

def name? : Formula → Option String
  | .var name _ => some name
  | _ => none

end Formula

def Literal.sort : Literal → SmtSort
  | .bool _ => .bool
  | .bits _ width => .bitVec width
  | .int _ => .int
  | .real _ => .real
  | .str _ => .string

namespace Formula

/-- The sort of a formula whose parts are well sorted. A width outside the range of sizes is a
fault, and so is an empty range of bits. -/
def sort : Formula → Result SmtSort
  | .var _ s => return s
  | .lit v => return v.sort
  | .unary f a =>
    match f with
    | .not => return .bool
    | .neg => a.sort
    | .extract high low =>
      if high < low then throw (.fault .overflow)
      else do return .bitVec (← Word.size (high - low + 1))
    | .zeroExtend extra | .signExtend extra => do
      return .bitVec (← Word.add (← a.sort).width extra)
    | .bitsToInt | .toInt => return .int
    | .intToBits width => return .bitVec width
    | .toReal => return .real
    | .get r i => return (r.fieldSort? i).getD .bool
  | .binary f a b =>
    match f with
    | .eq | .compareBits _ | .compareArith _ => return .bool
    | .bits _ | .arith _ => a.sort
    | .concat => do return .bitVec (← Word.add (← a.sort).width (← b.sort).width)
  | .ite _ a _ => a.sort
  | .nary f _ =>
    match f with
    | .and | .or => return .bool
    | .make r => return r.sort

end Formula

mutual

/-- The default value of a sort. -/
def SmtSort.zero : SmtSort → Formula
  | .bool => .bool false
  | .bitVec width => .bits 0 width
  | .int => .int 0
  | .real => .real 0.0
  | .string => .str ""
  | .record name fields => .nary (.make ⟨name, fields⟩) (SmtSort.zeros fields)

def SmtSort.zeros : List (String × SmtSort) → List Formula
  | [] => []
  | (_, s) :: fields => s.zero :: SmtSort.zeros fields

end

def SmtSort.numeral (s : SmtSort) (i : Int) : Result Formula :=
  match s with
  | .bitVec width => return .bits (Word.ofInt i) width
  | .int => return .int i
  | .real => return .real (Double.ofInt i)
  | s => throw (.sort ("no numerals of sort " ++ s.text))

end PlayerPaths
