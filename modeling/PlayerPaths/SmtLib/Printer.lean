import PlayerPaths.Formula.Order
import PlayerPaths.Number.Decimal

/-!
# SMT-LIB text

Formulas as SMT-LIB terms, and scripts that declare what their assertions mention. Every function
of a formula has a name of its own in SMT-LIB, except that the quotient is `div` for integers and
`/` for reals.
-/

namespace PlayerPaths

namespace SmtLib

/-- The characters of symbols that need no quotes. -/
def isSimpleChar (c : Char) : Bool := c.isAlphanum || "~!@$%^&*_-+=<>.?/".toList.contains c

def isSimple (name : String) : Bool :=
  match name.toList with
  | [] => false
  | c :: cs => !c.isDigit && (c :: cs).all isSimpleChar

/-- A symbol, between bars when it is not simple. -/
def symbol (name : String) : String := if isSimple name then name else "|" ++ name ++ "|"

/-- A real number; infinities and NaN have no spelling of their own. -/
def realText (x : Float) : String :=
  if !Double.isFinite x then "(/ 1.0 0.0)"
  else
    let magnitude := Decimal.exact x.abs
    if x < 0.0 then "(- " ++ magnitude ++ ")" else magnitude

def intText (i : Int) : String :=
  if i < 0 then "(- " ++ toString i.natAbs ++ ")" else toString i

/-- A character of a string; a quote is written twice. -/
def stringChar (c : Char) : List Char := if c == '"' then [c, c] else [c]

def stringText (s : String) : String :=
  "\"" ++ String.ofList (s.toList.flatMap stringChar) ++ "\""

def application (function : String) (arguments : List String) : String :=
  "(" ++ " ".intercalate (function :: arguments) ++ ")"

end SmtLib

open SmtLib

def SmtSort.smt : SmtSort → String
  | .record name _ => symbol name
  | s => s.text

def BitOp.smt : BitOp → String
  | add => "bvadd"
  | sub => "bvsub"
  | mul => "bvmul"
  | udiv => "bvudiv"
  | sdiv => "bvsdiv"
  | urem => "bvurem"
  | srem => "bvsrem"
  | and => "bvand"
  | or => "bvor"
  | xor => "bvxor"
  | shl => "bvshl"
  | lshr => "bvlshr"
  | ashr => "bvashr"

def BitComparison.smt : BitComparison → String
  | ult => "bvult"
  | ule => "bvule"
  | ugt => "bvugt"
  | uge => "bvuge"
  | slt => "bvslt"
  | sle => "bvsle"
  | sgt => "bvsgt"
  | sge => "bvsge"

def ArithComparison.smt : ArithComparison → String
  | lt => "<"
  | le => "<="
  | gt => ">"
  | ge => ">="

def ArithOp.smt (op : ArithOp) (s : SmtSort) : String :=
  match op with
  | add => "+"
  | sub => "-"
  | mul => "*"
  | div => if s = .int then "div" else "/"

def Literal.text : Literal → String
  | .bool b => if b then "true" else "false"
  | .bits value width => s!"(_ bv{value} {width})"
  | .int i => intText i
  | .real x => realText x
  | .str s => stringText s

def UnaryFunction.smt : UnaryFunction → String
  | .not => "not"
  | .neg => "-"
  | .extract high low => s!"(_ extract {high} {low})"
  | .zeroExtend extra => s!"(_ zero_extend {extra})"
  | .signExtend extra => s!"(_ sign_extend {extra})"
  | .bitsToInt => "bv2nat"
  | .intToBits width => s!"(_ int2bv {width})"
  | .toReal => "to_real"
  | .toInt => "to_int"
  | .get r i => symbol ((r.accessorName? i).getD "")

/-- The name of a function of two arguments, of which the left one is given. -/
def BinaryFunction.smt (f : BinaryFunction) (lhs : Formula) : Result String :=
  match f with
  | .eq => return "="
  | .bits op => return op.smt
  | .compareBits c => return c.smt
  | .arith .div => do return ArithOp.div.smt (← lhs.sort)
  | .arith op => return op.smt .int
  | .compareArith c => return c.smt
  | .concat => return "concat"

def NaryFunction.smt (f : NaryFunction) (arguments : List String) : String :=
  match f, arguments with
  | .and, [] => "true"
  | .and, arguments => application "and" arguments
  | .or, [] => "false"
  | .or, arguments => application "or" arguments
  | .make r, [] => symbol r.constructorName
  | .make r, arguments => application (symbol r.constructorName) arguments

namespace Formula

mutual

/-- A formula as an SMT-LIB term. -/
def text : Formula → Result String
  | .var name _ => return symbol name
  | .lit v => return v.text
  | .unary f a => do return application f.smt [← a.text]
  | .binary f a b => do return application (← f.smt a) [← a.text, ← b.text]
  | .ite c a b => do return application "ite" [← c.text, ← a.text, ← b.text]
  | .nary f es => do return f.smt (← texts es)

def texts : List Formula → Result (List String)
  | [] => return []
  | e :: es => do return (← e.text) :: (← texts es)

end

end Formula

namespace SmtLib

mutual

/-- Add the records that a sort needs to a list, each behind those that it needs itself. -/
def addRecords (known : List Record) : SmtSort → List Record
  | .record name fields =>
    if ⟨name, fields⟩ ∈ known then known
    else addFieldRecords known fields ++ [⟨name, fields⟩]
  | _ => known

def addFieldRecords (known : List Record) : List (String × SmtSort) → List Record
  | [] => known
  | (_, s) :: fields => addFieldRecords (addRecords known s) fields

end

/-- The records that formulas mention, each behind those that it needs. -/
def records (es : List Formula) : Result (List Record) :=
  (Formula.partsAll es).foldlM (fun known e => do return addRecords known (← e.sort)) []

def declareRecord (r : Record) : String :=
  let fields := r.fields.map fun (field, s) =>
    "(" ++ symbol (r.accessorName field) ++ " " ++ s.smt ++ ")"
  let constructor := "(" ++ " ".intercalate (symbol r.constructorName :: fields) ++ ")"
  "(declare-datatypes ((" ++ symbol r.name ++ " 0)) ((" ++ constructor ++ ")))"

def declareVariable (name : String) (s : SmtSort) : String :=
  "(declare-fun " ++ symbol name ++ " () " ++ s.smt ++ ")"

/-- A script that declares everything that the assertions mention, and makes them. -/
def script (assertions : List Formula) : Result String := do
  let records := (← records assertions).map declareRecord
  let declarations := (Formula.variablesOf assertions).toList.map fun (name, s) =>
    declareVariable name s
  let asserts := (← Formula.texts assertions).map fun t => "(assert " ++ t ++ ")"
  return "\n".intercalate (records ++ declarations ++ asserts) ++ "\n"

end SmtLib

end PlayerPaths
