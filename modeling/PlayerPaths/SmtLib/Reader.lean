import PlayerPaths.Formula.Build
import PlayerPaths.Formula.Simplify
import PlayerPaths.SmtLib.SExpr

/-!
# Reading SMT-LIB

Scripts of declarations and assertions, and the models that a solver answers. Terms are built with
the checked constructors, so that everything that is read is well sorted.
-/

namespace PlayerPaths.SmtLib

/-- The names that a term may use. -/
structure Vocabulary where
  records : Std.TreeMap String Record := ∅
  variableSorts : Std.TreeMap String SmtSort := ∅

namespace Vocabulary

def addRecord (v : Vocabulary) (r : Record) : Vocabulary :=
  { v with records := v.records.insert r.name r }

def addVariable (v : Vocabulary) (name : String) (s : SmtSort) : Vocabulary :=
  { v with variableSorts := v.variableSorts.insert name s }

def constructor? (v : Vocabulary) (name : String) : Option Record :=
  v.records.values.find? fun r => r.constructorName == name

def accessor? (v : Vocabulary) (name : String) : Option String :=
  v.records.values.findSome? fun r =>
    (r.fields.find? fun f => r.accessorName f.1 == name).map Prod.fst

end Vocabulary

/-- A numeral in the range of sizes. -/
def numeral (l : String) : Result Nat :=
  match Text.readNumeral? Word.limit l with
  | some n => return n
  | none => throw (.parse ("expected a numeral, found " ++ l))

def readSort (v : Vocabulary) (e : SExpr) : Result SmtSort :=
  match e with
  | .symbol "Bool" => return .bool
  | .symbol "Int" => return .int
  | .symbol "Real" => return .real
  | .symbol "String" => return .string
  | .symbol name =>
    match v.records[name]? with
    | some r => return r.sort
    | none => throw (.parse ("unknown sort " ++ name))
  | .list [.symbol "_", .symbol "BitVec", .literal width] => do return .bitVec (← numeral width)
  | e => throw (.parse ("unknown sort " ++ e.text))

def digit? (base : Nat) (c : Char) : Option Nat :=
  let n := if c.isDigit then c.toNat - '0'.toNat
    else if 'a' ≤ c ∧ c ≤ 'f' then c.toNat - 'a'.toNat + 10
    else if 'A' ≤ c ∧ c ≤ 'F' then c.toNat - 'A'.toNat + 10
    else base
  if n < base then some n else none

/-- The digits behind an optional plus sign as a word. -/
def digits? (base : Nat) (cs : List Char) : Option Nat := do
  let cs := match cs with
    | '+' :: cs => cs
    | cs => cs
  if cs.isEmpty then none
  let n := (← cs.mapM (digit? base)).foldl (fun n d => base * n + d) 0
  if n < Word.limit then some n else none

def readLiteral (l : String) : Result Formula :=
  match l.toList with
  | '#' :: 'x' :: cs =>
    match digits? 16 cs with
    | some n => return .bits n (cs.length * 4)
    | none => throw (.parse ("bad hexadecimal " ++ l))
  | '#' :: 'b' :: cs =>
    match digits? 2 cs with
    | some n => return .bits n cs.length
    | none => throw (.parse ("bad binary " ++ l))
  | cs =>
    if cs.contains '.' then
      match Decimal.read? l with
      | some x => return .real x
      | none => throw (.parse ("bad decimal " ++ l))
    else
      match Text.readNumeral? (pow2 63) l with
      | some n => return .int n
      | none => throw (.parse ("bad numeral " ++ l))

def readSymbol (v : Vocabulary) (name : String) : Result Formula :=
  if name = "true" then return .bool true
  else if name = "false" then return .bool false
  else
    match v.variableSorts[name]? with
    | some s => return .var name s
    | none =>
      match v.constructor? name with
      | some r => Build.make r []
      | none => throw (.parse ("unknown symbol " ++ name))

/-- The bit vector `bvN` of a width. -/
def readBits : List SExpr → Result Formula
  | [.symbol value, .literal width] => do
    match value.toList with
    | 'b' :: 'v' :: digits =>
      match Text.readNumeral? Word.limit (String.ofList digits) with
      | some n => return .bits n (← numeral width)
      | none => throw (.parse ("bad bitvector " ++ value))
    | _ => throw (.parse "bad indexed constant")
  | _ => throw (.parse "bad indexed constant")

def bitOps : List (String × BitOp) :=
  [.add, .sub, .mul, .udiv, .sdiv, .urem, .srem, .and, .or, .xor, .shl, .lshr, .ashr].map
    fun (op : BitOp) => (op.smt, op)

def bitComparisons : List (String × BitComparison) :=
  [.ult, .ule, .ugt, .uge, .slt, .sle, .sgt, .sge].map fun (c : BitComparison) => (c.smt, c)

def arithOps : List (String × ArithOp) :=
  [("+", .add), ("-", .sub), ("*", .mul), ("/", .div), ("div", .div)]

def arithComparisons : List (String × ArithComparison) :=
  [.lt, .le, .gt, .ge].map fun (c : ArithComparison) => (c.smt, c)

def oneArgument (function : String) : List Formula → Result Formula
  | [a] => return a
  | _ => throw (.parse (function ++ " takes one argument"))

def twoArguments (function : String) : List Formula → Result (Formula × Formula)
  | [a, b] => return (a, b)
  | _ => throw (.parse (function ++ " takes two arguments"))

/-- The contrary of a number. A literal with a minus sign is a literal. -/
def negated : Formula → Result Formula
  | .int i => return .int (-i)
  | .lit (.real x) => return .real (-x)
  | e => Build.neg e

def apply (v : Vocabulary) (function : String) (arguments : List Formula) : Result Formula := do
  if let some op := bitOps.lookup function then
    let (a, b) ← twoArguments function arguments
    return ← Build.bits op a b
  if let some c := bitComparisons.lookup function then
    let (a, b) ← twoArguments function arguments
    return ← Build.compareBits c a b
  if let some c := arithComparisons.lookup function then
    let (a, b) ← twoArguments function arguments
    return ← Build.compareArith c a b
  match function, arguments with
  | "not", es => Build.not (← oneArgument function es)
  | "and", es => Build.and es
  | "or", es => Build.or es
  | "=", es =>
    let (a, b) ← twoArguments function es
    Build.eq a b
  | "ite", [c, a, b] => Build.ite c a b
  | "ite", _ => throw (.parse "ite takes three arguments")
  | "-", [a] => negated a
  | "concat", es =>
    let (a, b) ← twoArguments function es
    Build.concat a b
  | "bv2nat", es => Build.bitsToInt (← oneArgument function es)
  | "to_real", es => Build.toReal (← oneArgument function es)
  | "to_int", es => Build.toInt (← oneArgument function es)
  | function, es =>
    match arithOps.lookup function, es with
    | some op, a :: b :: es => (b :: es).foldlM (Build.arith op) a
    | some _, _ => throw (.parse (function ++ " takes two arguments"))
    | none, es =>
      match v.constructor? function, v.accessor? function with
      | some r, _ => Build.make r es
      | none, some field => Build.get (← oneArgument function es) field
      | none, none => throw (.parse ("unknown function " ++ function))

def applyIndexed (function : List SExpr) (arguments : List Formula) : Result Formula := do
  let argument ← match arguments with
    | [a] => pure a
    | _ => throw (.parse "indexed functions take one argument")
  match function with
  | [.symbol "_", .symbol "extract", .literal high, .literal low] =>
    Build.extract (← numeral high) (← numeral low) argument
  | [.symbol "_", .symbol name, .literal n] =>
    let n ← numeral n
    match name with
    | "zero_extend" => Build.zeroExtend n argument
    | "sign_extend" => Build.signExtend n argument
    | "int2bv" => Build.intToBits n argument
    | name => throw (.parse ("unknown indexed function " ++ name))
  | function => throw (.parse ("bad indexed function " ++ Text.bracketed (SExpr.texts function)))

mutual

/-- The term that an expression denotes. -/
def readTerm (v : Vocabulary) : SExpr → Result Formula
  | .str s => return .str s
  | .literal l => readLiteral l
  | .symbol name => readSymbol v name
  | .list items => readApplication v items

def readApplication (v : Vocabulary) : List SExpr → Result Formula
  | [] => throw (.parse "empty application")
  | .list function :: rest => do applyIndexed function (← readTerms v rest)
  | .symbol "_" :: rest => readBits rest
  | .symbol function :: rest => do apply v function (← readTerms v rest)
  | head :: _ => throw (.parse ("bad function " ++ head.text))

def readTerms (v : Vocabulary) : List SExpr → Result (List Formula)
  | [] => return []
  | e :: es => do
    let e ← readTerm v e
    return e :: (← readTerms v es)

end

/-! ## Scripts -/

/-- What a script declares and asserts. -/
structure Script where
  /-- The records in the order of their declaration. -/
  records : List Record := []
  vocabulary : Vocabulary := {}
  assertions : List Formula := []

namespace Script

def declarations (s : Script) : Std.TreeMap String SmtSort := s.vocabulary.variableSorts

end Script

def readField (v : Vocabulary) (name : String) : SExpr → Result (String × SmtSort)
  | .list [.symbol accessor, s] => do
    let start := (name ++ ".").toList
    let field := if start.isPrefixOf accessor.toList
      then String.ofList (accessor.toList.drop start.length) else accessor
    return (field, ← readSort v s)
  | _ => throw (.parse ("bad selector in " ++ name))

/-- A record, from its name and its constructors, of which the first counts. -/
def readRecord (v : Vocabulary) (name body : SExpr) : Result Record := do
  let name ← match (name.list?.bind List.head?).bind SExpr.symbol? with
    | some name => pure name
    | none => throw (.parse "bad datatype name")
  let constructor ← match (body.list?.bind List.head?).bind SExpr.list? with
    | some constructor => pure constructor
    | none => throw (.parse (name ++ " needs one constructor"))
  return { name, fields := ← (constructor.drop 1).mapM (readField v name) }

/-- Declare records. A record may use those before it. -/
def Script.declareRecords (s : Script) (command : List SExpr) : Result Script := do
  let names ← match command[1]?.bind SExpr.list? with
    | some names => pure names
    | none => throw (.parse "declare-datatypes without sorts")
  let bodies ← match command[2]?.bind SExpr.list? with
    | some bodies => pure bodies
    | none => throw (.parse "declare-datatypes without constructors")
  (names.zip bodies).foldlM (fun s (name, body) => do
    let r ← readRecord s.vocabulary name body
    return { s with records := s.records ++ [r], vocabulary := s.vocabulary.addRecord r }) s

/-- Declare a variable, whose sort stands at a position. -/
def Script.declareVariable (s : Script) (name : String) (sort : Option SExpr) : Result Script := do
  match sort with
  | some e =>
    let t ← readSort s.vocabulary e
    return { s with vocabulary := s.vocabulary.addVariable name t }
  | none => throw (.parse (name ++ " has no sort"))

def declaredName (command : List SExpr) : Result String :=
  match command[1]?.bind SExpr.symbol? with
  | some name => return name
  | none => throw (.parse "declaration without a name")

/-- Run a command. Commands that neither declare nor assert have no effect. -/
def Script.run (s : Script) (command : List SExpr) : Result Script := do
  match command.head?.bind SExpr.symbol? with
  | some "declare-datatypes" => s.declareRecords command
  | some "declare-fun" =>
    let name ← declaredName command
    match command[2]?.bind SExpr.list? with
    | some [] => s.declareVariable name command[3]?
    | _ => throw (.unsupported ("uninterpreted function " ++ name))
  | some "declare-const" => s.declareVariable (← declaredName command) command[2]?
  | some "assert" =>
    match command[1]? with
    | some e => return { s with assertions := s.assertions ++ [← readTerm s.vocabulary e] }
    | none => throw (.parse "assert without a term")
  | _ => return s

def readScript (text : String) : Result Script := do
  (← expressions text).foldlM (fun s e => do
    match e with
    | .list command => s.run command
    | e => throw (.parse ("expected a command, found " ++ e.text))) {}

/-- The formula that a text spells, of any sort, given declarations. -/
def readFormulaText (declarations text : String) : Result Formula := do
  match (← readScript (declarations ++ "\n(assert " ++ text ++ "\n)")).assertions with
  | e :: _ => return e
  | [] => throw (.custom "no assertion")

/-- The sort that a text spells, given declarations. -/
def readSortText (declarations text : String) : Result SmtSort := do
  let s ← readScript (declarations ++ "\n(declare-const v " ++ text ++ ")")
  match s.declarations["v"]? with
  | some sort => return sort
  | none => throw (.custom "no sort")

/-! ## Models -/

def definitions : SExpr → List SExpr
  | .list (.symbol "model" :: items) => items
  | .list items => items
  | _ => []

/-- Add the value of a defined variable. Functions with parameters are left out. -/
def addDefinition (v : Vocabulary) (m : Model) : SExpr → Result Model
  | .list [.symbol "define-fun", .symbol name, .list [], s, value] => do
    let s ← readSort v s
    let value ← (← readTerm v value).simplify
    if !value.isConstant || (← value.sort) ≠ s then
      throw (.parse ("bad model value for " ++ name))
    return m.insert name value
  | _ => return m

/-- Read the model that a solver answers to a query about records. -/
def readModel (text : String) (records : List Record) : Result Model := do
  let v := records.foldl Vocabulary.addRecord {}
  ((← expressions text).flatMap definitions).foldlM (addDefinition v) Model.empty

end PlayerPaths.SmtLib
