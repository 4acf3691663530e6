import PlayerPaths.Formula.Bits
import PlayerPaths.Formula.Build
import PlayerPaths.SmtLib.Printer
import PlayerPaths.Text.Quoted

/-!
# Live values

The values that are read from the running application. A value can be turned into a constant of
a sort (`Value.toFormula`), and a constant into a value (`Value.ofFormula`). References have
identities: null is zero, and an object is its number.
-/

namespace PlayerPaths

/-- A value of the running application. Fields are in the order of their names. -/
inductive Value where
  | null
  | bool (b : Bool)
  /-- A 64-bit integer of any integral type, enumerations included. -/
  | integer (i : Int)
  | float (x : Float)
  | str (s : String)
  /-- An object with its identity, which is never zero. -/
  | object (id : Nat) (typeName : String) (fields : List (String × Value))
  /-- A value type. -/
  | record (fields : List (String × Value))
  | array (elements : List Value)

namespace Value

instance : Inhabited Value := ⟨null⟩

mutual

/-- Equality of values. Floating point numbers compare as numbers: the two zeros are equal, and NaN
differs from itself. -/
def equals : Value → Value → Bool
  | .null, .null => true
  | .bool a, .bool b => a == b
  | .integer i, .integer j => i == j
  | .float x, .float y => x == y
  | .str s, .str t => s == t
  | .object i t fs, .object j u gs => i == j && t == u && equalFields fs gs
  | .record fs, .record gs => equalFields fs gs
  | .array xs, .array ys => equalAll xs ys
  | _, _ => false

def equalFields : List (String × Value) → List (String × Value) → Bool
  | [], [] => true
  | (m, v) :: fs, (n, w) :: gs => m == n && v.equals w && equalFields fs gs
  | _, _ => false

def equalAll : List Value → List Value → Bool
  | [], [] => true
  | v :: vs, w :: ws => v.equals w && equalAll vs ws
  | _, _ => false

end

mutual

def text : Value → String
  | .null => "null"
  | .bool b => if b then "true" else "false"
  | .integer i => toString i
  | .float x => Decimal.text x
  | .str s => Text.quoted s
  | .object id typeName _ => typeName ++ "#" ++ toString id
  | .record fields => "\x7b " ++ ", ".intercalate (fieldTexts fields) ++ " \x7d"
  | .array elements => "[" ++ toString elements.length ++ " elements]"

def fieldTexts : List (String × Value) → List String
  | [] => []
  | (name, value) :: fields => (name ++ " = " ++ value.text) :: fieldTexts fields

end

def field (v : Value) (name : String) : Result Value :=
  let find (fields : List (String × Value)) : Result Value :=
    match fields.lookup name with
    | some value => return value
    | none => throw (.resolution ("no field " ++ name))
  match v with
  | .object _ _ fields | .record fields => find fields
  | .null => throw (.resolution ("null dereference reading field " ++ name))
  | v => throw (.resolution (v.text ++ " has no field " ++ name))

def length : Value → Result Value
  | .array elements => return .integer elements.length
  | .null => throw (.resolution "null dereference reading length")
  | v => throw (.resolution (v.text ++ " is not an array"))

def asBool? : Value → Option Bool
  | .bool b => some b
  | .integer i => some (i != 0)
  | _ => none

/-- A value as an integer. Floating point numbers are rounded toward zero. -/
def asInt? : Value → Option Int
  | .bool b => some (if b then 1 else 0)
  | .integer i => some i
  | .float x => some (Double.toInt64 x)
  | _ => none

def asDouble? : Value → Option Float
  | .integer i => some (Double.ofInt i)
  | .float x => some x
  | _ => none

def asString? : Value → Option String
  | .str s => some s
  | _ => none

/-! ## Formulas -/

/-- What was asked of a value of another kind. -/
def orMismatch {α : Type} (v : Value) (s : SmtSort) : Option α → Result α
  | some a => return a
  | none => throw (.resolution (v.text ++ " is not a value of sort " ++ s.text))

def identity? : Value → Option Int
  | .null => some 0
  | .object id _ _ => some (Word.toInt id)
  | _ => none

mutual

/-- A value as a constant of a sort. -/
def toFormula (v : Value) : SmtSort → Result Formula
  | .bool => do return .bool (← v.orMismatch .bool v.asBool?)
  | .bitVec width => do
    return .bits (Word.ofInt (← v.orMismatch (.bitVec width) v.asInt?)) width
  | .int => do return .int (← v.orMismatch .int v.identity?)
  | .real => do return .real (← v.orMismatch .real v.asDouble?)
  | .string => do return .str (← v.orMismatch .string v.asString?)
  | .record name fields => do Build.make ⟨name, fields⟩ (← fieldFormulas v fields)

def fieldFormulas (v : Value) : List (String × SmtSort) → Result (List Formula)
  | [] => return []
  | (name, s) :: fields => do
    let first ← toFormula (← v.field name) s
    return first :: (← fieldFormulas v fields)

end

def ofLiteral : Literal → Value
  | .bool b => .bool b
  | .bits value width => .integer (Bits.signed value width)
  | .int i => if i = 0 then .null else .integer i
  | .real x => .float x
  | .str s => .str s

def setField (name : String) (value : Value) : List (String × Value) → List (String × Value)
  | [] => [(name, value)]
  | (n, v) :: fields =>
    match compare name n with
    | .lt => (name, value) :: (n, v) :: fields
    | .eq => (name, value) :: fields
    | .gt => (n, v) :: setField name value fields

mutual

def ofFormula : Formula → Result Value
  | .lit v => return ofLiteral v
  | .nary (.make r) es => do
    let fields ← ofFormulas (r.fields.map Prod.fst) es
    return .record (fields.foldl (fun fields (name, value) => setField name value fields) [])
  | e => do throw (.resolution ((← e.text) ++ " is not a constant"))

def ofFormulas : List String → List Formula → Result (List (String × Value))
  | name :: names, e :: es => do
    let first ← ofFormula e
    return (name, first) :: (← ofFormulas names es)
  | _, _ => return []

end

end Value

end PlayerPaths
