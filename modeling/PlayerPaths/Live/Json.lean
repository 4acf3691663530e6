import PlayerPaths.Live.CompiledPath
import PlayerPaths.Json.Decoder

/-!
# Live values as JSON

A live value is `null`, a truth value, or an object whose first member says what it is.
Floating point numbers are written as texts, because JSON has neither NaN nor infinities. They are
read from numbers, and NaN and the infinities from their names.
-/

namespace PlayerPaths

open Json

namespace Value

/-- The error of a description that names no kind of value. -/
def notAValue : Error := .custom "bad value"

mutual

def toJson : Value → Json
  | .null => .null
  | .bool b => .bool b
  | .integer i => .obj [("int", .int i)]
  | .float x => .obj [("float", .str (Decimal.text x))]
  | .str s => .obj [("str", .str s)]
  | .object id typeName fields =>
    .obj [("object", .arr [.int id, .str typeName, .obj (fieldsToJson fields)])]
  | .record fields => .obj [("struct", .obj (fieldsToJson fields))]
  | .array elements => .obj [("array", .arr (allToJson elements))]

def fieldsToJson : List (String × Value) → List (String × Json)
  | [] => []
  | (name, value) :: fields => (name, value.toJson) :: fieldsToJson fields

def allToJson : List Value → List Json
  | [] => []
  | value :: values => value.toJson :: allToJson values

end

mutual

/-- The value that JSON describes. The error tells a description of no kind of value apart from
one whose content has another shape than its kind. -/
def ofJson : Json → Result Value
  | .null => return .null
  | .bool b => return .bool b
  | .obj ((kind, content) :: _) =>
    match kind, content with
    | "int", j => do return .integer (← decode int64? j)
    | "float", j => do return .float (← decode extendedDouble? j)
    | "str", j => do return .str (← decode string? j)
    | "object", .arr (id :: typeName :: .obj members :: _) => do
      let id ← decode nat? id
      let typeName ← decode string? typeName
      return .object id typeName (← fieldsOfJson members)
    | "struct", .obj members => do return .record (← fieldsOfJson members)
    | "array", .arr items => do return .array (← allOfJson items)
    | "object", _ | "struct", _ | "array", _ => throw .malformed
    | _, _ => throw notAValue
  | _ => throw notAValue

def fieldsOfJson : List (String × Json) → Result (List (String × Value))
  | [] => return []
  | (name, j) :: members => do
    let value ← ofJson j
    return (name, value) :: (← fieldsOfJson members)

def allOfJson : List Json → Result (List Value)
  | [] => return []
  | j :: items => do
    let value ← ofJson j
    return value :: (← allOfJson items)

end

end Value

def Predicate.toJson : Predicate → Result Json
  | .const b => return .bool b
  | .not p => do return .arr [.str "not", ← p.toJson]
  | .and p q => do return .arr [.str "and", ← p.toJson, ← q.toJson]
  | .or p q => do return .arr [.str "or", ← p.toJson, ← q.toJson]
  | .atom t => do return .strings ["atom", ← t.formula.text]

/-- The kind of an input condition, what it is about, and the value that it asks for. -/
def InputCondition.parts : InputCondition → List Json
  | .axis name value => [.str "Axis", .str name, .str (Decimal.text value)]
  | .button name down => [.str "Button", .str name, .bool down]
  | .key k down => [.str "Key", k.toJson, .bool down]
  | .mousePosition a value =>
    [.str "MousePosition", .str a.name.capitalize, .str (Decimal.text value)]

def InputCondition.toJson (c : InputCondition) : Json := .arr [.arr c.parts, .str c.text]

end PlayerPaths
