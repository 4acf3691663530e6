import PlayerPaths.Json.Decoder
import PlayerPaths.Number.Decimal

/-!
# Input conditions

What the player has to do for a path to run.
-/

namespace PlayerPaths

open Json

inductive ScreenAxis where
  | x | y
  deriving DecidableEq, Repr

inductive Key where
  /-- By its name, such as `space`. -/
  | named (name : String)
  | code (n : Int)
  /-- A mouse button, from 0 to 6. -/
  | mouse (button : Nat)
  deriving DecidableEq, Repr

inductive InputCondition where
  /-- The axis is held at -1, 0 or 1. -/
  | axis (name : String) (value : Float)
  | button (name : String) (down : Bool)
  | key (key : Key) (down : Bool)
  /-- The mouse position along an axis, as a fraction of the screen. -/
  | mousePosition (axis : ScreenAxis) (value : Float)

def ScreenAxis.name : ScreenAxis → String
  | x => "x"
  | y => "y"

def Key.text : Key → String
  | named name => "KeyCode." ++ name
  | code n => "(KeyCode) " ++ toString n
  | mouse button => "KeyCode.Mouse" ++ toString button

/-- An input condition as an equation over polling methods. -/
def InputCondition.text : InputCondition → String
  | axis name value => "Input.GetAxis(\"" ++ name ++ "\") == " ++ Decimal.text value
  | button name down => "Input.GetButton(\"" ++ name ++ "\") == " ++ toString down
  | key k down => "Input.GetKey(" ++ k.text ++ ") == " ++ toString down
  | mousePosition a value => "Input.mousePosition." ++ a.name ++ " == " ++ Decimal.text value

/-! ## JSON -/

def ScreenAxis.ofJson? : Json → Option ScreenAxis := word? [("X", .x), ("Y", .y)]

def Key.ofJson? (j : Json) : Option Key :=
  match choice? j with
  | some ("Named", some name) => (string? name).map .named
  | some ("Code", some n) => (int64? n).map .code
  | some ("Mouse", some button) => (natBits? 8 button).map .mouse
  | _ => none

def Key.toJson : Key → Json
  | named name => .obj [("Named", .str name)]
  | code n => .obj [("Code", .int n)]
  | mouse button => .obj [("Mouse", .int button)]

def InputCondition.ofJson? (j : Json) : Option InputCondition := do
  let (tag, content) ← choice? j
  let record (first second : String) : Option Fields := do
    choiceFields? .named [first, second] (← content)
  match tag with
  | "Axis" =>
    let fields ← record "name" "value"
    return .axis (← fields.get "name" string?) (← fields.get "value" double?)
  | "Button" =>
    let fields ← record "name" "down"
    return .button (← fields.get "name" string?) (← fields.get "down" bool?)
  | "Key" =>
    let fields ← record "key" "down"
    return .key (← fields.get "key" Key.ofJson?) (← fields.get "down" bool?)
  | "MousePosition" =>
    let fields ← record "axis" "value"
    return .mousePosition (← fields.get "axis" ScreenAxis.ofJson?) (← fields.get "value" double?)
  | _ => none

end PlayerPaths
