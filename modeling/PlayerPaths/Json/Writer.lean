import PlayerPaths.Json.Basic

/-!
# Writing JSON

`Json.compact` writes a value on one line; `Json.pretty` writes every member and element on a line
of its own, indented by two spaces. Members keep their order.
-/

namespace PlayerPaths.Json

/-- One character of a JSON string: quotes, backslashes and controls are escaped, everything else
stands as it is. -/
def escapedChar (c : Char) : String :=
  if c == '"' then "\\\""
  else if c == '\\' then "\\\\"
  else if c == '\n' then "\\n"
  else if c == '\r' then "\\r"
  else if c == '\t' then "\\t"
  else if c.toNat == 0x08 then "\\b"
  else if c.toNat == 0x0c then "\\f"
  else if c.toNat < 0x20 then "\\u" ++ Text.paddedHex 4 c.toNat
  else c.toString

def escaped (s : String) : String :=
  "\"" ++ s.foldl (fun text c => text ++ escapedChar c) "" ++ "\""

/-- The fewest digits that read back, with a point or an exponent so that the number is seen to be
a double. Between one hundred-thousandth and ten quadrillion the notation is positional. -/
def numberText (s : Decimal.Scaled) : String :=
  if -5 < s.wholeDigits ∧ s.wholeDigits ≤ 16 then
    let text := s.positional
    if text.contains '.' then text else text ++ ".0"
  else s.scientific

/-- A JSON number: of two equally near texts it is the one that ends in an even digit. There is none
for infinities and NaN. -/
def double (x : Float) : String :=
  match Double.parts? x with
  | some p =>
    let digits := if p.significand = 0 then ⟨0, 0⟩ else Decimal.shortest .even p
    Decimal.signed p.negative (numberText digits)
  | none => "null"

mutual

/-- A value on one line. -/
def compact : Json → String
  | .null => "null"
  | .bool b => if b then "true" else "false"
  | .int i => toString i
  | .real x => double x
  | .str s => escaped s
  | .arr items => "[" ++ ",".intercalate (compactItems items) ++ "]"
  | .obj members => "\x7b" ++ ",".intercalate (compactMembers members) ++ "\x7d"

def compactItems : List Json → List String
  | [] => []
  | item :: items => item.compact :: compactItems items

def compactMembers : List (String × Json) → List String
  | [] => []
  | (name, value) :: members => (escaped name ++ ":" ++ value.compact) :: compactMembers members

end

/-- A line break followed by the indentation of a nesting level. -/
def newline (level : Nat) : String := "\n" ++ String.ofList (List.replicate (2 * level) ' ')

/-- The parts of a list or an object, each on a line of its own. -/
def block (level : Nat) (opening closing : String) (parts : List String) : String :=
  if parts.isEmpty then opening ++ closing
  else opening ++ newline (level + 1) ++ ("," ++ newline (level + 1)).intercalate parts
    ++ newline level ++ closing

mutual

def prettyAt (level : Nat) : Json → String
  | .arr items => block level "[" "]" (prettyItems (level + 1) items)
  | .obj members => block level "\x7b" "\x7d" (prettyMembers (level + 1) members)
  | .null => "null"
  | .bool b => if b then "true" else "false"
  | .int i => toString i
  | .real x => double x
  | .str s => escaped s

def prettyItems (level : Nat) : List Json → List String
  | [] => []
  | item :: items => prettyAt level item :: prettyItems level items

def prettyMembers (level : Nat) : List (String × Json) → List String
  | [] => []
  | (name, value) :: members =>
    (escaped name ++ ": " ++ prettyAt level value) :: prettyMembers level members

end

/-- A value over several lines. -/
def pretty (value : Json) : String := prettyAt 0 value

end PlayerPaths.Json
