import PlayerPaths.Json.Basic

/-!
# Decoding JSON

Combinators for reading typed values. A record is an object with the names of its fields, or a
list of the fields in their order; unknown names are ignored. A choice is a word, or an object
with one member whose name is the choice; whether the fields of a choice may be a list as well is
a matter of `Style`. Every decoder answers `none` for a value of another shape; `decode` makes an
error of that.
-/

namespace PlayerPaths.Json

mutual

def depth : Json → Nat
  | .arr items => depthItems items + 1
  | .obj members => depthMembers members + 1
  | _ => 1

def depthItems : List Json → Nat
  | [] => 0
  | item :: items => max item.depth (depthItems items)

def depthMembers : List (String × Json) → Nat
  | [] => 0
  | (_, value) :: members => max value.depth (depthMembers members)

end

/-- Run a decoder of nested values with enough fuel for the nesting of the value. -/
def nested {α : Type} (decode : Nat → Json → Option α) (j : Json) : Option α := decode j.depth j

def decode {α : Type} (decoder : Json → Option α) (j : Json) : Result α :=
  match decoder j with
  | some a => return a
  | none => throw .malformed

/-- The item of a list with an index. A missing item is `null`. -/
def item : Json → Nat → Json
  | .arr items, i => items[i]?.getD .null
  | _, _ => .null

def member? : Json → String → Option Json
  | .obj members, name => members.lookup name
  | _, _ => none

/-- The member of an object with a name. A missing member is `null`. -/
def member (j : Json) (name : String) : Json := (j.member? name).getD .null

def string? : Json → Option String
  | .str s => some s
  | _ => none

def bool? : Json → Option Bool
  | .bool b => some b
  | _ => none

/-- An integer between two bounds, both included. -/
def intBetween? (low high : Int) : Json → Option Int
  | .int i => if low ≤ i ∧ i ≤ high then some i else none
  | _ => none

def int64? : Json → Option Int := intBetween? Word.minInt Word.maxInt

def int32? : Json → Option Int := intBetween? (-(pow2 31)) (pow2 31 - 1)

/-- A natural number with at most so many bits. -/
def natBits? (bits : Nat) (j : Json) : Option Nat :=
  (intBetween? 0 (pow2 bits - 1) j).map Int.toNat

def nat? : Json → Option Nat := natBits? 64

def nat32? : Json → Option Nat := natBits? 32

def double? : Json → Option Float
  | .int i => some (Double.ofInt i)
  | .real x => some x
  | _ => none

/-- Any number, as a double. What JSON cannot write as a number goes by its name. -/
def extendedDouble? : Json → Option Float
  | .str "NaN" => some (0.0 / 0.0)
  | .str "inf" => some (1.0 / 0.0)
  | .str "-inf" => some (-1.0 / 0.0)
  | j => double? j

def list? {α : Type} (decode : Json → Option α) : Json → Option (List α)
  | .arr items => items.mapM decode
  | _ => none

/-- A value that may be absent, written as `null`. -/
def optional? {α : Type} (decode : Json → Option α) : Json → Option (Option α)
  | .null => some none
  | j => (decode j).map some

def pair? {α β : Type} (first : Json → Option α) (second : Json → Option β) :
    Json → Option (α × β)
  | .arr [a, b] => do return (← first a, ← second b)
  | _ => none

/-- The members of an object with decoded values, in the order of their names. -/
def map? {α : Type} (decode : Json → Option α) : Json → Option (List (String × α))
  | .obj members => members.mapM fun (name, value) => (decode value).map (name, ·)
  | _ => none

/-- A distinct, increasing list of words. -/
def set? : Json → Option (List String) := fun j =>
  (list? string? j).map fun words => words.eraseDups.mergeSort

abbrev Fields := String → Option Json

/-- A record with the given fields, from an object or a list. -/
def fields? (names : List String) : Json → Option Fields
  | .obj members => some fun name => members.lookup name
  | .arr items =>
    if items.length = names.length then some fun name => (names.zip items).lookup name else none
  | _ => none

/-- As `fields?`, for records whose trailing fields have default values. -/
def fieldsOrDefault? (names : List String) : Json → Option Fields
  | .obj members => some fun name => members.lookup name
  | .arr items =>
    if items.length ≤ names.length then some fun name => (names.zip items).lookup name else none
  | _ => none

def Fields.get {α : Type} (fields : Fields) (name : String) (decode : Json → Option α) : Option α :=
  (fields name).bind decode

/-- A field that may be missing or `null`. -/
def Fields.getOptional {α : Type} (fields : Fields) (name : String) (decode : Json → Option α) :
    Option (Option α) :=
  match fields name with
  | none => some none
  | some j => optional? decode j

def Fields.getOr {α : Type} (fields : Fields) (name : String) (decode : Json → Option α)
    (default : α) : Option α :=
  match fields name with
  | none => some default
  | some j => decode j

/-- How the fields of a choice are written. -/
inductive Style where
  /-- As an object. -/
  | named
  /-- As an object, or as a list of the fields in their order. -/
  | listed
  deriving DecidableEq, Repr

def choiceFields? (style : Style) (names : List String) (j : Json) : Option Fields :=
  match style, j with
  | .named, .arr _ => none
  | _, j => fields? names j

def choice? : Json → Option (String × Option Json)
  | .str tag => some (tag, none)
  | .obj [(tag, content)] => some (tag, some content)
  | _ => none

def word? {α : Type} (table : List (String × α)) (j : Json) : Option α := do
  let (tag, content) ← choice? j
  match content with
  | none | some .null => table.lookup tag
  | _ => none

end PlayerPaths.Json
