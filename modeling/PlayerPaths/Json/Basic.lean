import PlayerPaths.Number.Decimal
import PlayerPaths.Text.Quoted

/-!
# JSON values

Programs, settings and reports are exchanged as JSON. A number is an integer when it is written
as one and fits 64 bits, and a double otherwise. Members of an object that was read are in the
order of their names, each name once.
-/

namespace PlayerPaths

inductive Json where
  | null
  | bool (b : Bool)
  | int (i : Int)
  | real (x : Float)
  | str (s : String)
  | arr (items : List Json)
  | obj (members : List (String × Json))

namespace Json

/-- Members in the order of their names; of several with one name, the last counts. -/
def sortMembers (members : List (String × Json)) : List (String × Json) :=
  let sorted := members.mergeSort fun a b => a.1 ≤ b.1
  sorted.foldr (fun m rest => match rest with
    | n :: _ => if m.1 == n.1 then rest else m :: rest
    | [] => [m]) []

def strings (items : List String) : Json := arr (items.map str)

def numbers (items : List Nat) : Json := arr (items.map fun (n : Nat) => int n)

def ofNat? : Option Nat → Json
  | some n => int n
  | none => null

def ofString? : Option String → Json
  | some s => str s
  | none => null

end Json

end PlayerPaths
