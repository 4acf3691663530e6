import PlayerPaths.Live.Json

/-!
# Recorded accessors

A recording stands in for the accessors of a running application. A recorded answer is a value, or
the message of a failed resolution. A recorded method answers with one of its arguments, with a
field of the component, or by cases on its arguments.

An entry is decoded when it is asked. A bad one fails the readings that reach it, and no others.
-/

namespace PlayerPaths

open Json

namespace Recording

def answer (j : Json) : Result Value :=
  match j.member? "fail" with
  | some (.str message) => throw (.resolution message)
  | _ => Value.ofJson j

/-- The answer of the first case with the given arguments. -/
def caseFor? (arguments : List Value) : List Json → Result (Option Json)
  | [] => return none
  | j :: cases => do
    let expected ← Value.allOfJson (← decode (list? some) (j.item 0))
    if Value.equalAll expected arguments then return some (j.item 1)
    else caseFor? arguments cases

/-- The answer by cases on the arguments, or the default one. -/
def byCases (j : Json) (arguments : List Value) : Result Value := do
  let found ← caseFor? arguments ((list? some (j.member "cases")).getD [])
  match found.or (j.member? "default") with
  | some outcome => answer outcome
  | none => throw (.resolution "no case")

def method (j : Json) : Invoker := fun component arguments =>
  match nat? (j.member "echo"), j.member "this" with
  | some i, _ =>
    match arguments[i]? with
    | some value => return value
    | none => throw (.resolution "no argument")
  | none, .str name => component.field name
  | none, _ => byCases j arguments

/-- The entries of a table, by their names. -/
def table {α : Type} (entry : Json → α) : Json → Std.TreeMap String α
  | .obj members => .ofList (members.map fun (name, j) => (name, entry j))
  | _ => ∅

end Recording

def Registry.ofJson (j : Json) : Registry where
  staticFields := Recording.table (fun entry _ => Recording.answer entry) (j.member "static_fields")
  methods := Recording.table Recording.method (j.member "methods")
  specials := Recording.table (fun entry _ => Recording.answer entry) (j.member "specials")

end PlayerPaths
