import PlayerPaths.Formula.Simplify
import PlayerPaths.Json.Basic
import PlayerPaths.SmtLib.Reader

/-!
# Formulas in tools

What tools show of formulas, models and scripts, as JSON with terms of the solver's language.
-/

namespace PlayerPaths

open SmtLib

def Formula.toJson (e : Formula) : Result Json := do return .str (← e.text)

def Model.toJson (m : Model) : Result Json := do
  return .obj (← m.values.toList.mapM fun (name, value) => do return (name, ← value.toJson))

/-- What is known of a formula under an assignment of its variables. -/
def Formula.summary (e : Formula) (assignment : Formula.Assignment) : Result Json := do
  let simple ← e.simplify
  let value ← (e.eval assignment).value?
  let shown ← match value with
    | some v => v.toJson
    | none => pure .null
  let vars := e.freeVariables.toList.map fun (name, s) => (name, Json.str s.text)
  return .obj [("term", ← e.toJson), ("sort", .str (← e.sort).text),
    ("simplified", ← simple.toJson),
    ("constant", .arr [.bool e.isConstant, .bool simple.isConstant]),
    ("variables", .obj vars), ("value", shown),
    ("number", .ofString? ((value.bind number?).map Decimal.text)), ("name", .ofString? e.name?)]

def SmtLib.Script.members (s : Script) : Result (List (String × Json)) := do
  let assertions ← s.assertions.mapM fun e => do
    return .strings [← e.text, (← e.sort).text]
  return [("datatypes", .strings (s.records.map declareRecord)),
    ("declarations", .obj (s.declarations.toList.map fun (name, s) => (name, .str s.smt))),
    ("assertions", .arr assertions)]

end PlayerPaths
