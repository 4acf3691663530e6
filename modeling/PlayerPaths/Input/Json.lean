import PlayerPaths.Input.Taint

/-!
# Taint results as JSON

A taint analysis can go on from a result that was stored as JSON.
-/

namespace PlayerPaths

open IL Json

def IL.Location.ofJson? (j : Json) : Option Location := do
  let fields ← fields? ["block", "index"] j
  return { block := ← fields.get "block" nat?, index := ← fields.get "index" nat? }

def locations? (j : Json) : Option (List Location) :=
  (list? Location.ofJson? j).map (Sorted.ofList Location.order)

def TaintResult.ofJson? (j : Json) : Option TaintResult := do
  let fields ← fields? ["methods", "input_methods", "input_fields", "input_parameters"] j
  let points ← fields.get "methods" (map? locations?)
  let methods ← fields.get "input_methods" set?
  let stored ← fields.get "input_fields" set?
  let parameters ← fields.get "input_parameters" (map? set?)
  return { points := .ofList points
           shared := { methods, fields := stored, parameters := .ofList parameters } }

end PlayerPaths
