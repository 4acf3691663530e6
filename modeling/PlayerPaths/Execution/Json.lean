import PlayerPaths.Execution.Evaluate
import PlayerPaths.Execution.InputPolicy
import PlayerPaths.SmtLib.Json

/-!
# States as JSON

What tools show of addresses and of states. Formulas are shown as terms of the solver's language.
-/

namespace PlayerPaths

def Root.toJson : Root → Json
  | .frame depth slot =>
    let rest : List Json := match slot with
      | .local name => [.str "local", .str name]
      | .stack name => [.str "stack", .str name]
      | .argument index => [.str "arg", .int index]
      | .this => [.str "this"]
    .arr (.str "frame" :: .int depth :: rest)
  | .staticField signature => .strings ["staticfield", signature]
  | .symcall id => .arr [.str "symcall", .int id]
  | .special name => .strings ["special", name]
  | .heap id => .arr [.str "heap", .int id]

def Address.toJson (a : Address) : Json :=
  let shown (a : Option Address) : Json := .ofString? (a.map Address.text)
  .obj [("root", a.root.toJson), ("suffixes", .arr (a.suffixes.map fun s => .strings s.segments)),
    ("display", .str a.text), ("object", shown a.object?),
    ("extended", shown ((a.field "f").length.heapId.object?))]

def Place.toJson : Place → Json
  | .slot a t => .strings ["slot", a.text, t.text]
  | .member p field => .arr [.str "member", p.toJson, .str field]

def Polls.toJson (p : Polls) : Json :=
  .arr (p.ids.toList.map fun ((method, arguments), id) =>
    .arr [.str method, .str arguments, .int id])

def Frame.toJson (f : Frame) : Json :=
  .arr [.str f.method.signature, .int f.depth, .str f.location.text]

def callsJson (calls : Std.TreeMap Nat SymbolicCall) : Result Json := do
  return .arr (← calls.toList.mapM fun (id, c) => do
    return .arr [.int id, .str c.method.signature, .strings (← Formula.texts c.arguments)])

def State.members {D : Type} (s : State D) : Result (List (String × Json)) := do
  return [("status", .str s.status.name),
    ("condition", .strings (← Formula.texts s.condition)),
    ("memory", ← Model.toJson ⟨s.memory.slots⟩),
    ("frames", .arr (s.frames.reverse.map Frame.toJson)),
    ("symcalls", ← callsJson s.calls), ("steps", .int s.steps)]

end PlayerPaths
