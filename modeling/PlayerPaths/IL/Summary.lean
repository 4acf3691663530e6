import PlayerPaths.IL.Json

/-!
# Summaries of programs

What tools show of types, statements and methods: texts and derived facts, as JSON.
-/

namespace PlayerPaths.IL

open Json

def listed {α : Type} (text : α → String) (items : List α) : Json := .strings (items.map text)

def Ty.summary (t : Ty) : Json :=
  .obj [("full_name", .str t.fullName), ("display", .str t.text), ("bits", .ofNat? t.bits?),
    ("signed", .bool t.isSigned), ("integral", .bool t.isIntegral), ("float", .bool t.isFloat),
    ("reference", .bool t.isReference), ("struct", .bool t.isStruct), ("void", .bool t.isVoid)]

def Expression.summary (e : Expression) : List (String × Json) :=
  [("display", .str e.text), ("type", .str e.type.text), ("children", listed text e.children),
    ("calls", listed (fun c => c.method.signature) e.calls),
    ("find_call", .ofString? (e.findCall?.map Call.text)),
    ("variables", .strings e.variableNames), ("walk", listed text e.preOrder)]

def Operation.summary (o : Operation) : List (String × Json) :=
  [("display", .str o.text), ("expressions", listed Expression.text o.expressions),
    ("calls", listed (fun c => c.method.signature) o.calls),
    ("sites", .arr (o.sites.map fun s => .arr [.str s.call.method.signature, .bool s.isNew])),
    ("unwind", .bool o.isUnwind), ("terminator", .bool o.isTerminator),
    ("branch", .bool o.isBranch), ("targets", .numbers o.targets)]

def Instruction.summary (i : Instruction) (l : Location) : Json :=
  .obj [("at", .str l.text), ("text", .str i.text), ("offset", .ofNat? i.offset?),
    ("offsets", .numbers i.offsets), ("synthetic", .bool i.isSynthetic), ("glue", .bool i.isGlue)]

def Body.summary (b : Body) : Json :=
  .obj [("display", .str b.text), ("handlers", .arr (b.handlers.map Handler.toJson)),
    ("instructions", .arr (b.locations.map fun (l, i) => i.summary l))]

def Variable.summary (v : Variable) : Json :=
  .arr [.str v.name, .str v.type.text, .bool v.isParameter]

def Method.summary (m : Method) : Json :=
  let parameters := (List.range m.parameters.length).filterMap m.parameterVariable?
  .obj [("signature", .str m.signature), ("full_name", .str m.fullName), ("display", .str m.text),
    ("static", .bool m.reference.isStatic), ("constructor", .bool m.reference.isConstructor),
    ("returns", .str m.returnType.text), ("module", .str m.moduleName),
    ("parameters", .arr (parameters.map Variable.summary)),
    ("body", (m.body.map Body.summary).getD .null)]

end PlayerPaths.IL
